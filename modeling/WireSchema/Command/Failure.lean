import WireSchema.Convert.Normal
import WireSchema.Files.Search
import WireSchema.Json.Document

/-!
What can keep a command from being done, and how it is reported.
-/

set_option autoImplicit false

namespace WireSchema

open WireSchema.Files (FileFault PatternFault SearchFault)
open WireSchema.Json (DocumentFault)

inductive Failure where
  | unreadable (path : String) (fault : FileFault)
  /-- The file of a schema or of options holds something else. -/
  | misread (path : String) (fault : DocumentFault)
  | badPattern (fault : PatternFault)
  /-- A folder that a pattern leads through cannot be read. -/
  | unsearchable (fault : SearchFault)
  | noMatch (pattern : String)
  | noSource (path : String) (fault : FileFault)
  | noDocument (path : String) (fault : DocumentFault)
  /-- A line is not a document. -/
  | noLine (place : String) (fault : DocumentFault)
  | invalid (place : String) (fault : Fault)
  /-- A value cannot be written, or a module not generated. -/
  | impossible (fault : Fault)
  | invalidDocuments (count total : Nat)
  | noFolder (path : String) (fault : FileFault)
  | unwritable (path : String) (fault : FileFault)
deriving DecidableEq

namespace Failure

def message : Failure → String
  | .unreadable path fault => "failed to read " ++ path ++ ": " ++ fault.message
  | .misread path fault => path ++ ": " ++ fault.messageWithPath
  | .badPattern fault => fault.message
  | .unsearchable fault => fault.message
  | .noMatch pattern => "glob pattern matched no files: " ++ pattern
  | .noSource path _ => "failed to read source file " ++ path
  | .noDocument path _ => "failed to parse JSON source file (" ++ path ++ ")"
  | .noLine place _ => "failed to parse NDJSON line (" ++ place ++ ")"
  | .invalid place _ => "invalid document (" ++ place ++ ")"
  | .impossible fault => fault.message
  | .invalidDocuments count total =>
    Text.decimal count ++ " of " ++ Text.decimal total ++ " documents failed validation"
  | .noFolder path _ => "failed to create " ++ path
  | .unwritable path _ => "failed to write " ++ path

def reason? : Failure → Option String
  | .noSource _ fault => some fault.message
  | .noDocument _ fault => some fault.message
  | .noLine _ fault => some fault.message
  | .invalid _ fault => some fault.message
  | .noFolder _ fault => some fault.message
  | .unwritable _ fault => some fault.message
  | _ => none

def text (failure : Failure) : String :=
  match failure.reason? with
  | none => failure.message
  | some reason => failure.message ++ ": " ++ reason

def report (failure : Failure) : String :=
  match failure.reason? with
  | none => "Error: " ++ failure.message ++ "\n"
  | some reason =>
    "Error: " ++ failure.message ++ "\n\nCaused by:\n    " ++
      Text.substitute "\n" "\n    " reason ++ "\n"

def ofRefusal (place : String) : Refusal → Failure
  | .unread fault => .invalid place fault
  | .unwritten fault => .impossible fault

end Failure

end WireSchema
