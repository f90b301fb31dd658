import WireSchema.Command.Basic
import WireSchema.Command.Failure
import WireSchema.Text.Blank

/-!
The documents that a command is about: which files they are in, and what they are.
-/

set_option autoImplicit false

namespace WireSchema

open WireSchema.Text
open WireSchema.Files (FileFault Readable Pattern isPattern)

structure SourceFile where
  path : String
  content : Except FileFault String

structure PlacedDocument where
  place : String
  json : Json

namespace SourceFile

/-- The documents of lines from the given number on; blank lines are passed over. -/
def documentsOfLines (path : String) (number : Nat) :
    List (List Char) → Except Failure (List PlacedDocument)
  | [] => .ok []
  | line :: rest =>
    if (trim line).isEmpty then documentsOfLines path (number + 1) rest
    else do
      let place := path ++ ":" ++ decimal number
      let json ← (Json.ofText (String.ofList line)).mapError (.noLine place)
      let more ← documentsOfLines path (number + 1) rest
      return ⟨place, json⟩ :: more

def documents (linewise : Bool) (file : SourceFile) : Except Failure (List PlacedDocument) := do
  let content ← file.content.mapError (.noSource file.path)
  if linewise then documentsOfLines file.path 1 (lines content.toList)
  else
    let json ← (Json.ofText content).mapError (.noDocument file.path)
    return [⟨file.path, json⟩]

end SourceFile

section

variable {m : Type → Type} [Monad m] [Readable m]

/-- The paths that an input stands for. A pattern has to stand for something. -/
def pathsOfInput (input : String) : ExceptT Failure m (List String) :=
  if isPattern input then
    match Pattern.ofText input with
    | .error fault => throw (.badPattern fault)
    | .ok pattern => do
      let paths ← ExceptT.adapt .unsearchable pattern.paths
      if paths.isEmpty then throw (.noMatch input) else return paths
  else return [input]

def sourceFiles (inputs : List String) : ExceptT Failure m (List SourceFile) := do
  let paths ← inputs.mapM pathsOfInput
  paths.flatten.mapM fun path => return ⟨path, ← (Readable.readText path : m _)⟩

end

end WireSchema
