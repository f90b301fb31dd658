import WireSchema.Command.Arguments
import WireSchema.Command.Documents
import WireSchema.Generated.Module
import WireSchema.Json.Printer
import WireSchema.Schema.Document

/-!
How commands are done: what they need is read, the answer is computed from it, and only then
something is printed or written.
-/

set_option autoImplicit false

namespace WireSchema

open WireSchema.Files

structure Outcome where
  code : Nat
  output : String
  complaint : String
deriving DecidableEq

namespace Outcome

def done (output : String) : Outcome := ⟨0, output, ""⟩

def failed (output : String) (failure : Failure) : Outcome := ⟨1, output, failure.report⟩

end Outcome

abbrev Content := Except FileFault String

def Schema.ofFile (path : String) (content : Content) : Except Failure Schema := do
  let text ← content.mapError (.unreadable path)
  (Schema.ofText text).mapError (.misread path)

def WriteOptions.ofFile (path : String) (content : Content) : Except Failure WriteOptions := do
  let text ← content.mapError (.unreadable path)
  (WriteOptions.ofText text).mapError (.misread path)

def OptionSource.options (source : OptionSource) (content : Option Content) :
    Except Failure WriteOptions :=
  match source.file, content with
  | some path, some content => (WriteOptions.ofFile path content).map (·.merge source.switches)
  | _, _ => .ok source.switches

structure Report where
  place : String
  complaint : Option String
deriving DecidableEq

namespace Report

def text (report : Report) : String :=
  match report.complaint with
  | none => "✅ " ++ report.place ++ "\n"
  | some complaint => "❌ " ++ report.place ++ ": " ++ complaint ++ "\n"

def ofDocument (schema : Schema) (document : PlacedDocument) : Report :=
  match schema.validate document.json with
  | .ok () => ⟨document.place, none⟩
  | .error fault => ⟨document.place, some fault.message⟩

/-- The reports on the documents of a file; one if they cannot be had. -/
def ofFile (schema : Schema) (linewise : Bool) (file : SourceFile) : List Report :=
  match file.documents linewise with
  | .ok documents => documents.map (ofDocument schema)
  | .error failure => [⟨file.path, some failure.text⟩]

def outcome (reports : List Report) : Outcome :=
  let output := String.join (reports.map text)
  match reports.countP (·.complaint.isSome) with
  | 0 => .done output
  | count => .failed output (.invalidDocuments count reports.length)

end Report

def checked (schema : Schema) (linewise : Bool) (files : List SourceFile) : List Report :=
  files.flatMap (Report.ofFile schema linewise)

def normalizedFile (schema : Schema) (options : WriteOptions) (linewise : Bool)
    (file : SourceFile) : Except Failure (List Json) := do
  let documents ← file.documents linewise
  documents.mapM fun document =>
    (schema.normalForm options document.json).mapError (.ofRefusal document.place)

def normalized (schema : Schema) (options : WriteOptions) (linewise : Bool)
    (files : List SourceFile) : Except Failure String := do
  let forms ← files.mapM (normalizedFile schema options linewise)
  let texts := forms.flatten.map fun json => if linewise then json.compact else json.pretty
  return "\n".intercalate texts ++ "\n"

/-- The text of a generated module, where `content` is the content of the file of options; that is
looked at only where options matter. -/
def compiled (schema : Schema) (options : OptionSource) (content : Option Content)
    (name : String) (deserializer : Bool) : Except Failure String := do
  if deserializer then (Generated.deserializerModule name schema).mapError .impossible
  else
    let options ← options.options content
    (Generated.serializerModule name schema options).mapError .impossible

section

variable {m : Type → Type} [Monad m] [Readable m] [Writable m]

def writeFile (path text : String) : m (Except Failure Unit) := do
  let folder := (parent? path).getD ""
  let made ← if folder = "" then pure (.ok ())
    else ensureDirectories (steps folder).length folder
  match made with
  | .error fault => return .error (.noFolder folder fault)
  | .ok () => return (← Writable.writeText path text).mapError (.unwritable path)

def deliver (out : Option String) (text : Except Failure String) : m Outcome := do
  match text, out with
  | .error failure, _ => return .failed "" failure
  | .ok text, none => return .done text
  | .ok text, some path =>
    match ← writeFile path text with
    | .ok () => return .done ""
    | .error failure => return .failed "" failure

def Command.run : Command → m Outcome
  | .compile schema options name deserializer out => do
    let schemaContent ← Readable.readText schema
    let optionsContent ← options.file.mapM Readable.readText
    deliver out do
      let schema ← Schema.ofFile schema schemaContent
      compiled schema options optionsContent name deserializer
  | .check schema documents => do
    let schemaContent ← Readable.readText schema
    let files ← (sourceFiles documents.inputs).run
    let reports : Except Failure (List Report) := do
      let schema ← Schema.ofFile schema schemaContent
      return checked schema documents.linewise (← files)
    match reports with
    | .ok reports => return Report.outcome reports
    | .error failure => return .failed "" failure
  | .normalize schema options documents out => do
    let schemaContent ← Readable.readText schema
    let optionsContent ← options.file.mapM Readable.readText
    let files ← (sourceFiles documents.inputs).run
    deliver out do
      let schema ← Schema.ofFile schema schemaContent
      let options ← options.options optionsContent
      normalized schema options documents.linewise (← files)

def runArguments (arguments : List String) : m Outcome :=
  match Command.ofArguments arguments with
  | .ok command => command.run
  | .error fault => pure ⟨2, "", "error: " ++ fault.message ++ "\n"⟩

end

end WireSchema
