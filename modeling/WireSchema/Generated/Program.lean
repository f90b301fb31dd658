import WireSchema.Generated.Code

/-!
Programs as they grow: the names imported so far, by path, and the helpers defined so far. Both only
ever grow at the end, and helpers with the same text are one helper.
-/

set_option autoImplicit false

namespace WireSchema.Generated

open WireSchema.Text

/-- Imports by path, each with its names in the order of their first use, and helpers in the order
of their numbers. -/
structure Program where
  imports : List (String × List String)
  helpers : List Body

namespace Program

def empty : Program := ⟨[], []⟩

def addName (name : String) (names : List String) : List String :=
  if names.contains name then names else names ++ [name]

def addImport (path name : String) : List (String × List String) → List (String × List String)
  | [] => [(path, [name])]
  | (p, names) :: rest =>
    if p = path then (p, addName name names) :: rest else (p, names) :: addImport path name rest

def importing (path name : String) (program : Program) : Program :=
  { program with imports := addImport path name program.imports }

/-- The number of the first helper with the given text. -/
def helperIndex? (text : String) (program : Program) : Option Nat :=
  program.helpers.findIdx? fun body => body.render = text

def define (body : Body) (program : Program) : Nat × Program :=
  match program.helperIndex? body.render with
  | some index => (index, program)
  | none => (program.helpers.length, { program with helpers := program.helpers ++ [body] })

def importLine (entry : String × List String) : String :=
  "use " ++ entry.1 ++ "::\x7b" ++ ", ".intercalate entry.2 ++ "\x7d;\n"

def helperText (index : Nat) (body : Body) : String :=
  "fn " ++ helperName index ++ signature ++ " \x7b\n" ++ indent body.render ++ "\n\x7d\n\n"

def helperTexts : Nat → List Body → List String
  | _, [] => []
  | index, body :: rest => helperText index body :: helperTexts (index + 1) rest

def render (program : Program) : String :=
  String.join (program.imports.map importLine) ++ (if program.imports.isEmpty then "" else "\n") ++
    String.join (helperTexts 0 program.helpers)

def exported (name : String) (code : Code) : String :=
  "pub fn " ++ name ++ signature ++ " \x7b\n" ++ indent ("Ok(" ++ code.applied "input" ++ ")") ++
    "\n\x7d\n"

end Program

def rootPath : String := "typekind"
def jsonPath : String := "typekind::datatypes::json"
def intPath : String := "typekind::datatypes::int"
def numberPath : String := "typekind::datatypes::number"
def bigintPath : String := "typekind::datatypes::bigint"
def datePath : String := "typekind::datatypes::date"
def temporalPath : String := "typekind::datatypes::temporal"
def accessPath : String := "typekind::runtime::access"
def cowPath : String := "typekind::runtime::cow"

def Routine.path : Routine → String
  | .serializeNumber | .parseNumber => numberPath
  | .parseBoolean | .parseString | .parseArray => jsonPath
  | .parseInteger | .parseU32 | .parseI32 => intPath
  | .parseBigint | .parseU64 | .parseI64 => bigintPath
  | .parseDate => datePath

namespace Program

def calling (r : Routine) (program : Program) : Code × Program :=
  (.routine r, program.importing r.path r.name)

def optional (inner : Code) (program : Program) : Code × Program :=
  if inner.isIdentity then (.identity, program)
  else (.whenPresent inner, program.importing rootPath "Value")

end Program

end WireSchema.Generated
