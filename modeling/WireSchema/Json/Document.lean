import WireSchema.Json.Node
import WireSchema.Json.Basic
import WireSchema.Place
import WireSchema.Text.Quoted

/-!
From a text to a document tree, with the place and the path of whatever cannot be read. At most
127 lists and objects may stand inside each other.
-/

set_option autoImplicit false

namespace WireSchema.Json

open WireSchema.Text

/-- One step of the path in a message: into a member or to an item, or to where a member's name
could not be read. -/
inductive DocumentStep where
  | known (step : Step)
  | unknown
deriving DecidableEq

inductive DocumentCause where
  | badSyntax (cause : SyntaxCause)
  | invalidType (found expected : String)
  | invalidValue (found expected : String)
  | invalidLength (length : Nat) (expected : String)
  | unknownVariant (name : String) (known : List String)
  | missingField (name : String)
  | duplicateField (name : String)
deriving DecidableEq

def backquoted (name : String) : String :=
  "`" ++ name ++ "`"

def DocumentCause.message : DocumentCause → String
  | .badSyntax cause => cause.message
  | .invalidType found expected => "invalid type: " ++ found ++ ", expected " ++ expected
  | .invalidValue found expected => "invalid value: " ++ found ++ ", expected " ++ expected
  | .invalidLength length expected =>
    "invalid length " ++ decimal length ++ ", expected " ++ expected
  | .unknownVariant name known =>
    "unknown variant " ++ backquoted name ++ ", expected one of " ++
      ", ".intercalate (known.map backquoted)
  | .missingField name => "missing field " ++ backquoted name
  | .duplicateField name => "duplicate field " ++ backquoted name

structure DocumentFault where
  cause : DocumentCause
  mark : Mark
  path : List DocumentStep
deriving DecidableEq

namespace DocumentFault

def placed (cause : DocumentCause) (mark : Mark) : DocumentFault :=
  ⟨cause, mark, []⟩

def message (fault : DocumentFault) : String :=
  fault.cause.message ++ fault.mark.text

def stepText : DocumentStep → String
  | .known (.key name) => name
  | .known (.index i) => "[" ++ decimal i ++ "]"
  | .unknown => "?"

/-- The text of a path after its first step: a point in front of all but items. -/
def moreSteps : List DocumentStep → String
  | [] => ""
  | .known (.index i) :: rest => "[" ++ decimal i ++ "]" ++ moreSteps rest
  | step :: rest => "." ++ stepText step ++ moreSteps rest

def pathText : List DocumentStep → String
  | [] => "."
  | step :: rest => stepText step ++ moreSteps rest

def messageWithPath (fault : DocumentFault) : String :=
  "at JSON path " ++ pathText fault.path ++ " → " ++ fault.message

end DocumentFault

def Problem.fault (problem : Problem) : DocumentFault :=
  .placed (.badSyntax problem.cause) problem.mark

/-- A result whose fault, if it is one, lies one step further in. -/
def within {α : Type} (step : DocumentStep) : Except DocumentFault α → Except DocumentFault α
  | .ok a => .ok a
  | .error fault => .error { fault with path := step :: fault.path }

def withinKey {α : Type} (name : String) : Except DocumentFault α → Except DocumentFault α :=
  within (.known (.key name))

def withinIndex {α : Type} (i : Nat) : Except DocumentFault α → Except DocumentFault α :=
  within (.known (.index i))

def nameFault {α : Type} (problem : Problem) : Except DocumentFault α :=
  within .unknown (.error problem.fault)

/-- What ends a list of which no more is wanted, where the list itself ends for another reason: a
further item, or the place of one behind a comma, is too much. -/
def Problem.surplus (problem : Problem) : Problem :=
  match problem.cause with
  | .expectedListCommaOrEnd | .endInValue => ⟨.trailingCharacters, problem.mark⟩
  | _ => problem

def surplusAt {α : Type} (start : Mark) : Except DocumentFault α :=
  .error (.placed (.badSyntax .trailingCharacters) ⟨start.line, start.column + 1⟩)

def Scalar.described : Scalar → String
  | .null => "null"
  | .bool b => "boolean " ++ backquoted (if b then "true" else "false")
  | .integer n => "integer " ++ backquoted (Text.integer n)
  | .double x => "floating point " ++ backquoted (String.ofList x.documentDigits)
  | .string s => "string " ++ quoted s

def Scalar.json : Scalar → Json
  | .null => .null
  | .bool b => .bool b
  | .integer n => .integer n
  | .double x => .double x
  | .string s => .string s

/-- The number of lists and objects that may be open at once, and one. -/
def depthLimit : Nat := 128

/-- One list or object further in. The depth that is left must not reach zero. -/
def descend (depth : Nat) (start : Mark) : Except DocumentFault Nat :=
  if depth ≤ 1 then
    .error (.placed (.badSyntax .recursionLimit) ⟨start.line, start.column + 1⟩)
  else .ok (depth - 1)

mutual

def Node.read (depth : Nat) : Node → Except DocumentFault Json
  | .scalar _ _ value => .ok value.json
  | .flawed _ _ _ problem => .error problem.fault
  | .broken _ _ _ reading _ => .error reading.fault
  | .withheld problem => .error problem.fault
  | .list start items ending => do
    let depth ← descend depth start
    let items ← Node.readItems depth 0 ending items
    return .array items
  | .object start members ending => do
    let depth ← descend depth start
    let members ← Node.readMembers depth ending members
    return .object members

def Node.readItems (depth : Nat) (i : Nat) (ending : Ending) :
    List Node → Except DocumentFault (List Json)
  | [] =>
    match ending with
    | .closed _ => .ok []
    | .cut problem => .error problem.fault
  | item :: rest => do
    let json ← withinIndex i (item.read depth)
    let more ← Node.readItems depth (i + 1) ending rest
    return json :: more

def Node.readMembers (depth : Nat) (ending : Ending) :
    List (Member × Node) → Except DocumentFault (List (String × Json))
  | [] =>
    match ending with
    | .closed _ => .ok []
    | .cut problem => nameFault problem
  | (⟨_, .error problem, _, _, _⟩, _) :: _ => nameFault problem
  | (_, .withheld problem) :: _ => .error problem.fault
  | (⟨_, .ok name, _, _, _⟩, value) :: rest => do
    let json ← withinKey name (value.read depth)
    let more ← Node.readMembers depth ending rest
    return (name, json) :: more

end

def passedInList : SyntaxCause → SyntaxCause
  | .trailingComma => .expectedValue
  | cause => cause

def passedInObject : SyntaxCause → SyntaxCause
  | .trailingComma => .keyNotString
  | .endInValue => .endInObject
  | cause => cause

mutual

def Node.pass : Node → Except DocumentFault Unit
  | .scalar _ _ _ => .ok ()
  | .flawed _ _ _ _ => .ok ()
  | .broken _ _ _ _ passing => .error passing.fault
  | .withheld problem => .error problem.fault
  | .list _ items ending => do
    Node.passItems items
    match ending with
    | .closed _ => .ok ()
    | .cut problem => .error (.placed (.badSyntax (passedInList problem.cause)) problem.mark)
  | .object _ members ending => do
    Node.passMembers members
    match ending with
    | .closed _ => .ok ()
    | .cut problem => .error (.placed (.badSyntax (passedInObject problem.cause)) problem.mark)

def Node.passItems : List Node → Except DocumentFault Unit
  | [] => .ok ()
  | item :: rest => do
    item.pass
    Node.passItems rest

def Node.passMembers : List (Member × Node) → Except DocumentFault Unit
  | [] => .ok ()
  | (_, value) :: rest => do
    value.pass
    Node.passMembers rest

end

/-- The tree of the first value of a text; what follows it is not looked at. -/
def ofTextPrefix (text : String) : Except DocumentFault Json :=
  ((readText text.toList).node.read depthLimit).map distinct

def ofText (text : String) : Except DocumentFault Json := do
  let read := readText text.toList
  let json ← read.node.read depthLimit
  match read.next with
  | none => return json.distinct
  | some c =>
    let c := c.skipBlanks
    if c.rest = [] then return json.distinct
    else .error (.placed (.badSyntax .trailingCharacters) c.peeked)

end WireSchema.Json
