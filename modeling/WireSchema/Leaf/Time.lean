import WireSchema.Value.Basic

/-!
Dates and date and time values, which travel as text.
-/

set_option autoImplicit false

namespace WireSchema.Leaf

open WireSchema.Text
open WireSchema.Calendar

/-- The form of a date on the wire: a fixed year, `-MM-DDTHH:MM:SS`, a fraction of at least one
digit, and an offset or `Z`; only capital letters, and no more than the first digits of the
fields are held to their range. -/
def isDateForm (cs : List Char) : Bool :=
  let first (bound : Char) (cs : List Char) : Option (List Char) :=
    match cs with
    | a :: b :: rest => if a.isDigit ∧ a ≤ bound ∧ b.isDigit then some rest else none
    | _ => none
  let form : Option Bool := do
    let (_, cs) ← readFixedYear? cs
    let cs ← dropChar? '-' cs
    let cs ← first '1' cs
    let cs ← dropChar? '-' cs
    let cs ← first '3' cs
    let cs ← dropChar? 'T' cs
    let cs ← first '2' cs
    let cs ← dropChar? ':' cs
    let cs ← first '5' cs
    let cs ← dropChar? ':' cs
    let cs ← first '5' cs
    let cs ← dropChar? '.' cs
    match spanDigits cs with
    | ([], _) => none
    | (_, ['Z']) => some true
    | (_, sign :: cs) =>
      if sign = '+' ∨ sign = '-' then
        let cs ← first '2' cs
        let cs ← dropChar? ':' cs
        let cs ← first '5' cs
        some cs.isEmpty
      else none
    | (_, []) => none
  form.getD false

def dateOfText (s : String) : Except Fault DateTime :=
  let fault : Except Fault DateTime := .error (.of (.invalidFormat "date" s))
  if isDateForm s.toList then
    match readRfc3339? s.toList with
    | some t => .ok t.utc
    | none => fault
  else fault

def readDate : Value → Except Fault Value
  | .date t => .ok (.date t)
  | .string s => (dateOfText s).map .date
  | other => other.mistyped "date string"

/-- A date made of any text that names a moment; anything else is handed back. -/
def trustDate : Value → Value
  | .string s =>
    match readRfc3339? s.toList with
    | some t => .date t.utc
    | none => .string s
  | other => other

def writeDate (v : Value) : Except Fault Value := do
  let t ← v.asDate
  return .string (isoText t)

def temporalOfText (kind : TemporalKind) (s : String) : Except Fault Temporal :=
  match Temporal.read? kind s.toList with
  | some t => .ok t
  | none => .error (.of (.invalidFormat kind.name s))

def readTemporal (kind : TemporalKind) : Value → Except Fault Value
  | .temporal t =>
    if t.kind = kind then .ok (.temporal t) else (Value.temporal t).mistyped kind.name
  | .string s => (temporalOfText kind s).map .temporal
  | other => other.mistyped kind.name

def trustTemporal (kind : TemporalKind) : Value → Value
  | .string s =>
    match Temporal.read? kind s.toList with
    | some t => .temporal t
    | none => .string s
  | other => other

def writeTemporal (kind : TemporalKind) (v : Value) : Except Fault Value := do
  let t ← v.asTemporal kind
  return .string t.text

end WireSchema.Leaf
