import WireSchema.Value.Basic
import WireSchema.Json.Basic

/-!
Values and document trees. Every tree is a value in which all numbers are binary floating-point
numbers. A value is a tree if it holds nothing native and no number that is not finite; absent
entries of objects are left out, and any other absent value becomes null.
-/

set_option autoImplicit false

namespace WireSchema.Value

mutual

def ofJson (origin : Origin) : Json → Value
  | .null => .null
  | .bool b => .bool b
  | .integer n => .number (.ofInt n)
  | .double x => .number x
  | .string s => .string s
  | .array items => .array origin (ofItems origin 0 items)
  | .object members => .object origin (ofMembers origin members)

def ofItems (origin : Origin) (i : Nat) : List Json → List Value
  | [] => []
  | item :: rest => ofJson (origin.enter (.index i)) item :: ofItems origin (i + 1) rest

def ofMembers (origin : Origin) : List (String × Json) → List (String × Value)
  | [] => []
  | (name, value) :: rest =>
    (name, ofJson (origin.enter (.key name)) value) :: ofMembers origin rest

end

def largestSafe : Nat := 9007199254740991

def safeInteger? (x : Binary64) : Option Int :=
  match x.toInt? with
  | some n => if n.natAbs ≤ largestSafe then some n else none
  | none => none

/-- The tree of a number: an integer if it is one of at most 53 bits. -/
def numberJson (x : Binary64) : Except Fault Json :=
  match safeInteger? x with
  | some n => .ok (.integer n)
  | none =>
    if x.isFinite then .ok (.double x)
    else .error (.of (.invalidType "finite number" "non-finite number"))

mutual

def toJson : Value → Except Fault Json
  | .absent => .ok .null
  | .null => .ok .null
  | .bool b => .ok (.bool b)
  | .number x => numberJson x
  | .string s => .ok (.string s)
  | .array _ items => do
    let items ← itemsJson items
    return .array items
  | .object _ entries => do
    let members ← entriesJson entries
    return .object members
  | .bigint origin n => (Value.bigint origin n).mistyped "JSON value"
  | .date t => (Value.date t).mistyped "JSON value"
  | .temporal t => (Value.temporal t).mistyped "JSON value"

def itemsJson : List Value → Except Fault (List Json)
  | [] => .ok []
  | item :: rest => do
    let json ← toJson item
    let more ← itemsJson rest
    return json :: more

def entriesJson : List (String × Value) → Except Fault (List (String × Json))
  | [] => .ok []
  | (key, value) :: rest =>
    if value.isAbsent then entriesJson rest
    else do
      let json ← toJson value
      let more ← entriesJson rest
      return (key, json) :: more

end

end WireSchema.Value
