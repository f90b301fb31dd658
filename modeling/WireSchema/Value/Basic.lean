import WireSchema.Calendar.Temporal
import WireSchema.Binary64.Basic
import WireSchema.Entries
import WireSchema.Fault

/-!
Values, native and on the wire. The wire has only null, booleans, numbers, strings, arrays and
objects; native values may also be big integers, dates and date and time values. `absent` is no
value at all, which is not the same as null.

Arrays, objects and big integers know where they came into being, so that a result can be told to be
the very same as what was put in.
-/

set_option autoImplicit false

namespace WireSchema

open WireSchema.Calendar (DateTime Temporal)

/-- A value. The keys of an object are distinct and in the order of their first insertion. -/
inductive Value where
  | absent
  | null
  | bool (b : Bool)
  | number (x : Binary64)
  | string (s : String)
  | bigint (origin : Origin) (n : Int)
  | date (t : DateTime)
  | temporal (t : Temporal)
  | array (origin : Origin) (items : List Value)
  | object (origin : Origin) (entries : List (String × Value))
deriving Inhabited

namespace Value

def typeName : Value → String
  | .absent => "absent"
  | .null => "null"
  | .bool _ => "boolean"
  | .number _ => "number"
  | .string _ => "string"
  | .bigint _ _ => "bigint"
  | .date _ => "date"
  | .temporal t => t.kind.name
  | .array _ _ => "array"
  | .object _ _ => "object"

def isAbsent : Value → Bool
  | .absent => true
  | _ => false

def get (key : String) : Value → Value
  | .object _ entries => (Entries.get? key entries).getD .absent
  | _ => .absent

def mistyped {α : Type} (expected : String) (v : Value) : Except Fault α :=
  .error (.of (.invalidType expected v.typeName))

def asString : Value → Except Fault String
  | .string s => .ok s
  | other => other.mistyped "string"

def asNumber : Value → Except Fault Binary64
  | .number x => .ok x
  | other => other.mistyped "number"

def asBigint : Value → Except Fault Int
  | .bigint _ n => .ok n
  | other => other.mistyped "bigint"

def asDate : Value → Except Fault DateTime
  | .date t => .ok t
  | other => other.mistyped "date"

def asTemporal (kind : TemporalKind) : Value → Except Fault Temporal
  | .temporal t =>
    if t.kind = kind then .ok t else (Value.temporal t).mistyped kind.name
  | other => other.mistyped kind.name

def asArray : Value → Except Fault (Origin × List Value)
  | .array origin items => .ok (origin, items)
  | other => other.mistyped "array"

def asObject : Value → Except Fault (Origin × List (String × Value))
  | .object origin entries => .ok (origin, entries)
  | other => other.mistyped "object"

mutual

/-- The number of the first pass in which nothing of the value came into being. -/
def nextPass : Value → Nat
  | .bigint origin _ => origin.pass + 1
  | .array origin items => max (origin.pass + 1) (nextPassItems items)
  | .object origin entries => max (origin.pass + 1) (nextPassEntries entries)
  | _ => 0

def nextPassItems : List Value → Nat
  | [] => 0
  | item :: rest => max (nextPass item) (nextPassItems rest)

def nextPassEntries : List (String × Value) → Nat
  | [] => 0
  | (_, value) :: rest => max (nextPass value) (nextPassEntries rest)

end

/-- An origin that is new to a value: nothing made there or further in is a part of it. -/
def freshOrigin (v : Value) : Origin :=
  .root v.nextPass

/-- A value with the same content that came into being at the given origin. The parts of a
container stay what they are. -/
def remade (origin : Origin) : Value → Value
  | .bigint _ n => .bigint origin n
  | .array _ items => .array origin items
  | .object _ entries => .object origin entries
  | scalar => scalar

end Value

end WireSchema
