import WireSchema.Leaf.Number

/-!
Integers that travel as decimal text.
-/

set_option autoImplicit false

namespace WireSchema.Leaf

open WireSchema.Text

/-- The integer that an optional minus sign and at least one digit spell. -/
def integerOfText? (cs : List Char) : Option Int :=
  let (negative, ds) : Bool × List Char :=
    match cs with
    | '-' :: rest => (true, rest)
    | rest => (false, rest)
  if ds ≠ [] ∧ ds.all Char.isDigit then
    some (if negative then -(ofDigits ds : Int) else ofDigits ds)
  else none

def readDigits (kind : String) : Value → Except Fault Int
  | .string s =>
    match integerOfText? s.toList with
    | some n => .ok n
    | none => .error (.of (.invalidFormat kind s))
  | other => other.mistyped "integer string"

def readDigitsIn (range : IntegerRange) (v : Value) : Except Fault Int := do
  let n ← readDigits range.name v
  if range.least ≤ n ∧ n ≤ range.greatest then return n
  else .error (.of (.outOfRange range.name (integer n)))

def natural64 : IntegerRange := ⟨"u64", 0, 18446744073709551615⟩

def signed64 : IntegerRange := ⟨"i64", -9223372036854775808, 9223372036854775807⟩

def readBigint (origin : Origin) (v : Value) : Except Fault Value :=
  (readDigits "bigint" v).map (.bigint origin)

def readBigintIn (range : IntegerRange) (origin : Origin) (v : Value) : Except Fault Value :=
  (readDigitsIn range v).map (.bigint origin)

/-- The integer that an optional sign and digits spell; after the first digit there may be
underscores. -/
def looseInteger? (cs : List Char) : Option Int :=
  let (negative, body) : Bool × List Char :=
    match cs with
    | '-' :: rest => (true, rest)
    | '+' :: rest => (false, rest)
    | rest => (false, rest)
  match body with
  | [] => none
  | first :: more =>
    if first.isDigit ∧ more.all fun c => c.isDigit || c == '_' then
      let n := ofDigits (body.filter Char.isDigit)
      some (if negative then -(n : Int) else n)
    else none

/-- A big integer made of a text or of an integer of at most 53 bits; anything else is handed
back. -/
def trustBigint (origin : Origin) (v : Value) : Value :=
  match v with
  | .string s =>
    match looseInteger? (trim s.toList) with
    | some n => .bigint origin n
    | none => v
  | .number x =>
    match Value.safeInteger? x with
    | some n => .bigint origin n
    | none => v
  | _ => v

def writeBigint (v : Value) : Except Fault Value := do
  let n ← v.asBigint
  return .string (integer n)

end WireSchema.Leaf
