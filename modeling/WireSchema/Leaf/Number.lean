import WireSchema.Binary64.Text
import WireSchema.Text.Blank
import WireSchema.Value.Basic
import WireSchema.Value.Document

/-!
Floating-point numbers, and the integers that travel as numbers. A number that is not finite travels
as its text, and any number may.
-/

set_option autoImplicit false

namespace WireSchema.Leaf

open WireSchema.Text

def numberOfText? (cs : List Char) : Option Binary64 :=
  if cs = "NaN".toList then some .nan
  else if cs = "Infinity".toList then some (.infinity false)
  else if cs = "-Infinity".toList then some (.infinity true)
  else Binary64.read? cs

def dropFraction? : List Char → Option (List Char)
  | '.' :: rest =>
    match spanDigits rest with
    | ([], _) => none
    | (_, rest) => some rest
  | rest => some rest

def isExponent : List Char → Bool
  | 'e' :: rest =>
    let ds := match rest with
      | '+' :: ds => ds
      | '-' :: ds => ds
      | ds => ds
    !ds.isEmpty && ds.all Char.isDigit
  | _ => false

/-- The digits of a number without its sign: digits with no needless zero in front and an optional
fraction, or one digit, an optional fraction and an exponent. -/
def isUnsignedNumber (cs : List Char) : Bool :=
  let (whole, rest) := spanDigits cs
  match whole, dropFraction? rest with
  | [], _ => false
  | _, none => false
  | [_], some tail => tail.isEmpty || isExponent tail
  | first :: _ :: _, some tail => first != '0' && tail.isEmpty

def isNumberText (cs : List Char) : Bool :=
  cs == "NaN".toList || cs == "Infinity".toList || cs == "-Infinity".toList ||
    match cs with
    | '-' :: rest => isUnsignedNumber rest
    | rest => isUnsignedNumber rest

def readNumber : Value → Except Fault Value
  | .number x => .ok (.number x)
  | .string s =>
    let fault : Except Fault Value := .error (.of (.invalidFormat "number" s))
    if isNumberText s.toList then
      match numberOfText? s.toList with
      | some x => .ok (.number x)
      | none => fault
    else fault
  | other => other.mistyped "number"

/-- A number made of whatever is there; what cannot be read is NaN. -/
def trustNumber : Value → Value
  | .number x => .number x
  | .string s => .number ((numberOfText? (trim s.toList)).getD .nan)
  | .bool b => .number (.ofInt (if b then 1 else 0))
  | .null => .number (.ofInt 0)
  | _ => .number .nan

def writeNumber : Value → Except Fault Value
  | .number x => .ok (if x.isFinite then .number x else .string x.text)
  | other => other.mistyped "number"

structure IntegerRange where
  name : String
  least : Int
  greatest : Int

def safeIntegers : IntegerRange := ⟨"int", -9007199254740991, 9007199254740991⟩

def natural32 : IntegerRange := ⟨"u32", 0, 4294967295⟩

def signed32 : IntegerRange := ⟨"i32", -2147483648, 2147483647⟩

def isSafeInteger (x : Binary64) : Bool :=
  (Value.safeInteger? x).isSome

def readInteger (range : IntegerRange) (v : Value) : Except Fault Value := do
  let x ← v.asNumber
  match x.toInt? with
  | none => .error (.of (.invalidFormat range.name x.text))
  | some n =>
    if range.least ≤ n ∧ n ≤ range.greatest then return v
    else .error (.of (.outOfRange range.name x.text))

end WireSchema.Leaf
