/-!
Binary floating-point numbers of 64 bits, held by their three fields: sign, biased exponent and
fraction. A finite number is `± significand * 2 ^ scale`, so every question about its value is
one about natural numbers and integers.
-/

set_option autoImplicit false

namespace WireSchema

/-- The number of fractions, `2 ^ 52`. -/
abbrev Binary64.fractionCount : Nat := 4503599627370496

structure Binary64 where
  negative : Bool
  exponent : Fin 2048
  fraction : Fin Binary64.fractionCount
deriving DecidableEq

namespace Binary64

def ofBits (n : Nat) : Binary64 where
  negative := n / (2048 * fractionCount) % 2 = 1
  exponent := Fin.ofNat 2048 (n / fractionCount)
  fraction := Fin.ofNat fractionCount n

def toBits (x : Binary64) : Nat :=
  (if x.negative then 2048 * fractionCount else 0) + x.exponent.val * fractionCount +
    x.fraction.val

def nan : Binary64 := ⟨false, 2047, Fin.ofNat fractionCount (fractionCount / 2)⟩

def infinity (negative : Bool) : Binary64 := ⟨negative, 2047, Fin.ofNat fractionCount 0⟩

def zero (negative : Bool) : Binary64 := ⟨negative, 0, Fin.ofNat fractionCount 0⟩

def isFinite (x : Binary64) : Bool :=
  x.exponent != 2047

def isNaN (x : Binary64) : Bool :=
  x.exponent == 2047 && x.fraction.val != 0

def isZero (x : Binary64) : Bool :=
  x.exponent == 0 && x.fraction.val == 0

/-- The integer factor of a finite number's magnitude, below `2 ^ 53`. -/
def significand (x : Binary64) : Nat :=
  if x.exponent = 0 then x.fraction.val else fractionCount + x.fraction.val

/-- The power of two in a finite number's magnitude, from `-1074` to `971`. -/
def scale (x : Binary64) : Int :=
  (max 1 x.exponent.val : Nat) - 1075

def neg (x : Binary64) : Binary64 :=
  { x with negative := !x.negative }

def toNat? (x : Binary64) : Option Nat :=
  if x.isFinite then
    if 0 ≤ x.scale then some (x.significand * Nat.pow 2 x.scale.toNat)
    else
      let unit := Nat.pow 2 (-x.scale).toNat
      if x.significand % unit = 0 then some (x.significand / unit) else none
  else none

def toInt? (x : Binary64) : Option Int :=
  x.toNat?.map fun n => if x.negative then -(n : Int) else n

/-- Numeric equality: NaN differs from everything, and the two zeros are equal. -/
def equal (x y : Binary64) : Bool :=
  !x.isNaN && !y.isNaN && (x == y || (x.isZero && y.isZero))

/-- The number of the given sign whose word, without the sign bit, is `code`; codes past the
largest finite one are infinite. -/
def ofMagnitudeCode (negative : Bool) (code : Nat) : Binary64 :=
  if code < 2047 * fractionCount then
    ⟨negative, Fin.ofNat 2048 (code / fractionCount), Fin.ofNat fractionCount code⟩
  else infinity negative

end Binary64

end WireSchema
