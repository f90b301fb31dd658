import WireSchema.Binary64.Basic

/-!
The binary number nearest to a fraction, an integer or a decimal. Of two that are equally near,
the one with the even significand is taken; what lies too far out becomes infinite.
-/

set_option autoImplicit false

namespace WireSchema.Binary64

def roundHalfEven (num den : Nat) : Nat :=
  let q := num / den
  let r := num % den
  if 2 * r < den then q
  else if den < 2 * r then q + 1
  else if q % 2 = 0 then q else q + 1

/-- The integer `e` with `2 ^ e ≤ num / den < 2 ^ (e + 1)`, for positive `num` and `den`. -/
def floorLog2 (num den : Nat) : Int :=
  let e : Int := (num.log2 : Int) - den.log2
  let reached :=
    if 0 ≤ e then den * Nat.pow 2 e.toNat ≤ num else den ≤ num * Nat.pow 2 (-e).toNat
  if reached then e else e - 1

def nearest (negative : Bool) (num den : Nat) : Binary64 :=
  if num = 0 then zero negative
  else
    let unit := max (floorLog2 num den - 52) (-1074)
    let m :=
      if 0 ≤ unit then roundHalfEven num (den * Nat.pow 2 unit.toNat)
      else roundHalfEven (num * Nat.pow 2 (-unit).toNat) den
    ofMagnitudeCode negative ((unit + 1074).toNat * fractionCount + m)

def ofInt (n : Int) : Binary64 :=
  nearest (n < 0) n.natAbs 1

/-- The binary number nearest to `± significand * 10 ^ exponent`. `size` is a bound on the number
of digits of the significand; it settles powers that are far out of range without forming them. -/
def ofDecimal (negative : Bool) (significand : Nat) (size : Nat) (exponent : Int) : Binary64 :=
  if significand = 0 then zero negative
  else if 400 < exponent then infinity negative
  else if exponent + size < -400 then zero negative
  else if 0 ≤ exponent then nearest negative (significand * Nat.pow 10 exponent.toNat) 1
  else nearest negative significand (Nat.pow 10 (-exponent).toNat)

end WireSchema.Binary64
