import WireSchema.Binary64.Rounding

/-!
Products and quotients of finite numbers, each rounded once, and what they make of a number and a
power of ten. A power of ten is rounded itself, so the result need not be the number nearest to the
decimal.
-/

set_option autoImplicit false

namespace WireSchema.Binary64

def nearestScaled (negative : Bool) (num den : Nat) (scale : Int) : Binary64 :=
  if 0 ≤ scale then nearest negative (num * Nat.pow 2 scale.toNat) den
  else nearest negative num (den * Nat.pow 2 (-scale).toNat)

def mul (x y : Binary64) : Binary64 :=
  nearestScaled (x.negative != y.negative) (x.significand * y.significand) 1 (x.scale + y.scale)

def div (x y : Binary64) : Binary64 :=
  nearestScaled (x.negative != y.negative) x.significand y.significand (x.scale - y.scale)

abbrev largestPower : Nat := 308

def powerOfTen (n : Nat) : Binary64 :=
  nearest false (Nat.pow 10 n) 1

/-- Divided so many times by the largest power of ten, and then by `10 ^ last`. Nothing is left to
divide once zero is reached. -/
def lowered : Nat → Nat → Binary64 → Binary64
  | 0, last, x => x.div (powerOfTen last)
  | times + 1, last, x =>
    if x.isZero then x else lowered times last (x.div (powerOfTen largestPower))

/-- A number times a power of ten: one product upwards, as many quotients as it takes downwards. -/
def timesPowerOfTen (x : Binary64) : Int → Binary64
  | .ofNat n =>
    if n ≤ largestPower then x.mul (powerOfTen n)
    else if x.isZero then x else infinity x.negative
  | .negSucc n => lowered (n / largestPower) (n % largestPower + 1) x

end WireSchema.Binary64
