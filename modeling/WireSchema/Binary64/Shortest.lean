import WireSchema.Binary64.Basic
import WireSchema.Text.Digits

/-!
The shortest decimal that reads back as a given finite number: the fewest significant digits, and
of the decimals with that many digits the nearest to the number.
-/

set_option autoImplicit false

namespace WireSchema.Binary64

open WireSchema.Text

inductive Tie where
  | away
  | even
deriving DecidableEq

structure Decimal where
  significand : Nat
  exponent : Int
deriving DecidableEq

/-- A number's magnitude in quarter steps: it is `value * 2 ^ unit`, and the reals that round to
it lie between `low * 2 ^ unit` and `high * 2 ^ unit`, ends included if `closed`. -/
structure Interval where
  low : Nat
  value : Nat
  high : Nat
  unit : Int
  closed : Bool

/-- The reals that round to a positive finite number. Below a power of two the step is halved. -/
def interval (x : Binary64) : Interval :=
  let m := x.significand
  let narrow := x.fraction.val = 0 ∧ 1 < x.exponent.val
  { low := if narrow then 4 * m - 1 else 4 * m - 2
    value := 4 * m
    high := 4 * m + 2
    unit := x.scale - 2
    closed := m % 2 = 0 }

/-- `n * 2 ^ unit` over `10 ^ power` as a fraction of natural numbers. -/
def onGrid (n : Nat) (unit power : Int) : Nat × Nat :=
  (n * Nat.pow 2 unit.toNat * Nat.pow 10 (-power).toNat,
    Nat.pow 2 (-unit).toNat * Nat.pow 10 power.toNat)

/-- Whether the grid point `d * 10 ^ power` reads back as the number of the interval. -/
def Interval.accepts (i : Interval) (power : Int) (d : Nat) : Bool :=
  let (low, lowDen) := onGrid i.low i.unit power
  let (high, highDen) := onGrid i.high i.unit power
  if i.closed then low ≤ d * lowDen && d * highDen ≤ high
  else low < d * lowDen && d * highDen < high

/-- The better of the two neighbours of the number on the grid of step `10 ^ power`, if one of
them reads back. -/
def Interval.onStep? (i : Interval) (tie : Tie) (power : Int) : Option Decimal :=
  let (num, den) := onGrid i.value i.unit power
  let down := num / den
  let up := down + 1
  let rest := num % den
  let downNearer :=
    2 * rest < den || (2 * rest == den && tie == .even && down % 2 == 0)
  match i.accepts power down, i.accepts power up with
  | true, true => some ⟨if downNearer then down else up, power⟩
  | true, false => some ⟨down, power⟩
  | false, true => some ⟨up, power⟩
  | false, false => none

/-- The integer `e` with `10 ^ e ≤ n * 2 ^ unit < 10 ^ (e + 1)`, for `0 < n` and
`-1100 ≤ unit`. -/
def floorLog10 (n : Nat) (unit : Int) : Int :=
  let (num, den) := onGrid n unit (-400)
  ((digits (num / den)).length : Int) - 401

def Decimal.stripped : Nat → Decimal → Decimal
  | 0, d => d
  | fuel + 1, d =>
    if d.significand ≠ 0 ∧ d.significand % 10 = 0 then
      Decimal.stripped fuel ⟨d.significand / 10, d.exponent + 1⟩
    else d

/-- The first grid that has a decimal which reads back, over `count` grids from the one of step
`10 ^ power` to finer ones. -/
def Interval.firstHit (i : Interval) (tie : Tie) : Nat → Int → Option Decimal
  | 0, _ => none
  | count + 1, power =>
    match i.onStep? tie power with
    | some d => some d
    | none => Interval.firstHit i tie count (power - 1)

/-- The shortest decimal that reads back as the magnitude of a finite number; zero is `0`. Seventeen
digits always suffice. -/
def shortest (tie : Tie) (x : Binary64) : Decimal :=
  if x.isZero then ⟨0, 0⟩
  else
    let i := x.interval
    match i.firstHit tie 17 (floorLog10 i.value i.unit) with
    | some d => d.stripped 20
    | none => ⟨0, 0⟩

end WireSchema.Binary64
