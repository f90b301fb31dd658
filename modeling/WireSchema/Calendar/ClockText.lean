import WireSchema.Calendar.DateTime
import WireSchema.Text.Digits

/-!
The pieces that all date and time texts share: years with and without sign, second fractions,
and how a second and its nanoseconds are written.
-/

set_option autoImplicit false

namespace WireSchema.Calendar

open WireSchema.Text

/-- How many digits of the second's fraction are written. `auto` takes the fewest of 0, 3, 6
and 9 that lose nothing. -/
inductive Precision where
  | seconds
  | millis
  | micros
  | nanos
  | auto
deriving DecidableEq

def fractionText (precision : Precision) (nano : Nat) : List Char :=
  match precision with
  | .seconds => []
  | .millis => '.' :: padded 3 (nano / 1000000)
  | .micros => '.' :: padded 6 (nano / 1000)
  | .nanos => '.' :: padded 9 nano
  | .auto =>
    if nano = 0 then []
    else if nano % 1000000 = 0 then '.' :: padded 3 (nano / 1000000)
    else if nano % 1000 = 0 then '.' :: padded 6 (nano / 1000)
    else '.' :: padded 9 nano

/-- Hours, minutes, seconds and fraction. A leap second is written as second 60. -/
def clockText (precision : Precision) (second nano : Nat) : List Char :=
  padded 2 (second / 3600) ++ ':' :: padded 2 (second / 60 % 60) ++
    ':' :: padded 2 (second % 60 + nano / billion) ++ fractionText precision (nano % billion)

/-- A year from 0 to 9999 in four digits; any other with its sign and at least `width` digits. -/
def yearText (width : Nat) (year : Int) : List Char :=
  if 0 ≤ year ∧ year ≤ 9999 then padded 4 year.toNat
  else (if year < 0 then '-' else '+') :: padded width year.natAbs

/-- The nanoseconds that digits after the point stand for; digits past the ninth do not count. -/
def fractionNanos (ds : List Char) : Nat :=
  let kept := ds.take 9
  ofDigits kept * Nat.pow 10 (9 - kept.length)

def readFraction? : List Char → Option (Nat × List Char)
  | '.' :: rest =>
    let (ds, rest) := spanDigits rest
    if ds = [] then none else some (fractionNanos ds, rest)
  | rest => some (0, rest)

def timeOf? (hour minute second fraction : Nat) : Option TimeOfDay :=
  if hour < 24 ∧ minute < 60 ∧ second ≤ 60 then
    if second = 60 then TimeOfDay.of? (hour * 3600 + minute * 60 + 59) (billion + fraction)
    else TimeOfDay.of? (hour * 3600 + minute * 60 + second) fraction
  else none

/-- A year of four digits, or of six with a sign in front. -/
def readFixedYear? : List Char → Option (Int × List Char)
  | '+' :: rest => (takeNat? 6 rest).map fun (n, more) => ((n : Int), more)
  | '-' :: rest => (takeNat? 6 rest).map fun (n, more) => (-(n : Int), more)
  | rest => (takeNat? 4 rest).map fun (n, more) => ((n : Int), more)

end WireSchema.Calendar
