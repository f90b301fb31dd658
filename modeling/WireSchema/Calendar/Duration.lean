import WireSchema.Text.Digits

/-!
Signed calendar durations, `P1Y2M3W4DT5H6M7.5S`. The counts are kept as they were written and
nothing is carried from one to the next.
-/

set_option autoImplicit false

namespace WireSchema.Calendar

open WireSchema.Text

structure Duration where
  negative : Bool
  years : Nat
  months : Nat
  weeks : Nat
  days : Nat
  hours : Nat
  minutes : Nat
  seconds : Nat
  nanos : Nat
deriving DecidableEq

namespace Duration

/-- A count must be below this, `2 ^ 64`. -/
def countBound : Nat := 18446744073709551616

def hasTime (d : Duration) : Bool :=
  d.hours != 0 || d.minutes != 0 || d.seconds != 0 || d.nanos != 0

def isZero (d : Duration) : Bool :=
  d.years == 0 && d.months == 0 && d.weeks == 0 && d.days == 0 && !d.hasTime

/-- Digits and the letter of a unit, if they come next. The outer option is empty if the count
is too large, the inner one if there is no such component. -/
def readCount? (unit : Char) (cs : List Char) : Option (Option Nat × List Char) :=
  match spanDigits cs with
  | ([], _) => some (none, cs)
  | (ds, c :: rest) =>
    if c = unit then
      if ofDigits ds < countBound then some (some (ofDigits ds), rest) else none
    else some (none, cs)
  | (_, []) => some (none, cs)

/-- Seconds with an optional fraction of one to nine digits after a point or a comma, up to the
end of the text. -/
def readSeconds? (cs : List Char) : Option (Option (Nat × Nat)) :=
  match spanDigits cs with
  | ([], []) => some none
  | ([], _) => none
  | (ds, rest) =>
    if countBound ≤ ofDigits ds then none
    else
      match rest with
      | ['S'] => some (some (ofDigits ds, 0))
      | mark :: rest =>
        if mark = '.' ∨ mark = ',' then
          let (part, rest) := spanDigits rest
          if part ≠ [] ∧ part.length ≤ 9 ∧ rest = ['S'] then
            some (some (ofDigits ds, ofDigits part * Nat.pow 10 (9 - part.length)))
          else none
        else none
      | [] => none

/-- A duration in which a sign counts only if something is not zero. -/
def signed (negative : Bool) (d : Duration) : Duration :=
  { d with negative := negative && !d.isZero }

def readCounts? (negative : Bool) (cs : List Char) : Option Duration := do
  let (years, cs) ← readCount? 'Y' cs
  let (months, cs) ← readCount? 'M' cs
  let (weeks, cs) ← readCount? 'W' cs
  let (days, cs) ← readCount? 'D' cs
  let date : Duration :=
    ⟨false, years.getD 0, months.getD 0, weeks.getD 0, days.getD 0, 0, 0, 0, 0⟩
  match cs with
  | [] =>
    if years.isSome || months.isSome || weeks.isSome || days.isSome then
      some (date.signed negative)
    else none
  | 'T' :: cs => do
    let (hours, cs) ← readCount? 'H' cs
    let (minutes, cs) ← readCount? 'M' cs
    let seconds ← readSeconds? cs
    if hours.isSome || minutes.isSome || seconds.isSome then
      let (whole, nanos) := seconds.getD (0, 0)
      let d := { date with
        hours := hours.getD 0, minutes := minutes.getD 0, seconds := whole, nanos := nanos }
      some (d.signed negative)
    else none
  | _ => none

/-- A duration: an optional sign, `P`, and at least one component, in the order of the units; at
least one stands after a `T`. -/
def read? (cs : List Char) : Option Duration :=
  match cs with
  | '-' :: 'P' :: rest => readCounts? true rest
  | '+' :: 'P' :: rest => readCounts? false rest
  | 'P' :: rest => readCounts? false rest
  | _ => none

def countText (n : Nat) (unit : Char) : List Char :=
  if n = 0 then [] else digits n ++ [unit]

def secondsText (seconds nanos : Nat) : List Char :=
  if seconds = 0 ∧ nanos = 0 then []
  else
    digits seconds ++
      (if nanos = 0 then []
       else '.' :: ((padded 9 nanos).reverse.dropWhile (· = '0')).reverse) ++ ['S']

/-- The text of a duration: only the units that are not zero, and `PT0S` for zero. -/
def text (d : Duration) : List Char :=
  if d.isZero then ['P', 'T', '0', 'S']
  else
    (if d.negative then ['-'] else []) ++ 'P' :: countText d.years 'Y' ++
      countText d.months 'M' ++ countText d.weeks 'W' ++ countText d.days 'D' ++
      (if d.hasTime then
        'T' :: countText d.hours 'H' ++ countText d.minutes 'M' ++ secondsText d.seconds d.nanos
       else [])

end Duration

end WireSchema.Calendar
