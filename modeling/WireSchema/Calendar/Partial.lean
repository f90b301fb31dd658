import WireSchema.Calendar.ClockText

/-!
Dates of which a part is left open: a month of a year, and a day of a month in any year.
-/

set_option autoImplicit false

namespace WireSchema.Calendar

open WireSchema.Text

structure YearMonth where
  year : Int
  month : Nat
deriving DecidableEq

structure MonthDay where
  month : Nat
  day : Nat
deriving DecidableEq

/-- A year of four digits or of a sign and six, a dash, and a month of two digits; the month
begins in range. -/
def YearMonth.read? (cs : List Char) : Option YearMonth := do
  let (year, cs) ← readFixedYear? cs
  let cs ← dropChar? '-' cs
  let (month, cs) ← takeNat? 2 cs
  let first ← Date.of? year month 1
  if cs = [] ∧ first.inRange then some ⟨year, month⟩ else none

def YearMonth.text (m : YearMonth) : List Char :=
  yearText 6 m.year ++ '-' :: padded 2 m.month

/-- A month and a day of two digits each, with or without two dashes in front. The day must
exist in a leap year. -/
def MonthDay.read? (cs : List Char) : Option MonthDay := do
  let cs := match cs with
    | '-' :: '-' :: rest => rest
    | rest => rest
  let (month, cs) ← takeNat? 2 cs
  let cs ← dropChar? '-' cs
  let (day, cs) ← takeNat? 2 cs
  let _ ← Date.of? 1972 month day
  if cs = [] then some ⟨month, day⟩ else none

def MonthDay.text (d : MonthDay) : List Char :=
  padded 2 d.month ++ '-' :: padded 2 d.day

end WireSchema.Calendar
