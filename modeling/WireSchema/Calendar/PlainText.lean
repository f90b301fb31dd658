import WireSchema.Calendar.ClockText
import WireSchema.Text.Blank

/-!
Dates and times without an offset. Reading is lenient about the number of digits and about blanks
in front of a number; writing has one form.
-/

set_option autoImplicit false

namespace WireSchema.Calendar

open WireSchema.Text

/-- Blanks, then one to `most` digits. -/
def readField? (most : Nat) (cs : List Char) : Option (Nat × List Char) :=
  let cs := trimStart cs
  let ds := (cs.take most).takeWhile Char.isDigit
  if ds = [] then none else some (ofDigits ds, cs.drop ds.length)

/-- Blanks, then a year: one to four digits, or a sign and at least one digit. -/
def readFreeYear? (cs : List Char) : Option (Int × List Char) :=
  match trimStart cs with
  | '-' :: rest =>
    let (ds, rest) := spanDigits rest
    if ds = [] then none else some (-(ofDigits ds : Int), rest)
  | '+' :: rest =>
    let (ds, rest) := spanDigits rest
    if ds = [] then none else some ((ofDigits ds : Int), rest)
  | rest => (readField? 4 rest).map fun (n, more) => ((n : Int), more)

def readDatePart? (cs : List Char) : Option (Date × List Char) := do
  let (year, cs) ← readFreeYear? cs
  let cs ← dropChar? '-' cs
  let (month, cs) ← readField? 2 cs
  let cs ← dropChar? '-' cs
  let (day, cs) ← readField? 2 cs
  let date ← Date.of? year month day
  if date.inRange then some (date, cs) else none

/-- Hour and minute up to the end of the text, with or without seconds and their fraction. -/
def readTimePart? (cs : List Char) : Option TimeOfDay := do
  let (hour, cs) ← readField? 2 cs
  let cs ← dropChar? ':' cs
  let (minute, cs) ← readField? 2 cs
  match cs with
  | [] => timeOf? hour minute 0 0
  | ':' :: cs =>
    let (second, cs) ← readField? 2 cs
    let (fraction, cs) ← readFraction? cs
    if cs = [] then timeOf? hour minute second fraction else none
  | _ => none

def readDate? (cs : List Char) : Option Date := do
  let (date, cs) ← readDatePart? cs
  if cs = [] then some date else none

def readTime? (cs : List Char) : Option TimeOfDay :=
  readTimePart? cs

def readDateTime? (cs : List Char) : Option DateTime := do
  let (date, cs) ← readDatePart? cs
  let cs ← dropChar? 'T' cs
  let time ← readTimePart? cs
  return ⟨date, time⟩

def dateText (d : Date) : List Char :=
  yearText 4 d.year ++ '-' :: padded 2 d.month ++ '-' :: padded 2 d.day

def timeText (t : TimeOfDay) : List Char :=
  clockText .auto t.second t.nano

def dateTimeText (t : DateTime) : List Char :=
  dateText t.date ++ 'T' :: timeText t.time

end WireSchema.Calendar
