import WireSchema.Calendar.ClockText

/-!
Internet date-times, `2024-01-02T03:04:05.678+01:00`, over the whole range of years: outside
0000 to 9999 the year has a sign and six digits. Internet date-times proper have four digits; the
others are read with another year in its place, which is put right afterwards, and written with the
year rewritten. The year is that of the observer's clock.
-/

set_option autoImplicit false

namespace WireSchema.Calendar

open WireSchema.Text

/-- An offset at the end of a text: `Z`, or a sign, two digits, a colon and two digits, of less
than a day. -/
def readOffset? : List Char → Option Int
  | ['Z'] => some 0
  | ['z'] => some 0
  | sign :: rest => do
    let negative ← if sign = '+' then some false
      else if sign = '-' ∨ sign = '\u2212' then some true else none
    let (hours, rest) ← takeNat? 2 rest
    let rest ← dropChar? ':' rest
    let (minutes, rest) ← takeNat? 2 rest
    if rest = [] ∧ minutes < 60 ∧ hours < 24 then
      let seconds : Int := hours * 3600 + minutes * 60
      some (if negative then -seconds else seconds)
    else none
  | [] => none

def readAfterYear? (year : Int) (cs : List Char) : Option OffsetDateTime := do
  let cs ← dropChar? '-' cs
  let (month, cs) ← takeNat? 2 cs
  let cs ← dropChar? '-' cs
  let (day, cs) ← takeNat? 2 cs
  let date ← Date.of? year month day
  match cs with
  | [] => none
  | separator :: cs =>
    if separator = 'T' ∨ separator = 't' ∨ separator = ' ' then
      let (hour, cs) ← takeNat? 2 cs
      let cs ← dropChar? ':' cs
      let (minute, cs) ← takeNat? 2 cs
      let cs ← dropChar? ':' cs
      let (second, cs) ← takeNat? 2 cs
      let (fraction, cs) ← readFraction? cs
      let time ← timeOf? hour minute second fraction
      let offset ← readOffset? cs
      OffsetDateTime.ofWallClock? ⟨date, time⟩ offset
    else none

def readShortYear? (cs : List Char) : Option OffsetDateTime := do
  let (year, rest) ← takeNat? 4 cs
  readAfterYear? year rest

/-- The moment at which the same observer's clock shows the same day and time of another year. That
day must exist, and the year and the moment must be in range. -/
def OffsetDateTime.withYear? (year : Int) (t : OffsetDateTime) : Option OffsetDateTime := do
  let (date, second) := t.wallClock
  let date ← Date.of? year date.month date.day
  let time ← TimeOfDay.of? second t.utc.time.nano
  let moved ← ofWallClock? ⟨date, time⟩ t.offset
  if date.inRange ∧ moved.utc.isMoment then some moved else none

/-- A year of four digits that has a 29 February if and only if the given year is in range and has
one. -/
def standIn (year : Int) : Nat :=
  if (Date.of? year 2 29).any Date.inRange then 2000 else 2001

/-- A sign, six digits, a dash and something more: the year, and what follows it from the dash on. -/
def splitLongYear? : List Char → Option (Int × List Char)
  | sign :: cs => do
    let negative ← if sign = '+' then some false else if sign = '-' then some true else none
    let (n, rest) ← takeNat? 6 cs
    match rest with
    | '-' :: _ :: _ => some (if negative then -(n : Int) else n, rest)
    | _ => none
  | [] => none

/-- An internet date-time, also with a sign and six digits of a year: it is read in a year that
stands in for that one, and then moved to it. -/
def readRfc3339? (cs : List Char) : Option OffsetDateTime :=
  match splitLongYear? cs with
  | none => readShortYear? cs
  | some (year, rest) =>
    (readShortYear? (padded 4 (standIn year) ++ rest)).bind fun t => t.withYear? year

/-- An offset, rounded to the minute; `Z` for no offset at all, if asked for. -/
def offsetText (zulu : Bool) (offset : Int) : List Char :=
  if zulu ∧ offset = 0 then ['Z']
  else
    let minutes := (offset.natAbs + 30) / 60
    (if offset < 0 then '-' else '+') :: padded 2 (minutes / 60) ++ ':' :: padded 2 (minutes % 60)

/-- The text of a moment on the observer's clock, with no more digits of the year than it has, but
at least four. -/
def shortRfc3339 (precision : Precision) (zulu : Bool) (t : OffsetDateTime) : List Char :=
  let (date, second) := t.wallClock
  yearText 4 date.year ++ '-' :: padded 2 date.month ++ '-' :: padded 2 date.day ++
    'T' :: clockText precision second t.utc.time.nano ++ offsetText zulu t.offset

/-- The text of a moment on the observer's clock. A year with a sign is written anew, with six
digits, in front of the first dash after its sign. -/
def rfc3339 (precision : Precision) (zulu : Bool) (t : OffsetDateTime) : List Char :=
  let text := shortRfc3339 precision zulu t
  let year := t.wallClock.1.year
  if 0 ≤ year ∧ year ≤ 9999 then text
  else
    match (text.drop 1).dropWhile (· ≠ '-') with
    | [] => text
    | rest => yearText 6 year ++ rest

end WireSchema.Calendar
