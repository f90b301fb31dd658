import WireSchema.Calendar.Duration
import WireSchema.Calendar.Partial
import WireSchema.Calendar.PlainText
import WireSchema.Calendar.Rfc3339
import WireSchema.Schema.Kind

/-!
Date and time values of the eight kinds. Each kind has one written form; reading accepts some
more.
-/

set_option autoImplicit false

namespace WireSchema.Calendar

/-- A moment and the name of the zone in which it was observed. The name is kept, not looked up. -/
structure Zoned where
  moment : OffsetDateTime
  zone : String
deriving DecidableEq

namespace Zoned

/-- A zone name in brackets at the end of a text, and what stands before it. The name is not empty
and has no bracket in it. -/
def splitZone? (cs : List Char) : Option (List Char × List Char) :=
  match cs.reverse with
  | ']' :: rest =>
    let (zone, before) := rest.span fun c => c ≠ '[' ∧ c ≠ ']'
    match before with
    | '[' :: moment => if zone = [] then none else some (moment.reverse, zone.reverse)
    | _ => none
  | _ => none

def read? (cs : List Char) : Option Zoned := do
  let (moment, zone) ← splitZone? cs
  let moment ← readRfc3339? moment
  return ⟨moment, String.ofList zone⟩

def text (z : Zoned) : List Char :=
  rfc3339 .auto false z.moment ++ '[' :: z.zone.toList ++ [']']

end Zoned

inductive Temporal where
  | duration (d : Duration)
  | instant (t : DateTime)
  | plainDateTime (t : DateTime)
  | plainDate (d : Date)
  | plainMonthDay (d : MonthDay)
  | plainTime (t : TimeOfDay)
  | plainYearMonth (m : YearMonth)
  | zonedDateTime (z : Zoned)
deriving DecidableEq

namespace Temporal

def kind : Temporal → TemporalKind
  | .duration _ => .duration
  | .instant _ => .instant
  | .plainDateTime _ => .plainDateTime
  | .plainDate _ => .plainDate
  | .plainMonthDay _ => .plainMonthDay
  | .plainTime _ => .plainTime
  | .plainYearMonth _ => .plainYearMonth
  | .zonedDateTime _ => .zonedDateTime

def read? (kind : TemporalKind) (cs : List Char) : Option Temporal :=
  match kind with
  | .duration => (Duration.read? cs).map .duration
  | .instant => (readRfc3339? cs).map fun t => .instant t.utc
  | .plainDateTime => (readDateTime? cs).map .plainDateTime
  | .plainDate => (readDate? cs).map .plainDate
  | .plainMonthDay => (MonthDay.read? cs).map .plainMonthDay
  | .plainTime => (readTime? cs).map .plainTime
  | .plainYearMonth => (YearMonth.read? cs).map .plainYearMonth
  | .zonedDateTime => (Zoned.read? cs).map .zonedDateTime

def text (t : Temporal) : String :=
  String.ofList <|
    match t with
    | .duration d => d.text
    | .instant t => rfc3339 .auto true ⟨t, 0⟩
    | .plainDateTime t => dateTimeText t
    | .plainDate d => dateText d
    | .plainMonthDay d => d.text
    | .plainTime t => timeText t
    | .plainYearMonth m => m.text
    | .zonedDateTime z => z.text

/-- Equality of values; moments observed at different offsets are equal if they are the same
moment, in zones of the same name. -/
def equal : Temporal → Temporal → Bool
  | .zonedDateTime a, .zonedDateTime b => a.moment.utc == b.moment.utc && a.zone == b.zone
  | a, b => a == b

end Temporal

/-- The text of a date with its time of day in universal time, to the millisecond. -/
def isoText (t : DateTime) : String :=
  String.ofList (rfc3339 .millis true ⟨t, 0⟩)

end WireSchema.Calendar
