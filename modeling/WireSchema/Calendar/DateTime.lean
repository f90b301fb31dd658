import WireSchema.Calendar.Date

/-!
Times of day with leap seconds, dates with a time of day, and moments seen from an offset. A leap
second is held as second 59 with a billion nanoseconds or more.
-/

set_option autoImplicit false

namespace WireSchema.Calendar

def daySeconds : Nat := 86400

def billion : Nat := 1000000000

def IsTime (second nano : Nat) : Prop :=
  second < daySeconds ∧ nano < 2 * billion ∧ (billion ≤ nano → second % 60 = 59)

instance (second nano : Nat) : Decidable (IsTime second nano) :=
  inferInstanceAs (Decidable (_ ∧ _))

structure TimeOfDay where
  second : Nat
  nano : Nat
  isTime : IsTime second nano
deriving DecidableEq

def TimeOfDay.of? (second nano : Nat) : Option TimeOfDay :=
  if h : IsTime second nano then some ⟨second, nano, h⟩ else none

structure DateTime where
  date : Date
  time : TimeOfDay
deriving DecidableEq

namespace DateTime

/-- Date and second of the day when `offset` seconds are added, for offsets of less than a day. -/
def shift (date : Date) (second : Nat) (offset : Int) : Date × Nat :=
  let s := second + offset
  if s < 0 then (date.previous, (s + daySeconds).toNat)
  else if s < daySeconds then (date, s.toNat)
  else (date.next, (s - daySeconds).toNat)

/-- Seconds from the start of 1970, leap seconds not counted. -/
def unixSeconds (t : DateTime) : Int :=
  t.date.dayNumber * daySeconds + t.time.second

def ofUnix? (seconds : Int) (nano : Nat) : Option DateTime := do
  let date ← Date.ofDayNumber? (seconds.fdiv daySeconds)
  let time ← TimeOfDay.of? (seconds.fmod daySeconds).toNat nano
  return ⟨date, time⟩

/-- The moment is one that values may hold: its year is in range, and it is not the leap second
at the very end. -/
def isMoment (t : DateTime) : Bool :=
  t.date.inRange &&
    !(t.date.year == lastYear && t.date.month == 12 && t.date.day == 31 &&
      t.time.second + 1 == daySeconds && billion ≤ t.time.nano)

end DateTime

/-- A moment, held in universal time, together with the offset in seconds, east positive, at
which it was observed. -/
structure OffsetDateTime where
  utc : DateTime
  offset : Int
deriving DecidableEq

namespace OffsetDateTime

/-- Date and second of the day on the observer's clock. -/
def wallClock (t : OffsetDateTime) : Date × Nat :=
  DateTime.shift t.utc.date t.utc.time.second t.offset

def ofWallClock? (clock : DateTime) (offset : Int) : Option OffsetDateTime :=
  let (date, second) := DateTime.shift clock.date clock.time.second (-offset)
  (TimeOfDay.of? second clock.time.nano).map fun time => ⟨⟨date, time⟩, offset⟩

end OffsetDateTime

end WireSchema.Calendar
