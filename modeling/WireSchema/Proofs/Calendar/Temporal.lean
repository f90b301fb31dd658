import Mathlib.Data.List.TakeDrop
import WireSchema.Calendar.Temporal
import WireSchema.Proofs.Calendar.Duration
import WireSchema.Proofs.Calendar.PlainText

/-!
Date and time values of every kind are read back from their texts.
-/

set_option autoImplicit false

namespace WireSchema.Calendar

open WireSchema.Text

def IsZone (zone : List Char) : Prop :=
  zone ≠ [] ∧ ∀ c ∈ zone, c ≠ '[' ∧ c ≠ ']'

theorem Zoned.splitZone_append {zone : List Char} (named : IsZone zone) (moment : List Char) :
    splitZone? (moment ++ '[' :: zone ++ [']']) = some (moment, zone) := by
  have reversed : (moment ++ '[' :: zone ++ [']']).reverse =
      ']' :: (zone.reverse ++ '[' :: moment.reverse) := by
    simp
  have cut : (zone.reverse ++ '[' :: moment.reverse).span (fun c => c ≠ '[' ∧ c ≠ ']') =
      (zone.reverse, '[' :: moment.reverse) := by
    have every : ∀ c ∈ zone.reverse, decide (c ≠ '[' ∧ c ≠ ']') = true := fun c member =>
      decide_eq_true (named.2 c (List.mem_reverse.mp member))
    rw [List.span_eq_takeWhile_dropWhile, List.takeWhile_append_of_pos every,
      List.dropWhile_append_of_pos every]
    simp
  have there : zone.reverse ≠ [] := by simpa using named.1
  unfold splitZone?
  simp only [reversed, cut, if_neg there, List.reverse_reverse]

/-- A moment in a zone that can be read: the date on the observer's clock is in range. -/
structure Zoned.Valid (z : Zoned) : Prop where
  observable : Observable z.moment
  named : IsZone z.zone.toList

theorem OffsetDateTime.cut_auto (t : OffsetDateTime) : t.cut .auto = t := rfl

theorem Zoned.read_text {z : Zoned} (valid : z.Valid) : read? z.text = some z := by
  have split := splitZone_append valid.named (rfc3339 .auto false z.moment)
  have moment := readRfc3339_rfc3339 .auto false valid.observable
  rw [OffsetDateTime.cut_auto] at moment
  simp only [read?, Zoned.text, split, moment, Option.bind_eq_bind, Option.bind_some,
    String.ofList_toList]
  rfl

def Temporal.Valid : Temporal → Prop
  | .duration d => d.Valid
  | .instant t => t.isMoment = true
  | .plainDateTime t => t.date.inRange = true
  | .plainDate d => d.inRange = true
  | .plainMonthDay d => d.Valid
  | .plainTime _ => True
  | .plainYearMonth m => m.Valid
  | .zonedDateTime z => z.Valid

theorem Temporal.read_text {t : Temporal} (valid : t.Valid) :
    read? t.kind t.text.toList = some t := by
  unfold Temporal.text
  rw [String.toList_ofList]
  cases t with
  | duration d => exact congrArg (Option.map duration) (Duration.read_text valid)
  | instant t =>
    have moment := readRfc3339_rfc3339 .auto true (observable_utc valid)
    rw [OffsetDateTime.cut_auto] at moment
    simp only [read?, kind, moment, Option.map_some]
  | plainDateTime t => exact congrArg (Option.map plainDateTime) (readDateTime_dateTimeText valid)
  | plainDate d => exact congrArg (Option.map plainDate) (readDate_dateText valid)
  | plainMonthDay d => exact congrArg (Option.map plainMonthDay) (MonthDay.read_text valid)
  | plainTime t => exact congrArg (Option.map plainTime) (readTime_timeText t)
  | plainYearMonth m => exact congrArg (Option.map plainYearMonth) (YearMonth.read_text valid)
  | zonedDateTime z => exact congrArg (Option.map zonedDateTime) (Zoned.read_text valid)

end WireSchema.Calendar
