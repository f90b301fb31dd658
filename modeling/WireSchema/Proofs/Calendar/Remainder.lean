import WireSchema.Calendar.Rfc3339
import WireSchema.Proofs.Calendar.ClockText

/-!
What follows the year of an internet date-time: how its fields are spelled, when there is such a day
and time in a year, and which moment shows them on the observer's clock. What is read in a year is
exactly what is spelled and valid in that year.
-/

set_option autoImplicit false

namespace WireSchema.Calendar

open WireSchema.Text

/-- An offset of whole minutes, of less than a day. -/
def IsOffset (offset : Int) : Prop :=
  offset % 60 = 0 ∧ offset.natAbs < 86400

def IsField (ds : List Char) (n : Nat) : Prop :=
  ds.length = 2 ∧ ds.all Char.isDigit = true ∧ ofDigits ds = n

theorem takeNat_eq_some_iff_field {n : Nat} {cs rest : List Char} :
    takeNat? 2 cs = some (n, rest) ↔ ∃ ds, IsField ds n ∧ cs = ds ++ rest := by
  rw [takeNat_eq_some]
  constructor
  · rintro ⟨ds, rfl, field⟩
    exact ⟨ds, field, rfl⟩
  · rintro ⟨ds, field, rfl⟩
    exact ⟨ds, rfl, field⟩

theorem IsField.take {ds : List Char} {n : Nat} (field : IsField ds n) (rest : List Char) :
    takeNat? 2 (ds ++ rest) = some (n, rest) :=
  takeNat_eq_some_iff_field.mpr ⟨ds, field, rfl⟩

theorem isField_padded {n : Nat} (small : n < 10 ^ 2) : IsField (padded 2 n) n :=
  ⟨length_padded (by decide) small, all_padded 2 n, ofDigits_padded 2 n⟩

inductive SpellsOffset : List Char → Int → Prop where
  | zulu {letter : Char} : letter = 'Z' ∨ letter = 'z' → SpellsOffset [letter] 0
  | east {hh mm : List Char} {hours minutes : Nat} : IsField hh hours → IsField mm minutes →
      hours < 24 → minutes < 60 →
      SpellsOffset ('+' :: (hh ++ ':' :: mm)) ((hours : Int) * 3600 + minutes * 60)
  | west {sign : Char} {hh mm : List Char} {hours minutes : Nat} : sign = '-' ∨ sign = '\u2212' →
      IsField hh hours → IsField mm minutes → hours < 24 → minutes < 60 →
      SpellsOffset (sign :: (hh ++ ':' :: mm)) (-((hours : Int) * 3600 + minutes * 60))

theorem SpellsOffset.isOffset {cs : List Char} {offset : Int} (spells : SpellsOffset cs offset) :
    IsOffset offset := by
  cases spells with
  | zulu _ => exact ⟨rfl, by decide⟩
  | east _ _ day hour => exact ⟨by omega, by omega⟩
  | west _ _ _ day hour => exact ⟨by omega, by omega⟩

theorem SpellsOffset.endsNumber {cs : List Char} {offset : Int} (spells : SpellsOffset cs offset) :
    EndsNumber cs := by
  cases spells with
  | zulu letter => rcases letter with rfl | rfl <;> rfl
  | east => rfl
  | west sign => rcases sign with rfl | rfl <;> rfl

private theorem exists_fields_of_signed {negative : Bool} {rest : List Char} {offset : Int}
    (done : (do
      let (hours, rest) ← takeNat? 2 rest
      let rest ← dropChar? ':' rest
      let (minutes, rest) ← takeNat? 2 rest
      if rest = [] ∧ minutes < 60 ∧ hours < 24 then
        let seconds : Int := hours * 3600 + minutes * 60
        some (if negative then -seconds else seconds)
      else none) = some offset) :
    ∃ hh mm hours minutes, IsField hh hours ∧ IsField mm minutes ∧ hours < 24 ∧ minutes < 60 ∧
      rest = hh ++ ':' :: mm ∧
      offset = if negative then -((hours : Int) * 3600 + minutes * 60)
        else (hours : Int) * 3600 + minutes * 60 := by
  obtain ⟨⟨hours, _⟩, hour, done⟩ := Option.bind_eq_some_iff.mp done
  obtain ⟨_, colon, done⟩ := Option.bind_eq_some_iff.mp done
  obtain ⟨⟨minutes, _⟩, minute, done⟩ := Option.bind_eq_some_iff.mp done
  obtain ⟨⟨rfl, sixty, day⟩, same⟩ := Option.ite_none_right_eq_some.mp done
  obtain ⟨hh, hourField, rfl⟩ := takeNat_eq_some_iff_field.mp hour
  obtain rfl := dropChar_eq_some.mp colon
  obtain ⟨mm, minuteField, rfl⟩ := takeNat_eq_some_iff_field.mp minute
  rw [List.append_nil]
  exact ⟨hh, mm, hours, minutes, hourField, minuteField, day, sixty, rfl,
    (Option.some.inj same).symm⟩

theorem readOffset_eq_some_iff {cs : List Char} {offset : Int} :
    readOffset? cs = some offset ↔ SpellsOffset cs offset := by
  constructor
  · intro done
    unfold readOffset? at done
    split at done
    · exact Option.some.inj done ▸ .zulu (.inl rfl)
    · exact Option.some.inj done ▸ .zulu (.inr rfl)
    · dsimp only at done
      split at done
      · next plus =>
        obtain ⟨hh, mm, hours, minutes, hour, minute, day, sixty, rfl, rfl⟩ :=
          exists_fields_of_signed done
        rw [plus]
        exact .east hour minute day sixty
      · split at done
        · next minus =>
          obtain ⟨hh, mm, hours, minutes, hour, minute, day, sixty, rfl, rfl⟩ :=
            exists_fields_of_signed done
          exact .west minus hour minute day sixty
        · simp at done
    · simp at done
  · intro spells
    cases spells with
    | zulu letter =>
      rcases letter with rfl | rfl
      · rfl
      · rfl
    | @east hh mm hours minutes hourField minuteField day sixty =>
      have hour := hourField.take (':' :: mm)
      have minute := minuteField.take []
      rw [List.append_nil] at minute
      obtain ⟨a, b, rfl⟩ := List.length_eq_two.mp hourField.1
      simp only [List.cons_append, List.nil_append] at hour ⊢
      simp [readOffset?, hour, minute, day, sixty]
    | @west sign hh mm hours minutes signed hourField minuteField day sixty =>
      have hour := hourField.take (':' :: mm)
      have minute := minuteField.take []
      rw [List.append_nil] at minute
      obtain ⟨a, b, rfl⟩ := List.length_eq_two.mp hourField.1
      simp only [List.cons_append, List.nil_append] at hour ⊢
      rcases signed with rfl | rfl
      · simp [readOffset?, hour, minute, day, sixty]
      · simp [readOffset?, hour, minute, day, sixty]

/-- The fields of an internet date-time that follow its year. The fraction is in nanoseconds. -/
structure Remainder where
  month : Nat
  day : Nat
  hour : Nat
  minute : Nat
  second : Nat
  fraction : Nat
  offset : Int

inductive Remainder.Spelled : List Char → Remainder → Prop where
  | fields {r : Remainder} {month day hour minute second fraction offset : List Char}
      {separator : Char} : IsField month r.month → IsField day r.day →
      separator = 'T' ∨ separator = 't' ∨ separator = ' ' →
      IsField hour r.hour → IsField minute r.minute → IsField second r.second →
      SpellsFraction fraction r.fraction → SpellsOffset offset r.offset →
      Spelled ('-' :: (month ++ '-' :: (day ++ separator :: (hour ++ ':' :: (minute ++ ':' ::
        (second ++ (fraction ++ offset))))))) r

/-- There is such a day in the year and such a time of day. Second 60 is a leap second. -/
structure Remainder.ValidIn (r : Remainder) (year : Int) : Prop where
  isDate : IsDate year r.month r.day
  hour : r.hour < 24
  minute : r.minute < 60
  second : r.second ≤ 60

/-- The observer's clock shows the fields in the year. A leap second is held as second 59 with a
billion nanoseconds more. -/
structure Remainder.ShownBy (r : Remainder) (year : Int) (t : OffsetDateTime) : Prop where
  year : t.wallClock.1.year = year
  month : t.wallClock.1.month = r.month
  day : t.wallClock.1.day = r.day
  second : t.wallClock.2 = r.hour * 3600 + r.minute * 60 + min r.second 59
  nano : t.utc.time.nano = (if r.second = 60 then billion else 0) + r.fraction
  offset : t.offset = r.offset

namespace OffsetDateTime

/-- A clock shows a moment exactly if the moment is what is read off it. -/
theorem ofWallClock_eq_some_iff {clock : DateTime} {offset : Int} {t : OffsetDateTime}
    (small : offset.natAbs < 86400) :
    ofWallClock? clock offset = some t ↔
      t.wallClock = (clock.date, clock.time.second) ∧ t.utc.time.nano = clock.time.nano ∧
        t.offset = offset := by
  unfold ofWallClock?
  constructor
  · intro done
    obtain ⟨time, found, rfl⟩ := Option.map_eq_some_iff.mp done
    obtain ⟨second, nano⟩ := TimeOfDay.of?_eq_some_iff.mp found
    have back : DateTime.shift (DateTime.shift clock.date clock.time.second (-offset)).1
        (DateTime.shift clock.date clock.time.second (-offset)).2 (- -offset) =
          (clock.date, clock.time.second) :=
      DateTime.shift_shift_neg clock.time.second_lt (by rwa [Int.natAbs_neg])
    rw [Int.neg_neg] at back
    refine ⟨?_, nano, rfl⟩
    show DateTime.shift _ time.second offset = _
    rw [second]
    exact back
  · rintro ⟨shown, nano, rfl⟩
    have back : DateTime.shift (DateTime.shift t.utc.date t.utc.time.second t.offset).1
        (DateTime.shift t.utc.date t.utc.time.second t.offset).2 (-t.offset) =
          (t.utc.date, t.utc.time.second) :=
      DateTime.shift_shift_neg t.utc.time.second_lt small
    have shown : DateTime.shift t.utc.date t.utc.time.second t.offset =
      (clock.date, clock.time.second) := shown
    rw [shown] at back
    rw [back]
    exact Option.map_eq_some_iff.mpr
      ⟨t.utc.time, TimeOfDay.of?_eq_some_iff.mpr ⟨rfl, nano⟩, rfl⟩

/-- The time of day on the observer's clock. An offset of whole minutes leaves the second hand where
it is, so that a leap second stays one. -/
def clockTime (t : OffsetDateTime) (valid : IsOffset t.offset) : TimeOfDay where
  second := t.wallClock.2
  nano := t.utc.time.nano
  isTime := by
    obtain ⟨-, bounded, leap⟩ := t.utc.time.isTime
    exact ⟨DateTime.shift_second_lt t.utc.time.second_lt valid.2, bounded,
      fun late => (DateTime.shift_second_mod valid.1 valid.2).trans (leap late)⟩

theorem exists_ofWallClock (clock : DateTime) {offset : Int} (valid : IsOffset offset) :
    ∃ t, ofWallClock? clock offset = some t := by
  have inDay : (DateTime.shift clock.date clock.time.second (-offset)).2 < 86400 :=
    DateTime.shift_second_lt clock.time.second_lt (by rw [Int.natAbs_neg]; exact valid.2)
  have hand : (DateTime.shift clock.date clock.time.second (-offset)).2 % 60 =
      clock.time.second % 60 :=
    DateTime.shift_second_mod (by have := valid.1; omega) (by rw [Int.natAbs_neg]; exact valid.2)
  obtain ⟨-, bounded, leap⟩ := clock.time.isTime
  have isTime : IsTime (DateTime.shift clock.date clock.time.second (-offset)).2
      clock.time.nano := ⟨inDay, bounded, fun late => hand.trans (leap late)⟩
  exact ⟨_, Option.map_eq_some_iff.mpr ⟨⟨_, _, isTime⟩, TimeOfDay.of?_eq_some_iff.mpr ⟨rfl, rfl⟩, rfl⟩⟩

end OffsetDateTime

namespace Remainder

variable {year : Int} {cs : List Char} {r : Remainder} {t : OffsetDateTime}

theorem Spelled.isOffset (spelled : Spelled cs r) : IsOffset r.offset := by
  cases spelled with
  | fields _ _ _ _ _ _ _ offset => exact offset.isOffset

theorem Spelled.fraction_lt (spelled : Spelled cs r) : r.fraction < billion := by
  cases spelled with
  | fields _ _ _ _ _ _ fraction _ => exact fraction.lt

structure ClockIn (r : Remainder) (year : Int) (clock : DateTime) : Prop where
  date : Date.of? year r.month r.day = some clock.date
  time : timeOf? r.hour r.minute r.second r.fraction = some clock.time

theorem ClockIn.validIn {clock : DateTime} (given : r.ClockIn year clock) : r.ValidIn year := by
  obtain ⟨sameYear, month, day⟩ := Date.eq_of_of? given.date
  obtain ⟨⟨hour, minute, second⟩, -⟩ := timeOf_eq_some_iff.mp given.time
  have isDate := clock.date.isDate
  rw [sameYear, month, day] at isDate
  exact ⟨isDate, hour, minute, second⟩

theorem ValidIn.exists_clock (valid : r.ValidIn year) (small : r.fraction < billion) :
    ∃ clock, r.ClockIn year clock := by
  obtain ⟨isDate, hour, minute, second⟩ := valid
  have small : r.fraction < 1000000000 := small
  have isTime : IsTime (r.hour * 3600 + r.minute * 60 + min r.second 59)
      ((if r.second = 60 then billion else 0) + r.fraction) := by
    refine ⟨by show _ < 86400; omega, ?_, ?_⟩
    · show _ < 2 * 1000000000
      split
      · show 1000000000 + r.fraction < 2 * 1000000000
        omega
      · omega
    · split
      · omega
      · intro late
        have late : 1000000000 ≤ 0 + r.fraction := late
        omega
  exact ⟨⟨⟨_, _, _, isDate⟩, ⟨_, _, isTime⟩⟩, dif_pos isDate,
    timeOf_eq_some_iff.mpr ⟨⟨hour, minute, second⟩, rfl, rfl⟩⟩

theorem ClockIn.read_iff_shownBy {clock : DateTime} (given : r.ClockIn year clock)
    (valid : IsOffset r.offset) :
    OffsetDateTime.ofWallClock? clock r.offset = some t ↔ r.ShownBy year t := by
  obtain ⟨sameYear, month, day⟩ := Date.eq_of_of? given.date
  obtain ⟨-, second, nano⟩ := timeOf_eq_some_iff.mp given.time
  rw [OffsetDateTime.ofWallClock_eq_some_iff valid.2]
  constructor
  · rintro ⟨shown, sameNano, offset⟩
    exact ⟨by rw [shown]; exact sameYear, by rw [shown]; exact month, by rw [shown]; exact day,
      by rw [shown]; exact second, sameNano.trans nano, offset⟩
  · intro shown
    refine ⟨Prod.ext ?_ (shown.second.trans second.symm), shown.nano.trans nano.symm, shown.offset⟩
    exact Date.ext_fields (shown.year.trans sameYear.symm) (shown.month.trans month.symm)
      (shown.day.trans day.symm)

theorem ValidIn.existsUnique_shownBy (valid : r.ValidIn year) (small : r.fraction < billion)
    (offset : IsOffset r.offset) : ∃! t, r.ShownBy year t := by
  obtain ⟨clock, given⟩ := valid.exists_clock small
  obtain ⟨t, found⟩ := OffsetDateTime.exists_ofWallClock clock offset
  refine ⟨t, (given.read_iff_shownBy offset).mp found, fun u shown => ?_⟩
  have again := (given.read_iff_shownBy offset).mpr shown
  exact Option.some.inj (again.symm.trans found)

end Remainder

section AfterYear

variable {year : Int} {cs : List Char} {t : OffsetDateTime}

theorem exists_remainder_of_readAfterYear (done : readAfterYear? year cs = some t) :
    ∃ r, Remainder.Spelled cs r ∧ r.ValidIn year ∧ r.ShownBy year t := by
  unfold readAfterYear? at done
  obtain ⟨_, dash, done⟩ := Option.bind_eq_some_iff.mp done
  obtain ⟨⟨month, _⟩, months, done⟩ := Option.bind_eq_some_iff.mp done
  obtain ⟨_, dash', done⟩ := Option.bind_eq_some_iff.mp done
  obtain ⟨⟨day, _⟩, days, done⟩ := Option.bind_eq_some_iff.mp done
  obtain ⟨date, dated, done⟩ := Option.bind_eq_some_iff.mp done
  dsimp only at done
  split at done
  · simp at done
  obtain ⟨separates, done⟩ := Option.ite_none_right_eq_some.mp done
  obtain ⟨⟨hour, _⟩, hours, done⟩ := Option.bind_eq_some_iff.mp done
  obtain ⟨_, colon, done⟩ := Option.bind_eq_some_iff.mp done
  obtain ⟨⟨minute, _⟩, minutes, done⟩ := Option.bind_eq_some_iff.mp done
  obtain ⟨_, colon', done⟩ := Option.bind_eq_some_iff.mp done
  obtain ⟨⟨second, _⟩, seconds, done⟩ := Option.bind_eq_some_iff.mp done
  obtain ⟨⟨fraction, _⟩, part, done⟩ := Option.bind_eq_some_iff.mp done
  obtain ⟨time, timed, done⟩ := Option.bind_eq_some_iff.mp done
  obtain ⟨offset, shifted, clock⟩ := Option.bind_eq_some_iff.mp done
  -- Every step names the piece that it read, and what is left is the text of the next step.
  obtain rfl := dropChar_eq_some.mp dash
  obtain ⟨_, monthField, rfl⟩ := takeNat_eq_some_iff_field.mp months
  obtain rfl := dropChar_eq_some.mp dash'
  obtain ⟨_, dayField, rfl⟩ := takeNat_eq_some_iff_field.mp days
  obtain ⟨_, hourField, rfl⟩ := takeNat_eq_some_iff_field.mp hours
  obtain rfl := dropChar_eq_some.mp colon
  obtain ⟨_, minuteField, rfl⟩ := takeNat_eq_some_iff_field.mp minutes
  obtain rfl := dropChar_eq_some.mp colon'
  obtain ⟨_, secondField, rfl⟩ := takeNat_eq_some_iff_field.mp seconds
  obtain ⟨_, fractionText, rfl⟩ := exists_spellsFraction part
  have offsetText := readOffset_eq_some_iff.mp shifted
  have given : Remainder.ClockIn ⟨month, day, hour, minute, second, fraction, offset⟩ year
      ⟨date, time⟩ := ⟨dated, timed⟩
  exact ⟨_, .fields monthField dayField separates hourField minuteField secondField fractionText
    offsetText, given.validIn, (given.read_iff_shownBy offsetText.isOffset).mp clock⟩

theorem Remainder.Spelled.readAfterYear {r : Remainder} (spelled : Spelled cs r)
    (valid : r.ValidIn year) (shown : r.ShownBy year t) : readAfterYear? year cs = some t := by
  obtain ⟨clock, given⟩ := valid.exists_clock spelled.fraction_lt
  have found := (given.read_iff_shownBy spelled.isOffset).mpr shown
  cases spelled with
  | fields month day separates hour minute second fraction offset =>
    unfold readAfterYear?
    refine (bind_of_eq_some (dropChar_self _ _) _).trans ?_
    refine (bind_of_eq_some (month.take _) _).trans ?_
    refine (bind_of_eq_some (dropChar_self _ _) _).trans ?_
    refine (bind_of_eq_some (day.take _) _).trans ?_
    refine (bind_of_eq_some given.date _).trans ?_
    refine (if_pos separates).trans ?_
    refine (bind_of_eq_some (hour.take _) _).trans ?_
    refine (bind_of_eq_some (dropChar_self _ _) _).trans ?_
    refine (bind_of_eq_some (minute.take _) _).trans ?_
    refine (bind_of_eq_some (dropChar_self _ _) _).trans ?_
    refine (bind_of_eq_some (second.take _) _).trans ?_
    refine (bind_of_eq_some (fraction.read offset.endsNumber) _).trans ?_
    refine (bind_of_eq_some given.time _).trans ?_
    exact (bind_of_eq_some (readOffset_eq_some_iff.mpr offset) _).trans found

/-- What is read after a year is the moment that shows the fields that are spelled there, if they are
valid in that year. -/
theorem readAfterYear_eq_some_iff :
    readAfterYear? year cs = some t ↔
      ∃ r, Remainder.Spelled cs r ∧ r.ValidIn year ∧ r.ShownBy year t := by
  constructor
  · exact exists_remainder_of_readAfterYear
  · rintro ⟨r, spelled, valid, shown⟩
    exact spelled.readAfterYear valid shown

end AfterYear

end WireSchema.Calendar
