import WireSchema.Proofs.Calendar.Remainder

/-!
A year with a sign and six digits is read through a year of four digits that stands in for it. Both
years have the same days, so fields are valid in the one if and only if they are valid in the other;
and the moment at which a clock shows them is moved to the moment at which it shows them in the
other year. So the outcome is as if the year had been read at once, with the range checked last.
-/

set_option autoImplicit false

namespace WireSchema.Calendar

open WireSchema.Text

theorem Date.year_next (d : Date) : d.next.year = d.year ∨ d.next.year = d.year + 1 := by
  unfold next
  split
  · exact .inl rfl
  · split
    · exact .inl rfl
    · exact .inr rfl

theorem DateTime.shift_year (date : Date) (second : Nat) (offset : Int) :
    (shift date second offset).1.year ≤ date.year + 1 ∧
      date.year ≤ (shift date second offset).1.year + 1 := by
  have later := date.year_next
  have earlier := date.previous.year_next
  rw [Date.next_previous] at earlier
  unfold shift
  dsimp only
  split
  · dsimp only
    omega
  · split
    · dsimp only
      omega
    · dsimp only
      omega

theorem isMoment_of_year {t : OffsetDateTime} (first : 0 ≤ t.wallClock.1.year)
    (last : t.wallClock.1.year ≤ 9999) : t.utc.isMoment = true := by
  obtain ⟨above, below⟩ := DateTime.shift_year t.utc.date t.utc.time.second t.offset
  have above : t.wallClock.1.year ≤ t.utc.date.year + 1 := above
  have below : t.utc.date.year ≤ t.wallClock.1.year + 1 := below
  have ranged : t.utc.date.inRange = true := by
    rw [inRange_iff, firstYear, lastYear]
    omega
  have early : (t.utc.date.year == lastYear) = false := by
    rw [beq_eq_false_iff_ne, lastYear]
    omega
  rw [DateTime.isMoment, ranged, early]
  rfl

theorem readShortYear_eq_some_iff {cs : List Char} {t : OffsetDateTime} :
    readShortYear? cs = some t ↔ ∃ year rest r, takeNat? 4 cs = some (year, rest) ∧
      Remainder.Spelled rest r ∧ r.ValidIn year ∧ r.ShownBy year t := by
  unfold readShortYear?
  constructor
  · intro done
    obtain ⟨⟨year, rest⟩, front, done⟩ := Option.bind_eq_some_iff.mp done
    obtain ⟨r, fields⟩ := readAfterYear_eq_some_iff.mp done
    exact ⟨year, rest, r, front, fields⟩
  · rintro ⟨year, rest, r, front, fields⟩
    exact Option.bind_eq_some_iff.mpr
      ⟨(year, rest), front, readAfterYear_eq_some_iff.mpr ⟨r, fields⟩⟩

theorem isLeapYear_standIn {year : Int} (first : firstYear ≤ year) (last : year ≤ lastYear) :
    isLeapYear (standIn year) = isLeapYear year := by
  unfold standIn
  cases leap : isLeapYear year with
  | true =>
    have isDate : IsDate year 2 29 := ⟨by decide, by decide, by decide, by simp [daysIn, leap]⟩
    have ranged : Date.inRange ⟨year, 2, 29, isDate⟩ = true := inRange_iff.mpr ⟨first, last⟩
    rw [Date.of?, dif_pos isDate, Option.any_some, ranged]
    rfl
  | false =>
    have missing : ¬ IsDate year 2 29 := fun isDate => by
      have most := isDate.2.2.2
      simp [daysIn, leap] at most
    rw [Date.of?, dif_neg missing, Option.any_none]
    rfl

theorem isDate_standIn {year : Int} (first : firstYear ≤ year) (last : year ≤ lastYear)
    {month day : Nat} : IsDate (standIn year) month day ↔ IsDate year month day := by
  have sameDays : daysIn (standIn year) month = daysIn year month := by
    unfold daysIn
    rw [isLeapYear_standIn first last]
  rw [IsDate, IsDate, sameDays]

namespace Remainder

variable {year other : Int} {r : Remainder} {t u : OffsetDateTime}

theorem validIn_standIn (first : firstYear ≤ year) (last : year ≤ lastYear) :
    r.ValidIn (standIn year) ↔ r.ValidIn year :=
  ⟨fun valid => ⟨(isDate_standIn first last).mp valid.isDate, valid.hour, valid.minute, valid.second⟩,
    fun valid => ⟨(isDate_standIn first last).mpr valid.isDate, valid.hour, valid.minute,
      valid.second⟩⟩

private theorem withYear_eq (t : OffsetDateTime) (year : Int) :
    t.withYear? year = (do
      let date ← Date.of? year t.wallClock.1.month t.wallClock.1.day
      let time ← TimeOfDay.of? t.wallClock.2 t.utc.time.nano
      let moved ← OffsetDateTime.ofWallClock? ⟨date, time⟩ t.offset
      if date.inRange ∧ moved.utc.isMoment then some moved else none) := rfl

/-- A moment that shows the fields in some year is moved to the one that shows them in another, if
they are valid there and all of it is in range. -/
theorem withYear_eq_some_iff (shown : r.ShownBy other t) (valid : r.ValidIn other)
    (small : r.fraction < billion) (offset : IsOffset r.offset) :
    t.withYear? year = some u ↔
      (firstYear ≤ year ∧ year ≤ lastYear) ∧ r.ValidIn year ∧ r.ShownBy year u ∧
        u.utc.isMoment = true := by
  rw [withYear_eq]
  constructor
  · intro done
    obtain ⟨date, dated, done⟩ := Option.bind_eq_some_iff.mp done
    obtain ⟨time, timed, done⟩ := Option.bind_eq_some_iff.mp done
    obtain ⟨moved, found, done⟩ := Option.bind_eq_some_iff.mp done
    obtain ⟨⟨ranged, moment⟩, same⟩ := Option.ite_none_right_eq_some.mp done
    obtain rfl := Option.some.inj same
    -- The clock shows the fields, so its month, day and time are theirs in any year.
    obtain ⟨second, nano⟩ := TimeOfDay.of?_eq_some_iff.mp timed
    rw [shown.month, shown.day] at dated
    have given : r.ClockIn year ⟨date, time⟩ := ⟨dated, timeOf_eq_some_iff.mpr
      ⟨⟨valid.hour, valid.minute, valid.second⟩, second.trans shown.second, nano.trans shown.nano⟩⟩
    rw [shown.offset] at found
    have range := inRange_iff.mp ranged
    rw [(Date.eq_of_of? dated).1] at range
    exact ⟨range, given.validIn, (given.read_iff_shownBy offset).mp found, moment⟩
  · rintro ⟨range, there, shown', moment⟩
    obtain ⟨clock, given⟩ := there.exists_clock small
    obtain ⟨sameYear, -, -⟩ := Date.eq_of_of? given.date
    obtain ⟨-, second, nano⟩ := timeOf_eq_some_iff.mp given.time
    have dated := given.date
    rw [← shown.month, ← shown.day] at dated
    have timed : TimeOfDay.of? t.wallClock.2 t.utc.time.nano = some clock.time :=
      TimeOfDay.of?_eq_some_iff.mpr ⟨second.trans shown.second.symm, nano.trans shown.nano.symm⟩
    have found := (given.read_iff_shownBy offset).mpr shown'
    rw [← shown.offset] at found
    have ranged : clock.date.inRange = true := by
      rw [inRange_iff, sameYear]
      exact range
    refine Option.bind_eq_some_iff.mpr ⟨_, dated, ?_⟩
    refine Option.bind_eq_some_iff.mpr ⟨_, timed, ?_⟩
    exact Option.bind_eq_some_iff.mpr ⟨u, found, if_pos ⟨ranged, moment⟩⟩

/-- Reading in the year that stands in, and moving what was read, is reading in the year itself. -/
theorem readStandIn_eq_some_iff {cs : List Char} :
    ((readShortYear? (padded 4 (standIn year) ++ cs)).bind fun t => t.withYear? year) = some u ↔
      (firstYear ≤ year ∧ year ≤ lastYear) ∧
        ∃ r, Spelled cs r ∧ r.ValidIn year ∧ r.ShownBy year u ∧ u.utc.isMoment = true := by
  have four : standIn year < 10 ^ 4 := by
    unfold standIn
    split
    · decide
    · decide
  have front := takeNat_padded (by decide : 0 < 4) four cs
  rw [Option.bind_eq_some_iff]
  constructor
  · rintro ⟨t, read, moved⟩
    obtain ⟨n, rest, r, front', spelled, valid, shown⟩ := readShortYear_eq_some_iff.mp read
    obtain ⟨rfl, rfl⟩ := Prod.mk.inj (Option.some.inj (front.symm.trans front'))
    obtain ⟨range, outcome⟩ :=
      (withYear_eq_some_iff shown valid spelled.fraction_lt spelled.isOffset).mp moved
    exact ⟨range, r, spelled, outcome⟩
  · rintro ⟨range, r, spelled, valid, shown, moment⟩
    have there := (validIn_standIn range.1 range.2).mpr valid
    obtain ⟨t, shown', -⟩ := there.existsUnique_shownBy spelled.fraction_lt spelled.isOffset
    exact ⟨t, readShortYear_eq_some_iff.mpr ⟨_, cs, r, front, spelled, there, shown'⟩,
      (withYear_eq_some_iff shown' there spelled.fraction_lt spelled.isOffset).mpr
        ⟨range, valid, shown, moment⟩⟩

end Remainder

inductive SpellsLongYear : List Char → Int → Prop where
  | plus {ds : List Char} : ds.length = 6 → ds.all Char.isDigit = true →
      SpellsLongYear ('+' :: ds) (ofDigits ds)
  | minus {ds : List Char} : ds.length = 6 → ds.all Char.isDigit = true →
      SpellsLongYear ('-' :: ds) (-(ofDigits ds : Int))

theorem SpellsLongYear.read {text : List Char} {year : Int} (spells : SpellsLongYear text year)
    (rest : List Char) : readFixedYear? (text ++ rest) = some (year, rest) := by
  cases spells with
  | @plus ds six every =>
    have front : takeNat? 6 (ds ++ rest) = some (ofDigits ds, rest) :=
      takeNat_eq_some.mpr ⟨ds, rfl, six, every, rfl⟩
    simp only [List.cons_append, readFixedYear?, front, Option.map_some]
  | @minus ds six every =>
    have front : takeNat? 6 (ds ++ rest) = some (ofDigits ds, rest) :=
      takeNat_eq_some.mpr ⟨ds, rfl, six, every, rfl⟩
    simp only [List.cons_append, readFixedYear?, front, Option.map_some]

theorem readFixedYear_cases {cs rest : List Char} {year : Int}
    (done : readFixedYear? cs = some (year, rest)) :
    (∃ n : Nat, takeNat? 4 cs = some (n, rest) ∧ year = n) ∨
      ∃ text, SpellsLongYear text year ∧ cs = text ++ rest := by
  unfold readFixedYear? at done
  split at done
  · obtain ⟨⟨n, _⟩, front, same⟩ := Option.map_eq_some_iff.mp done
    obtain ⟨rfl, rfl⟩ := Prod.mk.inj same
    obtain ⟨ds, rfl, six, every, rfl⟩ := takeNat_eq_some.mp front
    exact .inr ⟨'+' :: ds, .plus six every, rfl⟩
  · obtain ⟨⟨n, _⟩, front, same⟩ := Option.map_eq_some_iff.mp done
    obtain ⟨rfl, rfl⟩ := Prod.mk.inj same
    obtain ⟨ds, rfl, six, every, rfl⟩ := takeNat_eq_some.mp front
    exact .inr ⟨'-' :: ds, .minus six every, rfl⟩
  · obtain ⟨⟨n, _⟩, front, same⟩ := Option.map_eq_some_iff.mp done
    obtain ⟨rfl, rfl⟩ := Prod.mk.inj same
    exact .inl ⟨n, front, rfl⟩

private theorem exists_digits_of_split {negative : Bool} {cs rest : List Char} {year : Int}
    (done : (do
      let (n, rest) ← takeNat? 6 cs
      match rest with
      | '-' :: _ :: _ => some (if negative then -(n : Int) else n, rest)
      | _ => none) = some (year, rest)) :
    (∃ ds, ds.length = 6 ∧ ds.all Char.isDigit = true ∧ cs = ds ++ rest ∧
      year = if negative then -(ofDigits ds : Int) else ofDigits ds) ∧
        ∃ c more, rest = '-' :: c :: more := by
  obtain ⟨⟨n, left⟩, front, done⟩ := Option.bind_eq_some_iff.mp done
  obtain ⟨ds, rfl, six, every, rfl⟩ := takeNat_eq_some.mp front
  dsimp only at done
  split at done
  · obtain ⟨rfl, rfl⟩ := Prod.mk.inj (Option.some.inj done)
    exact ⟨⟨ds, six, every, rfl, rfl⟩, _, _, rfl⟩
  · simp at done

theorem splitLongYear_eq_some_iff {cs rest : List Char} {year : Int} :
    splitLongYear? cs = some (year, rest) ↔
      (∃ text, SpellsLongYear text year ∧ cs = text ++ rest) ∧ ∃ c more, rest = '-' :: c :: more := by
  constructor
  · intro done
    unfold splitLongYear? at done
    split at done
    · dsimp only at done
      split at done
      · next plus =>
        obtain ⟨⟨ds, six, every, rfl, rfl⟩, dash⟩ := exists_digits_of_split done
        rw [plus]
        exact ⟨⟨'+' :: ds, .plus six every, rfl⟩, dash⟩
      · split at done
        · next minus =>
          obtain ⟨⟨ds, six, every, rfl, rfl⟩, dash⟩ := exists_digits_of_split done
          rw [minus]
          exact ⟨⟨'-' :: ds, .minus six every, rfl⟩, dash⟩
        · simp at done
    · simp at done
  · rintro ⟨⟨text, spells, rfl⟩, c, more, rfl⟩
    cases spells with
    | @plus ds six every =>
      have front : takeNat? 6 (ds ++ '-' :: c :: more) = some (ofDigits ds, '-' :: c :: more) :=
        takeNat_eq_some.mpr ⟨ds, rfl, six, every, rfl⟩
      simp [splitLongYear?, front]
    | @minus ds six every =>
      have front : takeNat? 6 (ds ++ '-' :: c :: more) = some (ofDigits ds, '-' :: c :: more) :=
        takeNat_eq_some.mpr ⟨ds, rfl, six, every, rfl⟩
      simp [splitLongYear?, front]

private theorem readFixedYear_of_short {cs rest : List Char} {n : Nat}
    (front : takeNat? 4 cs = some (n, rest)) :
    readFixedYear? cs = some ((n : Int), rest) ∧ splitLongYear? cs = none ∧ n ≤ 9999 := by
  obtain ⟨ds, rfl, four, every, value⟩ := takeNat_eq_some.mp front
  have below := ofDigits_lt every
  rw [value, four] at below
  cases ds with
  | nil => simp at four
  | cons d ds =>
    have digit : d.isDigit = true := by
      rw [List.all_cons, Bool.and_eq_true] at every
      exact every.1
    refine ⟨?_, ?_, by omega⟩
    · rw [List.cons_append] at front ⊢
      rw [readFixedYear_of_digit digit, front, Option.map_some]
    · refine Option.eq_none_iff_forall_not_mem.mpr fun ⟨year, left⟩ long => ?_
      obtain ⟨⟨text, spells, same⟩, -⟩ := splitLongYear_eq_some_iff.mp long
      -- A sign is not a digit.
      cases spells with
      | plus =>
        obtain ⟨rfl, -⟩ := List.cons.inj same
        exact absurd digit (by decide)
      | minus =>
        obtain ⟨rfl, -⟩ := List.cons.inj same
        exact absurd digit (by decide)

theorem Remainder.Spelled.exists_dash {cs : List Char} {r : Remainder} (spelled : Spelled cs r) :
    ∃ c more, cs = '-' :: c :: more := by
  cases spelled with
  | fields month =>
    obtain ⟨a, b, rfl⟩ := List.length_eq_two.mp month.1
    exact ⟨a, _, rfl⟩

/-- A date-time is read exactly if its year is in range, its fields are valid in that very year and
the moment that shows them is in range. -/
theorem readRfc3339_eq_some_iff {cs : List Char} {t : OffsetDateTime} :
    readRfc3339? cs = some t ↔ ∃ year rest r, readFixedYear? cs = some (year, rest) ∧
      (firstYear ≤ year ∧ year ≤ lastYear) ∧ Remainder.Spelled rest r ∧ r.ValidIn year ∧
        r.ShownBy year t ∧ t.utc.isMoment = true := by
  unfold readRfc3339?
  constructor
  · intro done
    split at done
    · obtain ⟨n, rest, r, short, spelled, valid, shown⟩ := readShortYear_eq_some_iff.mp done
      obtain ⟨front, -, small⟩ := readFixedYear_of_short short
      have moment : t.utc.isMoment = true := isMoment_of_year
        (by rw [shown.year]; omega) (by rw [shown.year]; omega)
      exact ⟨n, rest, r, front, ⟨by rw [firstYear]; omega, by rw [lastYear]; omega⟩, spelled, valid,
        shown, moment⟩
    · next year rest long =>
      obtain ⟨⟨text, spells, rfl⟩, -⟩ := splitLongYear_eq_some_iff.mp long
      obtain ⟨range, r, spelled, valid, shown, moment⟩ := Remainder.readStandIn_eq_some_iff.mp done
      exact ⟨year, rest, r, spells.read rest, range, spelled, valid, shown, moment⟩
  · rintro ⟨year, rest, r, front, range, spelled, valid, shown, moment⟩
    rcases readFixedYear_cases front with ⟨n, short, rfl⟩ | ⟨text, spells, rfl⟩
    · obtain ⟨-, unsigned, -⟩ := readFixedYear_of_short short
      rw [unsigned]
      exact readShortYear_eq_some_iff.mpr ⟨n, rest, r, short, spelled, valid, shown⟩
    · have long := splitLongYear_eq_some_iff.mpr ⟨⟨text, spells, rfl⟩, spelled.exists_dash⟩
      rw [long]
      exact Remainder.readStandIn_eq_some_iff.mpr ⟨range, r, spelled, valid, shown, moment⟩

private theorem readFixedYear_signed {sign : Char} {ds rest left : List Char} {year : Int}
    (signed : sign = '+' ∨ sign = '-') (six : ds.length = 6)
    (done : readFixedYear? (sign :: (ds ++ rest)) = some (year, left)) :
    SpellsLongYear (sign :: ds) year ∧ left = rest := by
  rcases signed with rfl | rfl
  · obtain ⟨⟨n, _⟩, front, same⟩ := Option.map_eq_some_iff.mp done
    obtain ⟨rfl, rfl⟩ := Prod.mk.inj same
    obtain ⟨ds', text, six', every, rfl⟩ := takeNat_eq_some.mp front
    obtain ⟨rfl, rfl⟩ := List.append_inj text (six.trans six'.symm)
    exact ⟨.plus six every, rfl⟩
  · obtain ⟨⟨n, _⟩, front, same⟩ := Option.map_eq_some_iff.mp done
    obtain ⟨rfl, rfl⟩ := Prod.mk.inj same
    obtain ⟨ds', text, six', every, rfl⟩ := takeNat_eq_some.mp front
    obtain ⟨rfl, rfl⟩ := List.append_inj text (six.trans six'.symm)
    exact ⟨.minus six every, rfl⟩

/-- A sign, six characters and a dash with anything after it are read exactly if the characters are
digits, the year is in range, what follows is valid in that very year, and the moment at which a
clock shows it is in range. That moment is what is read. There is one for all that is valid. -/
theorem readRfc3339_signed_iff {sign : Char} {ds rest : List Char}
    (signed : sign = '+' ∨ sign = '-') (six : ds.length = 6) :
    (∀ t, readRfc3339? (sign :: (ds ++ '-' :: rest)) = some t ↔
      ∃ year, SpellsLongYear (sign :: ds) year ∧ (firstYear ≤ year ∧ year ≤ lastYear) ∧
        ∃ r, Remainder.Spelled ('-' :: rest) r ∧ r.ValidIn year ∧ r.ShownBy year t ∧
          DateTime.earliest.NotAfter t.utc ∧ t.utc.NotAfter DateTime.latest) ∧
    ∀ year r, Remainder.Spelled ('-' :: rest) r → r.ValidIn year → ∃! t, r.ShownBy year t := by
  refine ⟨fun t => ?_, fun year r spelled valid =>
    valid.existsUnique_shownBy spelled.fraction_lt spelled.isOffset⟩
  rw [readRfc3339_eq_some_iff]
  constructor
  · rintro ⟨year, left, r, front, range, spelled, valid, shown, moment⟩
    obtain ⟨spells, rfl⟩ := readFixedYear_signed signed six front
    exact ⟨year, spells, range, r, spelled, valid, shown, DateTime.isMoment_iff.mp moment⟩
  · rintro ⟨year, spells, range, r, spelled, valid, shown, moment⟩
    exact ⟨year, _, r, spells.read _, range, spelled, valid, shown, DateTime.isMoment_iff.mpr moment⟩

theorem readRfc3339_leap_day :
    ('+' = '+' ∨ '+' = '-') ∧ "012000".toList.length = 6 ∧
      readRfc3339? ('+' :: ("012000".toList ++ '-' :: "02-29T01:00:00+02:00".toList)) =
        some ⟨⟨⟨12000, 2, 28, by decide⟩, ⟨82800, 0, by decide⟩⟩, 7200⟩ := by
  have two (a b : Char) (n : Nat) (digits : [a, b].all Char.isDigit = true)
      (value : ofDigits [a, b] = n) : IsField [a, b] n := ⟨rfl, digits, value⟩
  have zero : IsField ['0', '0'] 0 := two '0' '0' 0 rfl rfl
  have offset : SpellsOffset ['+', '0', '2', ':', '0', '0'] 7200 :=
    .east (two '0' '2' 2 rfl rfl) zero (by decide) (by decide)
  have fields : Remainder.Spelled ('-' :: "02-29T01:00:00+02:00".toList)
      ⟨2, 29, 1, 0, 0, 0, 7200⟩ :=
    .fields (r := ⟨2, 29, 1, 0, 0, 0, 7200⟩) (two '0' '2' 2 rfl rfl) (two '2' '9' 29 rfl rfl)
      (.inl rfl) (two '0' '1' 1 rfl rfl) zero zero .missing offset
  have year : SpellsLongYear ('+' :: "012000".toList) 12000 := by
    have value : ofDigits "012000".toList = 12000 := by decide
    have spells := @SpellsLongYear.plus "012000".toList rfl rfl
    rwa [value] at spells
  have range : firstYear ≤ 12000 ∧ (12000 : Int) ≤ lastYear := by decide
  have valid : Remainder.ValidIn ⟨2, 29, 1, 0, 0, 0, 7200⟩ 12000 :=
    ⟨by decide, by decide, by decide, by decide⟩
  have shown : Remainder.ShownBy ⟨2, 29, 1, 0, 0, 0, 7200⟩ 12000
      ⟨⟨⟨12000, 2, 28, by decide⟩, ⟨82800, 0, by decide⟩⟩, 7200⟩ :=
    ⟨by decide, by decide, by decide, by decide, by decide, rfl⟩
  exact ⟨.inl rfl, rfl, ((readRfc3339_signed_iff (.inl rfl) rfl).1 _).mpr
    ⟨12000, year, range, _, fields, valid, shown, by decide, by decide⟩⟩

end WireSchema.Calendar
