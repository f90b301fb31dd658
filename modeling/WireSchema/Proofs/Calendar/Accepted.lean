import WireSchema.Proofs.Calendar.Temporal

/-!
What is read of a text is valid: in range and in the calendar. Together with the round trip of
valid values this makes one writing of what was read the last word on it. At no offset and in no
zone the valid values are those of a calendar and a clock on the wall, as far as years reach.
-/

set_option autoImplicit false

namespace WireSchema

def TemporalKind.isPlain : TemporalKind → Bool
  | .plainDateTime | .plainDate | .plainMonthDay | .plainTime | .plainYearMonth => true
  | .duration | .instant | .zonedDateTime => false

namespace Calendar

open WireSchema.Text

theorem inRange_of_readDatePart {cs rest : List Char} {d : Date}
    (done : readDatePart? cs = some (d, rest)) : d.inRange = true := by
  simp only [readDatePart?, Option.bind_eq_bind, Option.bind_eq_some_iff, Prod.exists] at done
  obtain ⟨_, _, -, _, -, _, _, -, _, -, _, _, -, date, -, done⟩ := done
  split at done
  · next ranged =>
    obtain ⟨rfl, -⟩ := Prod.mk.inj (Option.some.inj done)
    exact ranged
  · simp at done

theorem inRange_of_readDate {cs : List Char} {d : Date} (done : readDate? cs = some d) :
    d.inRange = true := by
  simp only [readDate?, Option.bind_eq_bind, Option.bind_eq_some_iff, Prod.exists] at done
  obtain ⟨date, _, part, done⟩ := done
  split at done
  · obtain rfl := Option.some.inj done
    exact inRange_of_readDatePart part
  · simp at done

theorem inRange_of_readDateTime {cs : List Char} {t : DateTime} (done : readDateTime? cs = some t) :
    t.date.inRange = true := by
  simp only [readDateTime?, Option.bind_eq_bind, Option.bind_eq_some_iff, Prod.exists,
    Option.pure_def, Option.some.injEq] at done
  obtain ⟨date, _, part, _, -, time, -, rfl⟩ := done
  exact inRange_of_readDatePart part

theorem YearMonth.valid_of_read {cs : List Char} {m : YearMonth} (done : read? cs = some m) :
    m.Valid := by
  simp only [read?, Option.bind_eq_bind, Option.bind_eq_some_iff, Prod.exists] at done
  obtain ⟨year, _, -, _, -, month, _, -, first, found, done⟩ := done
  split at done
  · next fits =>
    obtain rfl := Option.some.inj done
    obtain ⟨rfl, rfl, -⟩ := Date.eq_of_of? found
    obtain ⟨begins, ends⟩ := inRange_iff.mp fits.2
    exact ⟨first.isDate.1, first.isDate.2.1, begins, ends⟩
  · simp at done

theorem MonthDay.valid_of_read {cs : List Char} {d : MonthDay} (done : read? cs = some d) :
    d.Valid := by
  simp only [read?, Option.bind_eq_bind, Option.bind_eq_some_iff, Prod.exists] at done
  obtain ⟨month, _, -, _, -, day, _, -, date, found, done⟩ := done
  split at done
  · obtain rfl := Option.some.inj done
    obtain ⟨year, rfl, rfl⟩ := Date.eq_of_of? found
    have isDate := date.isDate
    rw [year] at isDate
    exact isDate
  · simp at done

theorem Zoned.isZone_of_splitZone {cs moment zone : List Char}
    (done : splitZone? cs = some (moment, zone)) : IsZone zone := by
  unfold splitZone? at done
  split at done
  · next rest _ =>
    rw [List.span_eq_takeWhile_dropWhile] at done
    dsimp only at done
    split at done
    · split at done
      · simp at done
      · next named =>
        obtain ⟨-, rfl⟩ := Prod.mk.inj (Option.some.inj done)
        refine ⟨by simpa using named, fun c member => ?_⟩
        have kept := List.mem_takeWhile_imp (List.mem_reverse.mp member)
        simpa using kept
    · simp at done
  · simp at done

theorem Zoned.valid_of_read {cs : List Char} {z : Zoned} (done : read? cs = some z) : z.Valid := by
  simp only [read?, Option.bind_eq_bind, Option.bind_eq_some_iff, Prod.exists, Option.pure_def,
    Option.some.injEq] at done
  obtain ⟨_, zone, split, moment, found, rfl⟩ := done
  refine ⟨observable_of_readRfc3339 found, ?_⟩
  rw [String.toList_ofList]
  exact isZone_of_splitZone split

theorem Temporal.valid_of_read {kind : TemporalKind} {cs : List Char} {t : Temporal}
    (done : read? kind cs = some t) : t.Valid ∧ t.kind = kind := by
  cases kind with
  | duration =>
    obtain ⟨d, found, rfl⟩ := Option.map_eq_some_iff.mp done
    exact ⟨Duration.valid_of_read found, rfl⟩
  | instant =>
    obtain ⟨t, found, rfl⟩ := Option.map_eq_some_iff.mp done
    exact ⟨(observable_of_readRfc3339 found).moment, rfl⟩
  | plainDateTime =>
    obtain ⟨t, found, rfl⟩ := Option.map_eq_some_iff.mp done
    exact ⟨inRange_of_readDateTime found, rfl⟩
  | plainDate =>
    obtain ⟨d, found, rfl⟩ := Option.map_eq_some_iff.mp done
    exact ⟨inRange_of_readDate found, rfl⟩
  | plainMonthDay =>
    obtain ⟨d, found, rfl⟩ := Option.map_eq_some_iff.mp done
    exact ⟨MonthDay.valid_of_read found, rfl⟩
  | plainTime =>
    obtain ⟨t, -, rfl⟩ := Option.map_eq_some_iff.mp done
    exact ⟨trivial, rfl⟩
  | plainYearMonth =>
    obtain ⟨m, found, rfl⟩ := Option.map_eq_some_iff.mp done
    exact ⟨YearMonth.valid_of_read found, rfl⟩
  | zonedDateTime =>
    obtain ⟨z, found, rfl⟩ := Option.map_eq_some_iff.mp done
    exact ⟨Zoned.valid_of_read found, rfl⟩

theorem Temporal.read_text_of_read {kind : TemporalKind} {cs : List Char} {t : Temporal}
    (done : read? kind cs = some t) : read? kind t.text.toList = some t := by
  obtain ⟨valid, rfl⟩ := valid_of_read done
  exact read_text valid

theorem isDate_of_leap {year other : Int} {month day : Nat} (leap : isLeapYear year = true)
    (isDate : IsDate other month day) : IsDate year month day := by
  obtain ⟨least, greatest, first, last⟩ := isDate
  refine ⟨least, greatest, first, Nat.le_trans last ?_⟩
  unfold daysIn
  simp only [leap, if_true]
  repeat' split
  all_goals omega

theorem MonthDay.valid_iff {d : MonthDay} :
    d.Valid ↔ ∃ year, isLeapYear year = true ∧ IsDate year d.month d.day :=
  ⟨fun valid => ⟨1972, by decide, valid⟩, fun ⟨_, _, isDate⟩ => isDate_of_leap (by decide) isDate⟩

/-- What a calendar and a clock on the wall show, as far as values may lie: dates and months of a year
in range, days of a month that a leap year has, and any time of day. -/
inductive Temporal.Plain : Temporal → Prop where
  | plainDateTime {t : DateTime} : firstYear ≤ t.date.year → t.date.year ≤ lastYear →
      Plain (.plainDateTime t)
  | plainDate {d : Date} : firstYear ≤ d.year → d.year ≤ lastYear → Plain (.plainDate d)
  | plainMonthDay {year : Int} {d : MonthDay} : isLeapYear year = true →
      IsDate year d.month d.day → Plain (.plainMonthDay d)
  | plainTime (t : TimeOfDay) : Plain (.plainTime t)
  | plainYearMonth {day : Nat} {m : YearMonth} : IsDate m.year m.month day → firstYear ≤ m.year →
      m.year ≤ lastYear → Plain (.plainYearMonth m)

theorem Temporal.plain_iff {t : Temporal} : t.Plain ↔ t.kind.isPlain = true ∧ t.Valid := by
  constructor
  · intro plain
    cases plain with
    | plainDateTime first last => exact ⟨rfl, inRange_iff.mpr ⟨first, last⟩⟩
    | plainDate first last => exact ⟨rfl, inRange_iff.mpr ⟨first, last⟩⟩
    | plainMonthDay leap isDate => exact ⟨rfl, MonthDay.valid_iff.mpr ⟨_, leap, isDate⟩⟩
    | plainTime t => exact ⟨rfl, trivial⟩
    | plainYearMonth isDate first last => exact ⟨rfl, isDate.1, isDate.2.1, first, last⟩
  · rintro ⟨plain, valid⟩
    cases t with
    | plainDateTime t =>
      obtain ⟨first, last⟩ := inRange_iff.mp valid
      exact .plainDateTime first last
    | plainDate d =>
      obtain ⟨first, last⟩ := inRange_iff.mp valid
      exact .plainDate first last
    | plainMonthDay d =>
      obtain ⟨year, leap, isDate⟩ := MonthDay.valid_iff.mp valid
      exact .plainMonthDay leap isDate
    | plainTime t => exact .plainTime t
    | plainYearMonth m =>
      obtain ⟨least, greatest, first, last⟩ := valid
      exact .plainYearMonth ⟨least, greatest, Nat.le_refl 1, daysIn_pos _ _⟩ first last
    | duration | instant | zonedDateTime => simp [kind, TemporalKind.isPlain] at plain

/-- A value at no offset and in no zone is read back from what it is written as if and only if it is in
range, and these are the values that are read of any text. -/
theorem Temporal.plain_text_inverse {kind : TemporalKind} (plain : kind.isPlain = true)
    (t : Temporal) :
    (t.kind = kind ∧ t.Plain ↔ read? kind t.text.toList = some t) ∧
      (t.kind = kind ∧ t.Plain ↔ ∃ cs, read? kind cs = some t) := by
  have read : t.kind = kind ∧ t.Plain → read? kind t.text.toList = some t := by
    rintro ⟨rfl, inRange⟩
    exact read_text (plain_iff.mp inRange).2
  have accepted : (∃ cs, read? kind cs = some t) → t.kind = kind ∧ t.Plain := by
    rintro ⟨cs, done⟩
    obtain ⟨valid, rfl⟩ := valid_of_read done
    exact ⟨rfl, plain_iff.mpr ⟨plain, valid⟩⟩
  exact ⟨⟨read, fun done => accepted ⟨_, done⟩⟩, fun inRange => ⟨_, read inRange⟩, accepted⟩

theorem Temporal.plain_text_inverse_leap_day :
    ∃ t : DateTime, (t.date.year = -10000 ∧ t.date.month = 2 ∧ t.date.day = 29) ∧
      t.time.nano = 1500000000 ∧ TemporalKind.isPlain .plainDateTime = true ∧
      (Temporal.plainDateTime t).text = "-10000-02-29T23:59:60.500" ∧
      read? .plainDateTime (Temporal.plainDateTime t).text.toList = some (.plainDateTime t) := by
  refine ⟨⟨⟨-10000, 2, 29, by decide⟩, ⟨86399, 1500000000, by decide⟩⟩, ⟨rfl, rfl, rfl⟩, rfl, rfl,
    by decide, ?_⟩
  exact (plain_text_inverse rfl _).1.mp ⟨rfl, .plainDateTime (by decide) (by decide)⟩

end Calendar

end WireSchema
