import WireSchema.Proofs.Calendar.StandIn

/-!
Internet date-times are read back from their texts, over the whole range of years. What is written
of a moment spells the fields that the observer's clock shows, and in the observer's year those are
shown at that moment alone.
-/

set_option autoImplicit false

namespace WireSchema.Calendar

open WireSchema.Text

theorem spellsOffset_offsetText (zulu : Bool) {offset : Int} (valid : IsOffset offset) :
    SpellsOffset (offsetText zulu offset) offset := by
  obtain ⟨whole, small⟩ := valid
  unfold offsetText
  split
  · next none =>
    rw [none.2]
    exact .zulu (.inl rfl)
  · have exact : (offset.natAbs + 30) / 60 = offset.natAbs / 60 := by omega
    dsimp only
    rw [exact]
    have hours : offset.natAbs / 60 / 60 < 24 := by omega
    have minutes : offset.natAbs / 60 % 60 < 60 := by omega
    have hour : IsField (padded 2 (offset.natAbs / 60 / 60)) _ := isField_padded (by omega)
    have minute : IsField (padded 2 (offset.natAbs / 60 % 60)) _ := isField_padded (by omega)
    split
    · next negative =>
      have spells := SpellsOffset.west (.inl rfl) hour minute hours minutes
      rwa [(by omega : -(((offset.natAbs / 60 / 60 : Nat) : Int) * 3600 +
        (offset.natAbs / 60 % 60 : Nat) * 60) = offset)] at spells
    · next positive =>
      have spells := SpellsOffset.east hour minute hours minutes
      rwa [(by omega : ((offset.natAbs / 60 / 60 : Nat) : Int) * 3600 +
        (offset.natAbs / 60 % 60 : Nat) * 60 = offset)] at spells

namespace OffsetDateTime

def remainderText (precision : Precision) (zulu : Bool) (t : OffsetDateTime) : List Char :=
  '-' :: padded 2 t.wallClock.1.month ++ '-' :: padded 2 t.wallClock.1.day ++
    'T' :: clockText precision t.wallClock.2 t.utc.time.nano ++ offsetText zulu t.offset

def remainder (precision : Precision) (t : OffsetDateTime) : Remainder where
  month := t.wallClock.1.month
  day := t.wallClock.1.day
  hour := t.wallClock.2 / 3600
  minute := t.wallClock.2 / 60 % 60
  second := t.wallClock.2 % 60 + t.utc.time.nano / billion
  fraction := precision.cut (t.utc.time.nano % billion)
  offset := t.offset

def cut (precision : Precision) (t : OffsetDateTime) : OffsetDateTime :=
  ⟨⟨t.utc.date, t.utc.time.cut precision⟩, t.offset⟩

variable {t : OffsetDateTime}

theorem spelled_remainderText (precision : Precision) (zulu : Bool) (valid : IsOffset t.offset) :
    Remainder.Spelled (t.remainderText precision zulu) (t.remainder precision) := by
  have inDay : t.wallClock.2 < 86400 := (t.clockTime valid).second_lt
  have bounded := t.utc.time.nano_lt
  have sixty : t.wallClock.2 % 60 + t.utc.time.nano / billion < 10 ^ 2 := by
    have : t.utc.time.nano / 1000000000 < 2 := by omega
    show t.wallClock.2 % 60 + t.utc.time.nano / 1000000000 < 100
    omega
  have fraction := spellsFraction_fractionText precision
    (Nat.mod_lt t.utc.time.nano (by decide : 0 < billion))
  simp only [remainderText, clockText, List.append_assoc, List.cons_append]
  exact .fields (r := t.remainder precision) (isField_padded t.wallClock.1.month_lt)
    (isField_padded t.wallClock.1.day_lt) (.inl rfl) (isField_padded (by omega))
    (isField_padded (by omega)) (isField_padded sixty) fraction (spellsOffset_offsetText zulu valid)

theorem remainder_shownBy_cut (precision : Precision) (valid : IsOffset t.offset) :
    (t.remainder precision).ValidIn t.wallClock.1.year ∧
      (t.remainder precision).ShownBy t.wallClock.1.year (t.cut precision) := by
  obtain ⟨⟨hour, minute, second⟩, shown, nano⟩ :=
    timeOf_eq_some_iff.mp (timeOf_clock precision (t.clockTime valid))
  exact ⟨⟨t.wallClock.1.isDate, hour, minute, second⟩, rfl, rfl, rfl, shown, nano, rfl⟩

end OffsetDateTime

theorem rfc3339_eq (precision : Precision) (zulu : Bool) (t : OffsetDateTime) :
    rfc3339 precision zulu t =
      yearText 6 t.wallClock.1.year ++ t.remainderText precision zulu := by
  have short : shortRfc3339 precision zulu t =
      yearText 4 t.wallClock.1.year ++ t.remainderText precision zulu := by
    simp only [shortRfc3339, OffsetDateTime.remainderText, List.append_assoc, List.cons_append]
  unfold rfc3339
  dsimp only
  rw [short]
  split
  · next four => rw [yearText, yearText, if_pos four, if_pos four]
  · next signed =>
    have front : ((yearText 4 t.wallClock.1.year ++ t.remainderText precision zulu).drop 1).dropWhile
        (· ≠ '-') = t.remainderText precision zulu := by
      have digits : ∀ c ∈ padded 4 t.wallClock.1.year.natAbs, decide (c ≠ '-') = true := by
        intro c member
        have digit := List.all_eq_true.mp (all_padded 4 _) c member
        refine decide_eq_true fun dash => ?_
        rw [dash] at digit
        exact absurd digit (by decide)
      rw [yearText, if_neg signed, List.cons_append, List.drop_one, List.tail_cons,
        List.dropWhile_append_of_pos digits]
      rfl
    rw [front]
    rfl

/-- A moment on an observer's clock: in range, and so is the date that the observer reads off. -/
structure Observable (t : OffsetDateTime) : Prop where
  moment : t.utc.isMoment = true
  offset : IsOffset t.offset
  dated : t.wallClock.1.inRange = true

theorem wallClock_utc (t : DateTime) : OffsetDateTime.wallClock ⟨t, 0⟩ = (t.date, t.time.second) :=
  DateTime.shift_zero t.time.second_lt

theorem observable_utc {t : DateTime} (moment : t.isMoment = true) : Observable ⟨t, 0⟩ where
  moment := moment
  offset := ⟨rfl, (by decide : (0 : Int).natAbs < 86400)⟩
  dated := by rw [wallClock_utc]; exact inRange_of_isMoment moment

theorem observable_of_readRfc3339 {cs : List Char} {t : OffsetDateTime}
    (done : readRfc3339? cs = some t) : Observable t := by
  obtain ⟨year, _, r, -, range, spelled, -, shown, moment⟩ := readRfc3339_eq_some_iff.mp done
  have valid := spelled.isOffset
  rw [← shown.offset] at valid
  rw [← shown.year] at range
  exact ⟨moment, valid, inRange_iff.mpr range⟩

theorem year_natAbs_lt {d : Date} (ranged : d.inRange = true) : d.year.natAbs < 1000000 := by
  obtain ⟨first, last⟩ := inRange_iff.mp ranged
  simp only [firstYear, lastYear] at first last
  omega

theorem isMoment_cut (precision : Precision) {t : DateTime} (moment : t.isMoment = true) :
    DateTime.isMoment ⟨t.date, t.time.cut precision⟩ = true := by
  have less := precision.cut_le t.time.nano
  simp only [DateTime.isMoment, TimeOfDay.cut, Bool.and_eq_true, Bool.not_eq_true',
    Bool.and_eq_false_iff, decide_eq_false_iff_not] at moment ⊢
  refine ⟨moment.1, moment.2.imp id fun early => ?_⟩
  exact decide_eq_false fun late => early (Nat.le_trans late less)

/-- A moment is read back from its text on the observer's clock, up to the digits that the
precision leaves out. -/
theorem readRfc3339_rfc3339 (precision : Precision) (zulu : Bool) {t : OffsetDateTime}
    (observable : Observable t) : readRfc3339? (rfc3339 precision zulu t) = some (t.cut precision) := by
  obtain ⟨moment, valid, dated⟩ := observable
  obtain ⟨validIn, shown⟩ := OffsetDateTime.remainder_shownBy_cut precision valid
  rw [rfc3339_eq, readRfc3339_eq_some_iff]
  exact ⟨_, _, t.remainder precision, readFixedYear_yearText (year_natAbs_lt dated) _,
    inRange_iff.mp dated, OffsetDateTime.spelled_remainderText precision zulu valid, validIn, shown,
    isMoment_cut precision moment⟩

/-- Date-times of universal time in range, and moments in range that an observer sees at an offset of
whole minutes on a date in range, are read back from their texts as they were. Of a coarser text they
are read with the digits that it leaves out set to zero. -/
theorem rfc3339_roundTrip (zulu : Bool) :
    (∀ t : DateTime, DateTime.earliest.NotAfter t → t.NotAfter DateTime.latest →
      readRfc3339? (rfc3339 .auto zulu ⟨t, 0⟩) = some ⟨t, 0⟩ ∧
        ∀ precision, readRfc3339? (rfc3339 precision zulu ⟨t, 0⟩) =
          some ⟨⟨t.date, t.time.cut precision⟩, 0⟩) ∧
    ∀ t : OffsetDateTime, DateTime.earliest.NotAfter t.utc → t.utc.NotAfter DateTime.latest →
      t.offset % 60 = 0 → t.offset.natAbs < 86400 → t.wallClock.1.inRange = true →
      readRfc3339? (rfc3339 .auto zulu t) = some t ∧
        ∀ precision, readRfc3339? (rfc3339 precision zulu t) =
          some ⟨⟨t.utc.date, t.utc.time.cut precision⟩, t.offset⟩ := by
  constructor
  · intro t early late
    have observable := observable_utc (DateTime.isMoment_iff.mpr ⟨early, late⟩)
    exact ⟨readRfc3339_rfc3339 .auto zulu observable,
      fun precision => readRfc3339_rfc3339 precision zulu observable⟩
  · intro t early late whole small dated
    have observable : Observable t :=
      ⟨DateTime.isMoment_iff.mpr ⟨early, late⟩, ⟨whole, small⟩, dated⟩
    exact ⟨readRfc3339_rfc3339 .auto zulu observable,
      fun precision => readRfc3339_rfc3339 precision zulu observable⟩

theorem rfc3339_roundTrip_leap_second :
    ∃ t : DateTime, (t.date.year = 9999 ∧ t.time.nano = 1500000000) ∧
      (DateTime.earliest.NotAfter t ∧ t.NotAfter DateTime.latest) ∧
      (OffsetDateTime.wallClock ⟨t, 3600⟩).1.year = 10000 ∧
      readRfc3339? (rfc3339 .auto true ⟨t, 0⟩) = some ⟨t, 0⟩ ∧
      readRfc3339? (rfc3339 .seconds true ⟨t, 3600⟩) =
        some ⟨⟨t.date, t.time.cut .seconds⟩, 3600⟩ := by
  refine ⟨⟨⟨9999, 12, 31, by decide⟩, ⟨86399, 1500000000, by decide⟩⟩, ⟨rfl, rfl⟩,
    ⟨by decide, by decide⟩, by decide, ?_, ?_⟩
  · exact ((rfc3339_roundTrip true).1 _ (by decide) (by decide)).1
  · exact ((rfc3339_roundTrip true).2 _ (by decide) (by decide) (by decide : (3600 : Int) % 60 = 0)
      (by decide) (by decide)).2 .seconds

end WireSchema.Calendar
