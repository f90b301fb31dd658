import WireSchema.Leaf.Time
import WireSchema.Proofs.Calendar.Accepted

/-!
A date of whole milliseconds is read back from the text it travels as. A date that was read may be
finer; what is written of it is cut to milliseconds, and then it is read back too.
-/

set_option autoImplicit false

namespace WireSchema.Leaf

open WireSchema.Text
open WireSchema.Calendar

private theorem padded_two {n : Nat} (small : n < 100) :
    padded 2 n = [Nat.digitChar (n / 10), Nat.digitChar (n % 10)] := by
  unfold padded digits
  by_cases one : n < 10
  · have zero : n / 10 = 0 := by omega
    have rest : n % 10 = n := by omega
    rw [Nat.toDigits_of_lt_base one, zero, rest]
    rfl
  · rw [Nat.toDigits_of_base_le (by decide) (by omega), Nat.toDigits_of_lt_base (by omega)]
    rfl

private theorem field_in_range {n bound : Nat} (digit : bound < 10) (small : n < 10 * bound + 10) :
    (Nat.digitChar (n / 10)).isDigit = true ∧
      Nat.digitChar (n / 10) ≤ Nat.digitChar bound ∧ (Nat.digitChar (n % 10)).isDigit = true := by
  have ordered : ∀ b < 10, ∀ j < b + 1, Nat.digitChar j ≤ Nat.digitChar b := by decide
  refine ⟨?_, ordered bound digit _ (by omega), ?_⟩
  · simp only [Nat.isDigit_digitChar, decide_eq_true_eq]
    omega
  · simp only [Nat.isDigit_digitChar, decide_eq_true_eq]
    omega

private theorem isDateForm_of_fields {cs ds : List Char} {year : Int}
    {month day hour minute second : Nat}
    (front : readFixedYear? cs = some (year, '-' :: padded 2 month ++ '-' :: padded 2 day ++
      'T' :: padded 2 hour ++ ':' :: padded 2 minute ++ ':' :: padded 2 second ++
      '.' :: ds ++ ['Z']))
    (months : month < 20) (days : day < 40) (hours : hour < 30) (minutes : minute < 60)
    (seconds : second < 60) (digits : ds.all Char.isDigit = true) (some : ds ≠ []) :
    isDateForm cs = true := by
  have one := field_in_range (by decide : 1 < 10) months
  have three := field_in_range (by decide : 3 < 10) days
  have two := field_in_range (by decide : 2 < 10) hours
  have five := field_in_range (by decide : 5 < 10) minutes
  have five' := field_in_range (by decide : 5 < 10) seconds
  have cut : spanDigits (ds ++ ['Z']) = (ds, ['Z']) := spanDigits_append digits rfl
  rw [padded_two (by omega), padded_two (by omega), padded_two (by omega), padded_two (by omega),
    padded_two (by omega)] at front
  simp only [List.cons_append, List.nil_append] at front
  have one : _ ∧ _ ≤ '1' ∧ _ := one
  have three : _ ∧ _ ≤ '3' ∧ _ := three
  have two : _ ∧ _ ≤ '2' ∧ _ := two
  have five : _ ∧ _ ≤ '5' ∧ _ := five
  have five' : _ ∧ _ ≤ '5' ∧ _ := five'
  simp only [isDateForm, front, Option.bind_eq_bind, Option.bind_some, dropChar_self,
    if_pos one, if_pos three, if_pos two, if_pos five, if_pos five', cut]
  cases ds with
  | nil => exact absurd rfl some
  | cons d ds => rfl

/-- A date of a moment that can travel: whole milliseconds and no leap second. -/
structure Sendable (t : DateTime) : Prop where
  moment : t.isMoment = true
  whole : t.time.nano % 1000000 = 0
  plain : t.time.nano < 1000000000

private theorem readFixedYear_isoText {t : DateTime} (moment : t.isMoment = true) :
    readFixedYear? (isoText t).toList = some (t.date.year,
      '-' :: padded 2 t.date.month ++ '-' :: padded 2 t.date.day ++
        'T' :: padded 2 (t.time.second / 3600) ++ ':' :: padded 2 (t.time.second / 60 % 60) ++
        ':' :: padded 2 (t.time.second % 60 + t.time.nano / billion) ++
        '.' :: padded 3 (t.time.nano % billion / 1000000) ++ ['Z']) := by
  have front := readFixedYear_yearText (year_natAbs_lt (inRange_of_isMoment moment))
    ('-' :: padded 2 t.date.month ++ '-' :: padded 2 t.date.day ++
      'T' :: padded 2 (t.time.second / 3600) ++ ':' :: padded 2 (t.time.second / 60 % 60) ++
      ':' :: padded 2 (t.time.second % 60 + t.time.nano / billion) ++
      '.' :: padded 3 (t.time.nano % billion / 1000000) ++ ['Z'])
  have zulu : offsetText true 0 = ['Z'] := by simp [offsetText]
  rw [isoText, String.toList_ofList, rfc3339_eq, OffsetDateTime.remainderText, wallClock_utc, zulu]
  simpa only [clockText, fractionText, List.append_assoc, List.cons_append] using front

theorem isDateForm_isoText {t : DateTime} (sendable : Sendable t) :
    isDateForm (isoText t).toList = true := by
  obtain ⟨moment, whole, plain⟩ := sendable
  have inDay := t.time.second_lt
  have month := t.date.isDate.2.1
  have day := t.date.day_le
  have leap : t.time.nano / 1000000000 = 0 := Nat.div_eq_of_lt plain
  have second : t.time.second % 60 + t.time.nano / billion < 60 := by
    show t.time.second % 60 + t.time.nano / 1000000000 < 60
    omega
  obtain ⟨c, more, text, -⟩ :=
    exists_padded_cons (by decide : 0 < 3) (t.time.nano % billion / 1000000)
  exact isDateForm_of_fields (readFixedYear_isoText moment) (by omega) (by omega) (by omega)
    (by omega) second (all_padded 3 _) (by simp [text])

theorem dateOfText_isoText {t : DateTime} (sendable : Sendable t) : dateOfText (isoText t) = .ok t := by
  have form := isDateForm_isoText sendable
  have read := readRfc3339_rfc3339 .millis true (observable_utc sendable.moment)
  have kept : t.time.nano / 1000000 * 1000000 = t.time.nano :=
    Nat.div_mul_cancel (Nat.dvd_of_mod_eq_zero sendable.whole)
  have whole : OffsetDateTime.cut .millis ⟨t, 0⟩ = ⟨t, 0⟩ := by
    obtain ⟨date, ⟨second, nano, valid⟩⟩ := t
    simp only [OffsetDateTime.cut, TimeOfDay.cut, Precision.cut, kept]
  have found : readRfc3339? (isoText t).toList = some ⟨t, 0⟩ := by
    rw [isoText, String.toList_ofList, read, whole]
  simp only [dateOfText, form, if_true, found]

private theorem second_of_isDateForm {cs rest : List Char} {year : Int} {r : Remainder}
    (form : isDateForm cs = true) (front : readFixedYear? cs = some (year, rest))
    (spelled : Remainder.Spelled rest r) : r.second < 60 := by
  cases spelled with
  | fields month day _ hour minute second =>
    obtain ⟨m₁, m₂, rfl⟩ := List.length_eq_two.mp month.1
    obtain ⟨d₁, d₂, rfl⟩ := List.length_eq_two.mp day.1
    obtain ⟨h₁, h₂, rfl⟩ := List.length_eq_two.mp hour.1
    obtain ⟨n₁, n₂, rfl⟩ := List.length_eq_two.mp minute.1
    obtain ⟨s₁, s₂, rfl⟩ := List.length_eq_two.mp second.1
    simp only [List.cons_append, List.nil_append] at front
    simp only [isDateForm, front, Option.bind_eq_bind, Option.bind_some, dropChar_self,
      Option.getD_eq_iff, Bool.false_eq_true, and_false, or_false, Option.bind_eq_some_iff,
      Option.ite_none_right_eq_some, Option.some.injEq, dropChar_eq_some, List.cons.injEq, true_and,
      and_assoc, exists_and_left, exists_eq_left'] at form
    obtain ⟨-, -, -, -, -, -, -, -, -, -, -, -, -, tens, low, ones, -⟩ := form
    have low : s₁.toNat ≤ 53 := low
    have tens := (isDigit_iff.mp tens).1
    have ones := (isDigit_iff.mp ones).2
    rw [← second.2.2]
    simp only [ofDigits, Nat.ofDigitChars, List.foldl_cons, List.foldl_nil]
    show 10 * (10 * 0 + (s₁.toNat - 48)) + (s₂.toNat - 48) < 60
    omega

theorem nano_of_dateOfText {s : String} {t : DateTime} (done : dateOfText s = .ok t) :
    t.time.nano < 1000000000 := by
  simp only [dateOfText] at done
  split at done
  · next form =>
    split at done
    · next moment found =>
      obtain rfl := Except.ok.inj done
      obtain ⟨year, rest, r, front, -, spelled, -, shown, -⟩ := readRfc3339_eq_some_iff.mp found
      have second := second_of_isDateForm form front spelled
      have fraction : r.fraction < 1000000000 := spelled.fraction_lt
      rw [shown.nano, if_neg (by omega), Nat.zero_add]
      exact fraction
    · simp at done
  · simp at done

theorem isoText_cut (t : DateTime) : isoText ⟨t.date, t.time.cut .millis⟩ = isoText t := by
  have leap : (t.time.cut .millis).nano / billion = t.time.nano / billion := by
    show t.time.nano / 1000000 * 1000000 / 1000000000 = t.time.nano / 1000000000
    omega
  have millis : (t.time.cut .millis).nano % billion / 1000000 =
      t.time.nano % billion / 1000000 := by
    show t.time.nano / 1000000 * 1000000 % 1000000000 / 1000000 =
      t.time.nano % 1000000000 / 1000000
    omega
  have clock : clockText .millis t.time.second (t.time.cut .millis).nano =
      clockText .millis t.time.second t.time.nano := by
    rw [clockText, clockText, leap, fractionText, fractionText, millis]
  rw [isoText, isoText, rfc3339_eq, rfc3339_eq, OffsetDateTime.remainderText,
    OffsetDateTime.remainderText, wallClock_utc, wallClock_utc]
  exact congrArg (fun clock => String.ofList (yearText 6 t.date.year ++ ('-' ::
    padded 2 t.date.month ++ '-' :: padded 2 t.date.day ++ 'T' :: clock ++ offsetText true 0))) clock

theorem isMoment_of_dateOfText {s : String} {t : DateTime} (done : dateOfText s = .ok t) :
    t.isMoment = true := by
  simp only [dateOfText] at done
  split at done
  · split at done
    · next found =>
      obtain rfl := Except.ok.inj done
      exact (observable_of_readRfc3339 found).moment
    · simp at done
  · simp at done

theorem dateOfText_isoText_of_plain {t : DateTime} (moment : t.isMoment = true)
    (plain : t.time.nano < 1000000000) :
    dateOfText (isoText t) = .ok ⟨t.date, t.time.cut .millis⟩ := by
  have sendable : Sendable ⟨t.date, t.time.cut .millis⟩ := by
    refine ⟨isMoment_cut .millis moment, ?_, ?_⟩
    · show t.time.nano / 1000000 * 1000000 % 1000000 = 0
      omega
    · show t.time.nano / 1000000 * 1000000 < 1000000000
      omega
  rw [← isoText_cut t]
  exact dateOfText_isoText sendable

/-- What is written of a date that was read is settled: it reads as a date that is written the same
way. -/
theorem exists_dateOfText_isoText {s : String} {t : DateTime} (done : dateOfText s = .ok t) :
    ∃ again, dateOfText (isoText t) = .ok again ∧ isoText again = isoText t :=
  ⟨⟨t.date, t.time.cut .millis⟩,
    dateOfText_isoText_of_plain (isMoment_of_dateOfText done) (nano_of_dateOfText done),
    isoText_cut t⟩

theorem isDateForm_isoText_of_leap {t : DateTime} (moment : t.isMoment = true)
    (leap : 1000000000 ≤ t.time.nano) : isDateForm (isoText t).toList = false := by
  have bounded := t.time.nano_lt
  have last : t.time.second % 60 = 59 := t.time.isTime.2.2 leap
  have sixty : t.time.second % 60 + t.time.nano / billion = 60 := by
    have once : t.time.nano / 1000000000 = 1 := by omega
    show t.time.second % 60 + t.time.nano / 1000000000 = 60
    omega
  obtain ⟨-, valid, dated⟩ := observable_utc moment
  have front := readFixedYear_yearText (year_natAbs_lt dated)
    (OffsetDateTime.remainderText .millis true ⟨t, 0⟩)
  rw [← rfc3339_eq] at front
  have spelled := OffsetDateTime.spelled_remainderText .millis true valid
  refine Bool.eq_false_iff.mpr fun form => ?_
  rw [isoText, String.toList_ofList] at form
  have low := second_of_isDateForm form front spelled
  simp only [OffsetDateTime.remainder, wallClock_utc, sixty] at low
  exact absurd low (by decide)

theorem isMoment_of_trustDate {s : String} {t : DateTime} (done : trustDate (.string s) = .date t) :
    t.isMoment = true := by
  simp only [trustDate] at done
  split at done
  · next found =>
    obtain rfl := Value.date.inj done
    exact (observable_of_readRfc3339 found).moment
  · simp at done

/-- A date that was read, checked or trusted, is written as a text that reads as the same date cut to
milliseconds, unless it is a leap second: the text of one is refused. A checked date is none. So a
date is read back as it was exactly if it is of whole milliseconds and no leap second. -/
theorem reread_date {s : String} {t : DateTime}
    (read : dateOfText s = .ok t ∨ trustDate (.string s) = .date t) :
    (dateOfText s = .ok t → t.time.nano < billion) ∧
      dateOfText (isoText t) =
        (if t.time.nano < billion then .ok ⟨t.date, t.time.cut .millis⟩
          else .error (.of (.invalidFormat "date" (isoText t)))) ∧
      (dateOfText (isoText t) = .ok t ↔ t.time.nano < billion ∧ t.time.nano % 1000000 = 0) := by
  have moment : t.isMoment = true := read.elim isMoment_of_dateOfText isMoment_of_trustDate
  have outcome : dateOfText (isoText t) =
      if t.time.nano < billion then .ok ⟨t.date, t.time.cut .millis⟩
        else .error (.of (.invalidFormat "date" (isoText t))) := by
    split
    · next plain => exact dateOfText_isoText_of_plain moment plain
    · next leap =>
      have form := isDateForm_isoText_of_leap moment (Nat.le_of_not_lt leap)
      simp only [dateOfText, form, Bool.false_eq_true, if_false]
  refine ⟨nano_of_dateOfText, outcome, ?_⟩
  rw [outcome]
  split
  · next plain =>
    have whole : t.time.nano / 1000000 * 1000000 = t.time.nano ↔ t.time.nano % 1000000 = 0 := by
      omega
    obtain ⟨date, ⟨second, nano, valid⟩⟩ := t
    simpa [plain, TimeOfDay.cut, Precision.cut] using whole
  · next leap => simp [leap]

private theorem exists_finer :
    ∃ t, dateOfText "2024-01-02T03:04:05.0069Z" = .ok t ∧ t.time.nano = 6900000 := by
  have nano : ((dateOfText "2024-01-02T03:04:05.0069Z").map (·.time.nano)).toOption =
      some 6900000 := rfl
  cases read : dateOfText "2024-01-02T03:04:05.0069Z" with
  | error e => simp [read, Except.map, Except.toOption] at nano
  | ok t => exact ⟨t, rfl, by simpa [read, Except.map, Except.toOption] using nano⟩

private theorem exists_leap :
    ∃ t, trustDate (.string "2016-12-31T23:59:60Z") = .date t ∧ t.time.nano = billion := by
  have nano : (readRfc3339? "2016-12-31T23:59:60Z".toList).map (·.utc.time.nano) =
      some billion := rfl
  obtain ⟨moment, read, second⟩ := Option.map_eq_some_iff.mp nano
  exact ⟨moment.utc, by simp only [trustDate, read], second⟩

theorem reread_date_finer :
    (∃ t, dateOfText "2024-01-02T03:04:05.0069Z" = .ok t ∧
      dateOfText (isoText t) = .ok ⟨t.date, t.time.cut .millis⟩) ∧
    ∃ t, trustDate (.string "2016-12-31T23:59:60Z") = .date t ∧
      dateOfText (isoText t) = .error (.of (.invalidFormat "date" (isoText t))) := by
  obtain ⟨t, read, nano⟩ := exists_finer
  obtain ⟨leap, trusted, second⟩ := exists_leap
  have finer := (reread_date (.inl read)).2.1
  have refused := (reread_date (.inr trusted)).2.1
  rw [if_pos (by rw [nano]; decide)] at finer
  rw [if_neg (by rw [second]; decide)] at refused
  exact ⟨⟨t, read, finer⟩, leap, trusted, refused⟩

/-- A date that was read need not be read back as it was, and a date that was trusted need not be read
back at all. -/
theorem reread_date_differs :
    (∃ t, dateOfText "2024-01-02T03:04:05.0069Z" = .ok t ∧ dateOfText (isoText t) ≠ .ok t) ∧
    ∃ t, trustDate (.string "2016-12-31T23:59:60Z") = .date t ∧
      ∀ again, dateOfText (isoText t) ≠ .ok again := by
  obtain ⟨t, read, nano⟩ := exists_finer
  obtain ⟨leap, trusted, second⟩ := exists_leap
  refine ⟨⟨t, read, fun again => ?_⟩, leap, trusted, fun again done => ?_⟩
  · rw [dateOfText_isoText_of_plain (isMoment_of_dateOfText read) (nano_of_dateOfText read)] at again
    have kept : t.time.nano / 1000000 * 1000000 = t.time.nano :=
      congrArg (fun t : DateTime => t.time.nano) (Except.ok.inj again)
    omega
  · have form := isDateForm_isoText_of_leap (isMoment_of_trustDate trusted) (Nat.le_of_eq second.symm)
    simp [dateOfText, form] at done

end WireSchema.Leaf
