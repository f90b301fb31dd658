import WireSchema.Calendar.ClockText
import WireSchema.Proofs.Calendar.DateTime
import WireSchema.Proofs.Text.Digits

/-!
Years, fractions and clocks are read back from their texts. What a precision leaves out is zero
afterwards.
-/

set_option autoImplicit false

namespace WireSchema.Calendar

open WireSchema.Text

/-- What stands next is neither a digit nor a point. -/
def EndsNumber (rest : List Char) : Prop :=
  rest.head?.all (fun c => !c.isDigit && c != '.') = true

theorem EndsNumber.stop {rest : List Char} (ends : EndsNumber rest) :
    rest.head?.all (fun c => !c.isDigit) = true := by
  cases rest with
  | nil => rfl
  | cons c rest =>
    simp only [EndsNumber, List.head?_cons, Option.all_some, Bool.and_eq_true] at ends
    simpa using ends.1

theorem Date.month_lt (d : Date) : d.month < 10 ^ 2 := by
  have := d.isDate.2.1
  omega

theorem Date.day_lt (d : Date) : d.day < 10 ^ 2 :=
  Nat.lt_of_le_of_lt d.day_le (by decide)

theorem exists_padded_cons {width : Nat} (positive : 0 < width) (n : Nat) :
    ∃ c more, padded width n = c :: more ∧ c.isDigit = true := by
  have length := le_length_padded width n
  have every := all_padded width n
  cases text : padded width n with
  | nil =>
    rw [text] at length
    exact absurd positive (Nat.not_lt.mpr length)
  | cons c more =>
    rw [text, List.all_cons, Bool.and_eq_true] at every
    exact ⟨c, more, rfl, every.1⟩

theorem readFixedYear_of_digit {c : Char} {more : List Char} (digit : c.isDigit = true) :
    readFixedYear? (c :: more) =
      (takeNat? 4 (c :: more)).map fun (n, rest) => ((n : Int), rest) := by
  unfold readFixedYear?
  split
  · next same =>
    obtain ⟨rfl, -⟩ := List.cons.inj same
    exact absurd digit (by decide)
  · next same =>
    obtain ⟨rfl, -⟩ := List.cons.inj same
    exact absurd digit (by decide)
  · rfl

theorem readFixedYear_yearText {year : Int} (small : year.natAbs < 1000000) (rest : List Char) :
    readFixedYear? (yearText 6 year ++ rest) = some (year, rest) := by
  unfold yearText
  split
  · next range =>
    obtain ⟨c, more, text, digit⟩ := exists_padded_cons (by decide : 0 < 4) year.toNat
    have read := takeNat_padded (by decide : 0 < 4) (by omega : year.toNat < 10 ^ 4) rest
    rw [text, List.cons_append] at read ⊢
    rw [readFixedYear_of_digit digit, read, Option.map_some]
    exact congrArg (fun n => some (n, rest)) (Int.toNat_of_nonneg range.1)
  · next range =>
    have read := takeNat_padded (by decide : 0 < 6) (by omega : year.natAbs < 10 ^ 6) rest
    split
    · next negative =>
      show (takeNat? 6 (padded 6 year.natAbs ++ rest)).map _ = _
      rw [read, Option.map_some]
      exact congrArg (fun n => some (n, rest)) (by omega : -(year.natAbs : Int) = year)
    · next positive =>
      show (takeNat? 6 (padded 6 year.natAbs ++ rest)).map _ = _
      rw [read, Option.map_some]
      exact congrArg (fun n => some (n, rest)) (by omega : (year.natAbs : Int) = year)

def Precision.cut (precision : Precision) (nano : Nat) : Nat :=
  match precision with
  | .seconds => nano / 1000000000 * 1000000000
  | .millis => nano / 1000000 * 1000000
  | .micros => nano / 1000 * 1000
  | .nanos | .auto => nano

/-- A fraction of a second as it is spelled, and its nanoseconds. There is none, or a point and
digits. -/
inductive SpellsFraction : List Char → Nat → Prop where
  | missing : SpellsFraction [] 0
  | digits {ds : List Char} : ds ≠ [] → ds.all Char.isDigit = true →
      SpellsFraction ('.' :: ds) (fractionNanos ds)

theorem SpellsFraction.lt {text : List Char} {nano : Nat} (spells : SpellsFraction text nano) :
    nano < billion := by
  cases spells with
  | missing => exact (by decide : 0 < 1000000000)
  | @digits ds _ every =>
    have kept : (ds.take 9).all Char.isDigit = true :=
      List.all_eq_true.mpr fun c member =>
        List.all_eq_true.mp every c (List.mem_of_mem_take member)
    exact fraction_lt kept (List.length_take_le 9 ds)

theorem SpellsFraction.read {text : List Char} {nano : Nat} (spells : SpellsFraction text nano)
    {rest : List Char} (ends : EndsNumber rest) :
    readFraction? (text ++ rest) = some (nano, rest) := by
  cases spells with
  | missing =>
    unfold readFraction?
    split
    · next same =>
      rw [List.nil_append] at same
      simp [EndsNumber, same] at ends
    · rfl
  | @digits ds there every =>
    simp only [List.cons_append, readFraction?, spanDigits_append every ends.stop, if_neg there]

theorem exists_spellsFraction {cs rest : List Char} {nano : Nat}
    (done : readFraction? cs = some (nano, rest)) :
    ∃ text, SpellsFraction text nano ∧ cs = text ++ rest := by
  unfold readFraction? at done
  split at done
  · next more =>
    cases cut : spanDigits more with
    | mk ds left =>
      obtain ⟨rfl, every, -⟩ := spanDigits_eq cut
      simp only [cut, Option.ite_none_left_eq_some, Option.some.injEq, Prod.mk.injEq] at done
      obtain ⟨there, rfl, rfl⟩ := done
      exact ⟨'.' :: ds, .digits there every, rfl⟩
  · obtain ⟨rfl, rfl⟩ := Prod.mk.inj (Option.some.inj done)
    exact ⟨[], .missing, rfl⟩

private theorem spellsFraction_padded {width n : Nat} (positive : 0 < width) (most : width ≤ 9)
    (small : n < 10 ^ width) : SpellsFraction ('.' :: padded width n) (n * 10 ^ (9 - width)) := by
  have length := length_padded positive small
  have there : padded width n ≠ [] := List.ne_nil_of_length_pos (by omega)
  have nanos : fractionNanos (padded width n) = n * 10 ^ (9 - width) := by
    rw [fractionNanos, List.take_of_length_le (by omega), ofDigits_padded, length]
    rfl
  have spells := SpellsFraction.digits there (all_padded width n)
  rwa [nanos] at spells

theorem spellsFraction_fractionText (precision : Precision) {nano : Nat} (small : nano < billion) :
    SpellsFraction (fractionText precision nano) (precision.cut nano) := by
  have billion : nano < 1000000000 := small
  have millis : SpellsFraction ('.' :: padded 3 (nano / 1000000)) (nano / 1000000 * 1000000) :=
    spellsFraction_padded (by decide) (by decide) (by omega)
  have micros : SpellsFraction ('.' :: padded 6 (nano / 1000)) (nano / 1000 * 1000) :=
    spellsFraction_padded (by decide) (by decide) (by omega)
  have nanos : SpellsFraction ('.' :: padded 9 nano) nano := by
    have spells := spellsFraction_padded (by decide : 0 < 9) (by decide) (by omega : nano < 10 ^ 9)
    simpa using spells
  cases precision with
  | seconds =>
    have nothing : nano / 1000000000 * 1000000000 = 0 := by omega
    simp only [Precision.cut, fractionText, nothing]
    exact .missing
  | millis => exact millis
  | micros => exact micros
  | nanos => exact nanos
  | auto =>
    simp only [Precision.cut, fractionText]
    by_cases zero : nano = 0
    · rw [if_pos zero, zero]
      exact .missing
    · rw [if_neg zero]
      by_cases wholeMillis : nano % 1000000 = 0
      · rw [if_pos wholeMillis]
        rwa [Nat.div_mul_cancel (Nat.dvd_of_mod_eq_zero wholeMillis)] at millis
      · rw [if_neg wholeMillis]
        by_cases wholeMicros : nano % 1000 = 0
        · rw [if_pos wholeMicros]
          rwa [Nat.div_mul_cancel (Nat.dvd_of_mod_eq_zero wholeMicros)] at micros
        · rw [if_neg wholeMicros]
          exact nanos

theorem Precision.cut_le (precision : Precision) (nano : Nat) : precision.cut nano ≤ nano := by
  cases precision with
  | seconds => exact Nat.div_mul_le_self _ _
  | millis => exact Nat.div_mul_le_self _ _
  | micros => exact Nat.div_mul_le_self _ _
  | nanos => exact Nat.le_refl _
  | auto => exact Nat.le_refl _

theorem Precision.cut_mod (precision : Precision) (nano : Nat) :
    precision.cut nano = nano / 1000000000 * 1000000000 + precision.cut (nano % 1000000000) := by
  cases precision with
  | seconds => simp only [Precision.cut]; omega
  | millis => simp only [Precision.cut]; omega
  | micros => simp only [Precision.cut]; omega
  | nanos => simp only [Precision.cut]; omega
  | auto => simp only [Precision.cut]; omega

def TimeOfDay.cut (precision : Precision) (t : TimeOfDay) : TimeOfDay where
  second := t.second
  nano := precision.cut t.nano
  isTime := by
    have less := precision.cut_le t.nano
    obtain ⟨inDay, bounded, leap⟩ := t.isTime
    exact ⟨inDay, Nat.lt_of_le_of_lt less bounded, fun late => leap (Nat.le_trans late less)⟩

theorem TimeOfDay.of?_eq_some_iff {second nano : Nat} {t : TimeOfDay} :
    of? second nano = some t ↔ t.second = second ∧ t.nano = nano := by
  constructor
  · intro found
    unfold of? at found
    split at found
    · exact Option.some.inj found ▸ ⟨rfl, rfl⟩
    · simp at found
  · rintro ⟨rfl, rfl⟩
    exact of?_eq_some t

/-- Hour, minute, second and fraction in range are a time of day. Second 60 is a leap second, which
is held as second 59 with a billion nanoseconds more. -/
theorem timeOf_eq_some_iff {hour minute second fraction : Nat} {t : TimeOfDay} :
    timeOf? hour minute second fraction = some t ↔
      (hour < 24 ∧ minute < 60 ∧ second ≤ 60) ∧
        t.second = hour * 3600 + minute * 60 + min second 59 ∧
        t.nano = (if second = 60 then billion else 0) + fraction := by
  unfold timeOf?
  by_cases fits : hour < 24 ∧ minute < 60 ∧ second ≤ 60
  · rw [if_pos fits]
    by_cases leap : second = 60
    · have least : min second 59 = 59 := by omega
      rw [if_pos leap, if_pos leap, TimeOfDay.of?_eq_some_iff, least]
      exact (and_iff_right fits).symm
    · have least : min second 59 = second := by omega
      rw [if_neg leap, if_neg leap, TimeOfDay.of?_eq_some_iff, least, Nat.zero_add]
      exact (and_iff_right fits).symm
  · rw [if_neg fits]
    simp [fits]

theorem timeOf_clock (precision : Precision) (t : TimeOfDay) :
    timeOf? (t.second / 3600) (t.second / 60 % 60) (t.second % 60 + t.nano / billion)
      (precision.cut (t.nano % billion)) = some (t.cut precision) := by
  obtain ⟨inDay, bounded, leap⟩ := t.isTime
  have inDay : t.second < 86400 := inDay
  have bounded : t.nano < 2 * 1000000000 := bounded
  have leap : 1000000000 ≤ t.nano → t.second % 60 = 59 := leap
  have whole : precision.cut t.nano =
      t.nano / 1000000000 * billion + precision.cut (t.nano % billion) := precision.cut_mod t.nano
  rw [timeOf_eq_some_iff]
  show _ ∧ t.second = _ ∧ precision.cut t.nano = _
  by_cases late : 1000000000 ≤ t.nano
  · have last := leap late
    have once : t.nano / 1000000000 = 1 := by omega
    have sixty : t.second % 60 + t.nano / billion = 60 := by
      show t.second % 60 + t.nano / 1000000000 = 60
      omega
    rw [if_pos sixty, sixty, whole, once, Nat.one_mul]
    exact ⟨⟨by omega, by omega, Nat.le_refl 60⟩, by omega, rfl⟩
  · have none : t.nano / 1000000000 = 0 := by omega
    have plain : t.second % 60 + t.nano / billion = t.second % 60 := by
      show t.second % 60 + t.nano / 1000000000 = t.second % 60
      omega
    rw [plain, if_neg (by omega), whole, none, Nat.zero_mul]
    exact ⟨⟨by omega, by omega, by omega⟩, by omega, rfl⟩

end WireSchema.Calendar
