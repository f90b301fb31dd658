import Mathlib.Data.List.TakeWhile
import WireSchema.Calendar.Partial
import WireSchema.Calendar.PlainText
import WireSchema.Proofs.Calendar.Rfc3339
import WireSchema.Proofs.Text.Blank

/-!
Dates and times without an offset, and dates of which a part is left open, are read back from their
texts.
-/

set_option autoImplicit false

namespace WireSchema.Calendar

open WireSchema.Text

theorem trimStart_of_digit {c : Char} {more : List Char} (digit : c.isDigit = true) :
    trimStart (c :: more) = c :: more := by
  rw [trimStart, List.dropWhile_cons_of_neg (by simp [isBlank_of_isDigit digit])]

theorem trimStart_padded {width : Nat} (positive : 0 < width) (n : Nat) (rest : List Char) :
    trimStart (padded width n ++ rest) = padded width n ++ rest := by
  obtain ⟨c, more, text, digit⟩ := exists_padded_cons positive n
  rw [text, List.cons_append, trimStart_of_digit digit]

theorem readField_padded {width n : Nat} (positive : 0 < width) (small : n < 10 ^ width)
    (rest : List Char) : readField? width (padded width n ++ rest) = some (n, rest) := by
  have length := length_padded positive small
  have front : (padded width n ++ rest).take width = padded width n := by
    rw [List.take_append_of_le_length (by omega), List.take_of_length_le (by omega)]
  have back : (padded width n ++ rest).drop width = rest := by
    rw [List.drop_append_of_le_length (by omega), List.drop_of_length_le (by omega),
      List.nil_append]
  have digits : (padded width n).takeWhile Char.isDigit = padded width n :=
    List.takeWhile_eq_self_iff.mpr (List.all_eq_true.mp (all_padded width n))
  obtain ⟨c, more, text, -⟩ := exists_padded_cons positive n
  have some : padded width n ≠ [] := by simp [text]
  simp only [readField?, trimStart_padded positive, front, digits, if_neg some, ofDigits_padded,
    length, back]

private theorem readFreeYear_of_digit {c : Char} {more : List Char} (digit : c.isDigit = true) :
    readFreeYear? (c :: more) =
      (readField? 4 (c :: more)).map fun (n, rest) => ((n : Int), rest) := by
  unfold readFreeYear?
  rw [trimStart_of_digit digit]
  split
  · next same =>
    obtain ⟨rfl, -⟩ := List.cons.inj same
    exact absurd digit (by decide)
  · next same =>
    obtain ⟨rfl, -⟩ := List.cons.inj same
    exact absurd digit (by decide)
  · rfl

theorem readFreeYear_yearText {width : Nat} (positive : 0 < width) (year : Int) (rest : List Char) :
    readFreeYear? (yearText width year ++ '-' :: rest) = some (year, '-' :: rest) := by
  unfold yearText
  split
  · next range =>
    obtain ⟨c, more, text, digit⟩ := exists_padded_cons (by decide : 0 < 4) year.toNat
    have read := readField_padded (by decide : 0 < 4) (by omega : year.toNat < 10 ^ 4) ('-' :: rest)
    rw [text, List.cons_append] at read ⊢
    rw [readFreeYear_of_digit digit, read, Option.map_some]
    exact congrArg (fun n => some (n, '-' :: rest)) (Int.toNat_of_nonneg range.1)
  · next range =>
    obtain ⟨c, more, text, -⟩ := exists_padded_cons positive year.natAbs
    have some : padded width year.natAbs ≠ [] := by simp [text]
    have cut : spanDigits (padded width year.natAbs ++ '-' :: rest) =
        (padded width year.natAbs, '-' :: rest) := spanDigits_append (all_padded width _) rfl
    have signed : ∀ sign, isBlank sign = false →
        trimStart (sign :: padded width year.natAbs ++ '-' :: rest) =
          sign :: (padded width year.natAbs ++ '-' :: rest) := by
      intro sign solid
      rw [trimStart, List.cons_append, List.dropWhile_cons_of_neg (by simp [solid])]
    split
    · next negative =>
      simp only [readFreeYear?, signed '-' (by decide), cut, if_neg some, ofDigits_padded]
      exact congrArg (fun n => Option.some (n, '-' :: rest)) (by omega : -(year.natAbs : Int) = year)
    · next positive =>
      simp only [readFreeYear?, signed '+' (by decide), cut, if_neg some, ofDigits_padded]
      exact congrArg (fun n => Option.some (n, '-' :: rest)) (by omega : (year.natAbs : Int) = year)

theorem readDatePart_dateText {d : Date} (ranged : d.inRange = true) (rest : List Char) :
    readDatePart? (dateText d ++ rest) = some (d, rest) := by
  have year := readFreeYear_yearText (by decide : 0 < 4) d.year
  have month := readField_padded (by decide : 0 < 2) d.month_lt
  have day := readField_padded (by decide : 0 < 2) d.day_lt
  have found := Date.of?_eq_some d rfl rfl rfl
  simp only [readDatePart?, dateText, List.append_assoc, List.cons_append, year, month, day, found,
    dropChar_self, ranged, Option.bind_eq_bind, Option.bind_some, if_true]

theorem readDate_dateText {d : Date} (ranged : d.inRange = true) :
    readDate? (dateText d) = some d := by
  have part := readDatePart_dateText ranged []
  rw [List.append_nil] at part
  simp only [readDate?, part, Option.bind_eq_bind, Option.bind_some, if_true]

theorem TimeOfDay.cut_auto (t : TimeOfDay) : t.cut .auto = t := rfl

theorem readTime_timeText (t : TimeOfDay) : readTime? (timeText t) = some t := by
  have inDay := t.second_lt
  have bounded := t.nano_lt
  have clock := timeOf_clock .auto t
  rw [t.cut_auto] at clock
  have fraction := (spellsFraction_fractionText .auto
    (Nat.mod_lt t.nano (by decide : 0 < billion))).read (by rfl : EndsNumber [])
  rw [List.append_nil] at fraction
  have sixty : t.second % 60 + t.nano / billion < 10 ^ 2 := by
    have : t.nano / 1000000000 < 2 := by omega
    show t.second % 60 + t.nano / 1000000000 < 100
    omega
  have hours := readField_padded (by decide : 0 < 2) (by omega : t.second / 3600 < 10 ^ 2)
  have minutes := readField_padded (by decide : 0 < 2) (by omega : t.second / 60 % 60 < 10 ^ 2)
  have seconds := readField_padded (by decide : 0 < 2) sixty
  simp only [readTime?, readTimePart?, timeText, clockText, List.append_assoc, List.cons_append,
    hours, minutes, seconds, fraction, clock, dropChar_self, Option.bind_eq_bind, Option.bind_some,
    if_true]

theorem readDateTime_dateTimeText {t : DateTime} (ranged : t.date.inRange = true) :
    readDateTime? (dateTimeText t) = some t := by
  have date := readDatePart_dateText ranged ('T' :: timeText t.time)
  have time : readTimePart? (timeText t.time) = some t.time := readTime_timeText t.time
  simp only [readDateTime?, dateTimeText, date, dropChar_self, time, Option.bind_eq_bind,
    Option.bind_some]
  rfl

structure YearMonth.Valid (m : YearMonth) : Prop where
  least : 1 ≤ m.month
  greatest : m.month ≤ 12
  first : firstYear ≤ m.year
  last : m.year ≤ lastYear

theorem YearMonth.read_text {m : YearMonth} (valid : m.Valid) : read? m.text = some m := by
  obtain ⟨least, greatest, first, last⟩ := valid
  have small : m.year.natAbs < 1000000 := by
    simp only [firstYear, lastYear] at first last
    omega
  have year := readFixedYear_yearText small ('-' :: padded 2 m.month)
  have month := takeNat_padded (by decide : 0 < 2) (by omega : m.month < 10 ^ 2) []
  rw [List.append_nil] at month
  have isDate : IsDate m.year m.month 1 := ⟨least, greatest, Nat.le_refl 1, daysIn_pos _ _⟩
  have begins : Date.of? m.year m.month 1 = some ⟨m.year, m.month, 1, isDate⟩ :=
    dif_pos isDate
  have ranged : Date.inRange ⟨m.year, m.month, 1, isDate⟩ = true := inRange_iff.mpr ⟨first, last⟩
  simp only [read?, text, year, dropChar_self, month, begins, ranged, Option.bind_eq_bind,
    Option.bind_some, and_self, if_true]

def MonthDay.Valid (d : MonthDay) : Prop :=
  IsDate 1972 d.month d.day

theorem MonthDay.read_text {d : MonthDay} (valid : d.Valid) : read? d.text = some d := by
  have months : d.month < 10 ^ 2 := by have := valid.2.1; omega
  have days : d.day < 10 ^ 2 := Date.day_lt ⟨1972, d.month, d.day, valid⟩
  have month := takeNat_padded (by decide : 0 < 2) months ('-' :: padded 2 d.day)
  have day := takeNat_padded (by decide : 0 < 2) days []
  rw [List.append_nil] at day
  have found : Date.of? 1972 d.month d.day = some ⟨1972, d.month, d.day, valid⟩ := dif_pos valid
  obtain ⟨c, more, text, digit⟩ := exists_padded_cons (by decide : 0 < 2) d.month
  unfold read? MonthDay.text
  rw [text, List.cons_append] at month ⊢
  split
  · next same =>
    obtain ⟨rfl, -⟩ := List.cons.inj same
    exact absurd digit (by decide)
  · simp only [month, dropChar_self, day, found, Option.bind_eq_bind, Option.bind_some, if_true]

end WireSchema.Calendar
