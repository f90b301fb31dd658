import WireSchema.Calendar.DateTime

/-!
The neighbours of a day undo each other, and so do shifts of a clock by opposite offsets. Moments lie
between a first and a last one.
-/

set_option autoImplicit false

namespace WireSchema.Calendar

namespace Date

theorem ext_fields {d e : Date} (year : d.year = e.year) (month : d.month = e.month)
    (day : d.day = e.day) : d = e := by
  cases d
  cases e
  simp_all

theorem of?_eq_some {year : Int} {month day : Nat} (d : Date) (sameYear : d.year = year)
    (sameMonth : d.month = month) (sameDay : d.day = day) : of? year month day = some d := by
  subst sameYear sameMonth sameDay
  rw [of?, dif_pos d.isDate]

theorem eq_of_of? {year : Int} {month day : Nat} {d : Date} (found : of? year month day = some d) :
    d.year = year ∧ d.month = month ∧ d.day = day := by
  unfold of? at found
  split at found
  · obtain rfl := Option.some.inj found
    exact ⟨rfl, rfl, rfl⟩
  · simp at found

theorem day_le (d : Date) : d.day ≤ 31 := by
  have least := d.isDate.2.2.2
  have most : daysIn d.year d.month ≤ 31 := by
    unfold daysIn
    repeat' split
    all_goals omega
  exact Nat.le_trans least most

theorem daysIn_december (year : Int) : daysIn year 12 = 31 := rfl

theorem previous_next (d : Date) : d.next.previous = d := by
  have valid := d.isDate
  unfold next
  split
  · unfold previous
    have later : 1 < d.day + 1 := by have := valid.2.2.1; omega
    rw [dif_pos (by exact later)]
    exact ext_fields rfl rfl (by simp)
  · next last =>
    have full : d.day = daysIn d.year d.month := by have := valid.2.2.2; omega
    split
    · next more =>
      unfold previous
      have second : 1 < d.month + 1 := by have := valid.1; omega
      rw [dif_neg (by simp), dif_pos (by exact second)]
      exact ext_fields rfl (by simp) (by simp [full])
    · next december =>
      have twelve : d.month = 12 := by have := valid.2.1; omega
      unfold previous
      rw [dif_neg (by simp), dif_neg (by simp)]
      exact ext_fields (by simp) twelve.symm (by rw [full, twelve, daysIn_december])

theorem next_previous (d : Date) : d.previous.next = d := by
  have valid := d.isDate
  unfold previous
  split
  · next later =>
    unfold next
    have room : d.day - 1 < daysIn d.year d.month := by have := valid.2.2.2; omega
    rw [dif_pos (by exact room)]
    exact ext_fields rfl rfl (by simp only; omega)
  · next first =>
    have one : d.day = 1 := by have := valid.2.2.1; omega
    split
    · next later =>
      unfold next
      have room : d.month - 1 < 12 := by have := valid.2.1; omega
      rw [dif_neg (by simp), dif_pos (by exact room)]
      exact ext_fields rfl (by simp only; omega) one.symm
    · next january =>
      have month : d.month = 1 := by have := valid.1; omega
      unfold next
      rw [dif_neg (by simp [daysIn_december]), dif_neg (by simp)]
      exact ext_fields (by simp) month.symm one.symm

end Date

namespace TimeOfDay

theorem of?_eq_some (t : TimeOfDay) : of? t.second t.nano = some t := by
  rw [of?, dif_pos t.isTime]

theorem second_lt (t : TimeOfDay) : t.second < 86400 :=
  t.isTime.1

theorem nano_lt (t : TimeOfDay) : t.nano < 2000000000 :=
  t.isTime.2.1

end TimeOfDay

namespace DateTime

variable {date : Date} {second : Nat} {offset : Int}

theorem shift_before (before : second + offset < 0) :
    shift date second offset = (date.previous, (second + offset + 86400).toNat) := by
  unfold shift
  exact if_pos before

theorem shift_within (start : 0 ≤ second + offset) (stop : second + offset < 86400) :
    shift date second offset = (date, (second + offset).toNat) := by
  unfold shift
  rw [if_neg (by omega)]
  exact if_pos stop

theorem shift_after (after : 86400 ≤ second + offset) :
    shift date second offset = (date.next, (second + offset - 86400).toNat) := by
  unfold shift
  rw [if_neg (by omega)]
  exact if_neg (Int.not_lt.mpr after)

theorem shift_shift_neg (inDay : second < 86400) (small : offset.natAbs < 86400) :
    shift (shift date second offset).1 (shift date second offset).2 (-offset) = (date, second) := by
  by_cases before : second + offset < 0
  · rw [shift_before before, shift_after (by omega), Date.next_previous]
    exact congrArg (Prod.mk date) (by omega)
  · by_cases within : second + offset < 86400
    · have start : 0 ≤ second + offset := by omega
      rw [shift_within start within, shift_within (by omega) (by omega)]
      exact congrArg (Prod.mk date) (by omega)
    · have after : 86400 ≤ second + offset := by omega
      rw [shift_after after, shift_before (by omega), Date.previous_next]
      exact congrArg (Prod.mk date) (by omega)

theorem shift_second_lt (inDay : second < 86400) (small : offset.natAbs < 86400) :
    (shift date second offset).2 < 86400 := by
  by_cases before : second + offset < 0
  · rw [shift_before before]
    show (second + offset + 86400).toNat < 86400
    omega
  · by_cases within : second + offset < 86400
    · rw [shift_within (by omega) within]
      show (second + offset).toNat < 86400
      omega
    · rw [shift_after (by omega)]
      show (second + offset - 86400).toNat < 86400
      omega

theorem shift_second_mod (whole : offset % 60 = 0) (small : offset.natAbs < 86400) :
    (shift date second offset).2 % 60 = second % 60 := by
  by_cases before : second + offset < 0
  · rw [shift_before before]
    show (second + offset + 86400).toNat % 60 = second % 60
    omega
  · by_cases within : second + offset < 86400
    · rw [shift_within (by omega) within]
      show (second + offset).toNat % 60 = second % 60
      omega
    · rw [shift_after (by omega)]
      show (second + offset - 86400).toNat % 60 = second % 60
      omega

theorem shift_zero (inDay : second < 86400) : shift date second 0 = (date, second) := by
  rw [shift_within (by omega) (by omega)]
  exact congrArg (Prod.mk date) (by omega)

end DateTime

theorem inRange_iff {d : Date} : d.inRange = true ↔ firstYear ≤ d.year ∧ d.year ≤ lastYear := by
  simp [Date.inRange]

theorem inRange_of_isMoment {t : DateTime} (moment : t.isMoment = true) :
    t.date.inRange = true := by
  simp only [DateTime.isMoment, Bool.and_eq_true] at moment
  exact moment.1

namespace DateTime

def NotAfter (t u : DateTime) : Prop :=
  t.date.year < u.date.year ∨ t.date.year = u.date.year ∧ (t.date.month < u.date.month ∨
    t.date.month = u.date.month ∧ (t.date.day < u.date.day ∨ t.date.day = u.date.day ∧
      (t.time.second < u.time.second ∨ t.time.second = u.time.second ∧ t.time.nano ≤ u.time.nano)))

instance (t u : DateTime) : Decidable (NotAfter t u) :=
  inferInstanceAs (Decidable (_ ∨ _))

def earliest : DateTime :=
  ⟨⟨firstYear, 1, 1, by decide⟩, ⟨0, 0, by decide⟩⟩

def latest : DateTime :=
  ⟨⟨lastYear, 12, 31, by decide⟩, ⟨86399, 999999999, by decide⟩⟩

theorem notAfter_earliest {t : DateTime} : earliest.NotAfter t ↔ firstYear ≤ t.date.year := by
  obtain ⟨least, -, first, -⟩ := t.date.isDate
  simp only [NotAfter, earliest]
  omega

theorem notAfter_latest {t : DateTime} : t.NotAfter latest ↔ t.date.year ≤ lastYear ∧
    ¬ (t.date.year = lastYear ∧ t.date.month = 12 ∧ t.date.day = 31 ∧
      t.time.second + 1 = 86400 ∧ 1000000000 ≤ t.time.nano) := by
  have months := t.date.isDate.2.1
  have days := t.date.day_le
  have seconds := t.time.second_lt
  simp only [NotAfter, latest]
  omega

theorem isMoment_iff {t : DateTime} :
    t.isMoment = true ↔ earliest.NotAfter t ∧ t.NotAfter latest := by
  rw [notAfter_earliest, notAfter_latest, isMoment]
  simp only [Bool.and_eq_true, Bool.not_eq_true', ← Bool.not_eq_true, beq_iff_eq, decide_eq_true_eq,
    inRange_iff, and_assoc]
  exact Iff.rfl

end DateTime

end WireSchema.Calendar
