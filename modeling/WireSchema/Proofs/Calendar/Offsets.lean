import WireSchema.Proofs.Calendar.PlainText
import WireSchema.Calendar.Temporal

/-!
One moment seen at two offsets is written in two ways. A shift moves a clock to a later day and time
the further east it goes, so different offsets show different clocks; and the text of a moment shows
the whole clock.
-/

set_option autoImplicit false

namespace WireSchema.Calendar

open WireSchema.Text

namespace Date

/-- A number that grows with every day, though not evenly. -/
def rank (d : Date) : Int :=
  d.year * 372 + d.month * 31 + d.day

theorem rank_lt_next (d : Date) : d.rank < d.next.rank := by
  have most := d.day_le
  obtain ⟨-, twelve, first, -⟩ := d.isDate
  unfold next
  split
  · simp only [rank]
    omega
  · split
    · simp only [rank]
      omega
    · simp only [rank]
      omega

theorem rank_previous_lt (d : Date) : d.previous.rank < d.rank := by
  have later := d.previous.rank_lt_next
  rwa [next_previous] at later

end Date

private theorem shift_cases {date : Date} {second : Nat} {offset : Int} (inDay : second < 86400)
    (small : offset.natAbs < 86400) :
    let clock := DateTime.shift date second offset
    (clock.1 = date.previous ∧ second + offset = clock.2 - 86400) ∨
      (clock.1 = date ∧ second + offset = clock.2) ∨
        (clock.1 = date.next ∧ second + offset = clock.2 + 86400) := by
  by_cases before : second + offset < 0
  · rw [DateTime.shift_before before]
    exact .inl ⟨rfl, by simp only; omega⟩
  · by_cases within : second + offset < 86400
    · rw [DateTime.shift_within (by omega) within]
      exact .inr (.inl ⟨rfl, by simp only; omega⟩)
    · rw [DateTime.shift_after (by omega)]
      exact .inr (.inr ⟨rfl, by simp only; omega⟩)

theorem DateTime.shift_injective {date : Date} {second : Nat} {east west : Int}
    (inDay : second < 86400) (small : east.natAbs < 86400) (small' : west.natAbs < 86400)
    (same : shift date second east = shift date second west) : east = west := by
  have later := date.rank_lt_next
  have earlier := date.rank_previous_lt
  have ranks := congrArg (fun clock : Date × Nat => clock.1.rank) same
  have seconds := congrArg Prod.snd same
  rcases @shift_cases date second east inDay small with ⟨left, _⟩ | ⟨left, _⟩ | ⟨left, _⟩
  all_goals
    rcases @shift_cases date second west inDay small' with ⟨right, _⟩ | ⟨right, _⟩ | ⟨right, _⟩
    all_goals
      simp only [left, right] at ranks
      omega

theorem padded_two_inj {m n : Nat} (small : m < 10 ^ 2) (small' : n < 10 ^ 2) {rest more : List Char}
    (same : padded 2 m ++ rest = padded 2 n ++ more) : m = n ∧ rest = more := by
  have first := takeNat_padded (by decide : 0 < 2) small rest
  rw [same, takeNat_padded (by decide : 0 < 2) small' more] at first
  obtain ⟨rfl, rfl⟩ := Prod.mk.inj (Option.some.inj first)
  exact ⟨rfl, rfl⟩

theorem yearText_inj {width : Nat} (positive : 0 < width) {year other : Int} {rest more : List Char}
    (same : yearText width year ++ '-' :: rest = yearText width other ++ '-' :: more) :
    year = other ∧ rest = more := by
  have read := readFreeYear_yearText positive year rest
  rw [same, readFreeYear_yearText positive other more] at read
  obtain ⟨rfl, tails⟩ := Prod.mk.inj (Option.some.inj read)
  exact ⟨rfl, (List.cons.inj tails).2.symm⟩

theorem wallClock_of_rfc3339 {precision : Precision} {zulu : Bool} {t u : OffsetDateTime}
    (small : t.offset.natAbs < 86400) (small' : u.offset.natAbs < 86400)
    (nano : t.utc.time.nano = u.utc.time.nano)
    (same : rfc3339 precision zulu t = rfc3339 precision zulu u) : t.wallClock = u.wallClock := by
  have inDay : t.wallClock.2 < 86400 := DateTime.shift_second_lt t.utc.time.second_lt small
  have inDay' : u.wallClock.2 < 86400 := DateTime.shift_second_lt u.utc.time.second_lt small'
  have bounded : t.utc.time.nano / 1000000000 < 2 := by
    have := t.utc.time.nano_lt
    omega
  have sixty {second : Nat} : second % 60 + t.utc.time.nano / billion < 10 ^ 2 := by
    show second % 60 + t.utc.time.nano / 1000000000 < 100
    omega
  rw [rfc3339_eq, rfc3339_eq] at same
  simp only [OffsetDateTime.remainderText, clockText, List.append_assoc, List.cons_append,
    ← nano] at same
  obtain ⟨year, rest⟩ := yearText_inj (by decide : 0 < 6) same
  obtain ⟨month, rest⟩ := padded_two_inj t.wallClock.1.month_lt u.wallClock.1.month_lt rest
  obtain ⟨day, rest⟩ := padded_two_inj t.wallClock.1.day_lt u.wallClock.1.day_lt
    (List.cons.inj rest).2
  obtain ⟨hour, rest⟩ := padded_two_inj (by omega) (by omega) (List.cons.inj rest).2
  obtain ⟨minute, rest⟩ := padded_two_inj (by omega) (by omega) (List.cons.inj rest).2
  obtain ⟨second, -⟩ := padded_two_inj sixty sixty (List.cons.inj rest).2
  exact Prod.ext (Date.ext_fields year month day) (by omega)

/-- A moment in a zone is written as its offset shows it: two that differ in nothing else are written
in the same way only if they do not differ at all. -/
theorem Zoned.text_inj {x y : Zoned} (small : x.moment.offset.natAbs < 86400)
    (small' : y.moment.offset.natAbs < 86400) (moment : x.moment.utc = y.moment.utc)
    (zone : x.zone = y.zone) : x.text = y.text ↔ x.moment.offset = y.moment.offset := by
  obtain ⟨⟨utc, east⟩, name⟩ := x
  obtain ⟨⟨utc', west⟩, name'⟩ := y
  obtain rfl : utc = utc' := moment
  obtain rfl : name = name' := zone
  constructor
  · intro same
    simp only [Zoned.text, List.append_assoc] at same
    have texts := List.append_cancel_right same
    exact DateTime.shift_injective utc.time.second_lt small small'
      (wallClock_of_rfc3339 small small' rfl texts)
  · intro same
    obtain rfl : east = west := same
    rfl

end WireSchema.Calendar
