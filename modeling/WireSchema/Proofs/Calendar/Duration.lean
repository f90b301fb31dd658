import Mathlib.Data.List.TakeWhile
import WireSchema.Calendar.Duration
import WireSchema.Proofs.Text.Digits

/-!
The texts of durations. A spelling says which components are there and with which digits; a text is
read exactly if it is the text of a sound spelling, as the duration that is spelled. What a duration
is written as is the text of a spelling of it, so it is read back.
-/

set_option autoImplicit false

namespace WireSchema.Calendar.Duration

open WireSchema.Text

structure Valid (d : Duration) : Prop where
  years : d.years < countBound
  months : d.months < countBound
  weeks : d.weeks < countBound
  days : d.days < countBound
  hours : d.hours < countBound
  minutes : d.minutes < countBound
  seconds : d.seconds < countBound
  nanos : d.nanos < 1000000000
  sign : d.negative = true → d.isZero = false

structure IsCount (ds : List Char) : Prop where
  there : ds ≠ []
  digits : ds.all Char.isDigit = true
  bounded : ofDigits ds < countBound

structure IsFraction (ds : List Char) : Prop where
  there : ds ≠ []
  digits : ds.all Char.isDigit = true
  short : ds.length ≤ 9

structure Seconds where
  whole : List Char
  fraction : Option (Char × List Char)

structure Clock where
  hours : Option (List Char)
  minutes : Option (List Char)
  seconds : Option Seconds

/-- The digits of the components that are there, and those that stand after a `T`, if there is one. -/
structure Counts where
  years : Option (List Char)
  months : Option (List Char)
  weeks : Option (List Char)
  days : Option (List Char)
  clock : Option Clock

structure Spelling where
  sign : Option Char
  counts : Counts

def componentSpelled (unit : Char) : Option (List Char) → List Char
  | none => []
  | some ds => ds ++ [unit]

def fractionSpelled : Option (Char × List Char) → List Char
  | none => []
  | some (mark, part) => mark :: part

def secondsSpelled : Option Seconds → List Char
  | none => []
  | some s => s.whole ++ fractionSpelled s.fraction ++ ['S']

def clockSpelled : Option Clock → List Char
  | none => []
  | some c =>
    'T' :: (componentSpelled 'H' c.hours ++ (componentSpelled 'M' c.minutes ++ secondsSpelled c.seconds))

def Counts.text (c : Counts) : List Char :=
  componentSpelled 'Y' c.years ++ (componentSpelled 'M' c.months ++ (componentSpelled 'W' c.weeks ++
    (componentSpelled 'D' c.days ++ clockSpelled c.clock)))

def Spelling.text (s : Spelling) : List Char :=
  s.sign.toList ++ 'P' :: s.counts.text

structure Seconds.Sound (s : Seconds) : Prop where
  whole : IsCount s.whole
  mark : ∀ f ∈ s.fraction, f.1 = '.' ∨ f.1 = ','
  part : ∀ f ∈ s.fraction, IsFraction f.2

structure Clock.Sound (c : Clock) : Prop where
  hours : ∀ ds ∈ c.hours, IsCount ds
  minutes : ∀ ds ∈ c.minutes, IsCount ds
  seconds : ∀ s ∈ c.seconds, s.Sound
  there : c.hours.isSome ∨ c.minutes.isSome ∨ c.seconds.isSome

structure Counts.Sound (c : Counts) : Prop where
  years : ∀ ds ∈ c.years, IsCount ds
  months : ∀ ds ∈ c.months, IsCount ds
  weeks : ∀ ds ∈ c.weeks, IsCount ds
  days : ∀ ds ∈ c.days, IsCount ds
  clock : ∀ t ∈ c.clock, t.Sound
  there : c.years.isSome ∨ c.months.isSome ∨ c.weeks.isSome ∨ c.days.isSome ∨ c.clock.isSome

structure Spelling.Sound (s : Spelling) : Prop where
  sign : ∀ c ∈ s.sign, c = '+' ∨ c = '-'
  counts : s.counts.Sound

def counted (digits : Option (List Char)) : Nat :=
  (digits.map ofDigits).getD 0

/-- The nanoseconds of a fraction: its digits fill the first of nine places. -/
def nanosSpelled : Option (Char × List Char) → Nat
  | none => 0
  | some (_, part) => ofDigits part * Nat.pow 10 (9 - part.length)

def Seconds.value (s : Seconds) : Nat × Nat :=
  (ofDigits s.whole, nanosSpelled s.fraction)

def Counts.duration (c : Counts) : Duration :=
  let clock := c.clock.getD ⟨none, none, none⟩
  let seconds := (clock.seconds.map Seconds.value).getD (0, 0)
  ⟨false, counted c.years, counted c.months, counted c.weeks, counted c.days, counted clock.hours,
    counted clock.minutes, seconds.1, seconds.2⟩

/-- The duration that is spelled: a minus sign counts only if something is not zero. -/
def Spelling.duration (s : Spelling) : Duration :=
  { s.counts.duration with negative := s.sign == some '-' && !s.counts.duration.isZero }

def Lacks (unit : Char) (rest : List Char) : Prop :=
  readCount? unit rest = some (none, rest)

theorem lacks_of_stop {unit : Char} {rest : List Char}
    (stop : rest.head?.all (fun c => !c.isDigit) = true) : Lacks unit rest := by
  have cut : spanDigits ([] ++ rest) = ([], rest) := spanDigits_append rfl stop
  rw [List.nil_append] at cut
  rw [Lacks, readCount?, cut]

private theorem readCount_run {unit c : Char} {ds : List Char} (run : ds ≠ [])
    (every : ds.all Char.isDigit = true) (other : c.isDigit = false) (rest : List Char) :
    readCount? unit (ds ++ c :: rest) =
      if c = unit then
        if ofDigits ds < countBound then some (some (ofDigits ds), rest) else none
      else some (none, ds ++ c :: rest) := by
  have cut : spanDigits (ds ++ c :: rest) = (ds, c :: rest) :=
    spanDigits_append every (by simp [other])
  unfold readCount?
  rw [cut]
  cases ds with
  | nil => exact absurd rfl run
  | cons d ds => rfl

theorem lacks_run {unit c : Char} {ds : List Char} (run : ds ≠ [])
    (every : ds.all Char.isDigit = true) (other : c.isDigit = false) (differ : c ≠ unit)
    (rest : List Char) : Lacks unit (ds ++ c :: rest) := by
  rw [Lacks, readCount_run run every other, if_neg differ]

theorem lacks_component {unit other : Char} (letter : other.isDigit = false) (differ : other ≠ unit)
    {component : Option (List Char)} (sound : ∀ ds ∈ component, IsCount ds) {rest : List Char}
    (lacks : Lacks unit rest) : Lacks unit (componentSpelled other component ++ rest) := by
  cases component with
  | none => exact lacks
  | some ds =>
    obtain ⟨there, every, -⟩ := sound ds rfl
    have lacked := lacks_run there every letter differ rest
    rwa [componentSpelled, List.append_assoc]

theorem readCount_component {unit : Char} (letter : unit.isDigit = false)
    {component : Option (List Char)} (sound : ∀ ds ∈ component, IsCount ds) {rest : List Char}
    (lacks : Lacks unit rest) :
    readCount? unit (componentSpelled unit component ++ rest) =
      some (component.map ofDigits, rest) := by
  cases component with
  | none => exact lacks
  | some ds =>
    obtain ⟨there, every, bounded⟩ := sound ds rfl
    rw [componentSpelled, List.append_assoc, List.singleton_append,
      readCount_run there every letter, if_pos rfl, if_pos bounded]
    rfl

theorem exists_component_of_readCount {unit : Char} {cs rest : List Char} {count : Option Nat}
    (done : readCount? unit cs = some (count, rest)) :
    ∃ component, (∀ ds ∈ component, IsCount ds) ∧ cs = componentSpelled unit component ++ rest ∧
      count = component.map ofDigits := by
  have missing (same : (none, cs) = (count, rest)) :
      ∃ component, (∀ ds ∈ component, IsCount ds) ∧ cs = componentSpelled unit component ++ rest ∧
        count = component.map ofDigits := by
    obtain ⟨rfl, rfl⟩ := Prod.mk.inj same
    exact ⟨none, by simp, rfl, rfl⟩
  unfold readCount? at done
  split at done
  · exact missing (Option.some.inj done)
  · next ds c more run cut =>
    split at done
    · next letter =>
      split at done
      · next bounded =>
        obtain ⟨rfl, rfl⟩ := Prod.mk.inj (Option.some.inj done)
        obtain ⟨whole, every, -⟩ := spanDigits_eq cut
        refine ⟨some ds, fun other same => ?_, ?_, rfl⟩
        · obtain rfl := Option.some.inj same
          exact ⟨run, every, bounded⟩
        · rw [whole, letter, componentSpelled, List.append_assoc, List.singleton_append]
      · simp at done
    · exact missing (Option.some.inj done)
  · exact missing (Option.some.inj done)

theorem lacks_seconds {unit : Char} (second : 'S' ≠ unit) (point : '.' ≠ unit) (comma : ',' ≠ unit)
    {seconds : Option Seconds} (sound : ∀ s ∈ seconds, s.Sound) :
    Lacks unit (secondsSpelled seconds) := by
  cases seconds with
  | none => exact lacks_of_stop rfl
  | some s =>
    obtain ⟨whole, marks, -⟩ := sound s rfl
    rw [secondsSpelled]
    cases fraction : s.fraction with
    | none =>
      rw [fractionSpelled, List.append_nil]
      exact lacks_run whole.there whole.digits rfl second []
    | some f =>
      obtain ⟨mark, part⟩ := f
      have mark : mark = '.' ∨ mark = ',' := marks _ fraction
      rw [fractionSpelled, List.append_assoc, List.cons_append]
      rcases mark with rfl | rfl
      · exact lacks_run whole.there whole.digits rfl point _
      · exact lacks_run whole.there whole.digits rfl comma _

private theorem readSeconds_whole {ds : List Char} (count : IsCount ds) :
    readSeconds? (ds ++ ['S']) = some (some (ofDigits ds, 0)) := by
  obtain ⟨there, every, bounded⟩ := count
  have cut : spanDigits (ds ++ ['S']) = (ds, ['S']) := spanDigits_append every rfl
  unfold readSeconds?
  rw [cut]
  cases ds with
  | nil => exact absurd rfl there
  | cons d ds => exact if_neg (Nat.not_le.mpr bounded)

private theorem readSeconds_fraction {ds part : List Char} {mark : Char} (count : IsCount ds)
    (marked : mark = '.' ∨ mark = ',') (fraction : IsFraction part) :
    readSeconds? (ds ++ mark :: (part ++ ['S'])) =
      some (some (ofDigits ds, ofDigits part * Nat.pow 10 (9 - part.length))) := by
  obtain ⟨there, every, bounded⟩ := count
  obtain ⟨run, digits, short⟩ := fraction
  have stop : mark.isDigit = false := by rcases marked with rfl | rfl <;> rfl
  have cut : spanDigits (ds ++ mark :: (part ++ ['S'])) = (ds, mark :: (part ++ ['S'])) :=
    spanDigits_append every (by simp [stop])
  have cut' : spanDigits (part ++ ['S']) = (part, ['S']) := spanDigits_append digits rfl
  have fits : ¬countBound ≤ ofDigits ds := Nat.not_le.mpr bounded
  have more : part ++ ['S'] ≠ [] := by simp
  unfold readSeconds?
  rw [cut]
  cases ds with
  | nil => exact absurd rfl there
  | cons d ds => simp [fits, marked, cut', run, short]

theorem readSeconds_spelled {seconds : Option Seconds} (sound : ∀ s ∈ seconds, s.Sound) :
    readSeconds? (secondsSpelled seconds) = some (seconds.map Seconds.value) := by
  cases seconds with
  | none => rfl
  | some s =>
    obtain ⟨whole, marks, parts⟩ := sound s rfl
    rw [secondsSpelled, Option.map_some, Seconds.value]
    cases fraction : s.fraction with
    | none =>
      rw [fractionSpelled, List.append_nil]
      exact readSeconds_whole whole
    | some f =>
      obtain ⟨mark, part⟩ := f
      rw [fractionSpelled, List.append_assoc, List.cons_append]
      exact readSeconds_fraction whole (marks _ fraction) (parts _ fraction)

theorem exists_seconds_of_readSeconds {cs : List Char} {value : Option (Nat × Nat)}
    (done : readSeconds? cs = some value) :
    ∃ seconds, (∀ s ∈ seconds, Seconds.Sound s) ∧ cs = secondsSpelled seconds ∧
      value = seconds.map Seconds.value := by
  unfold readSeconds? at done
  split at done
  · next cut =>
    obtain ⟨rfl, -⟩ := spanDigits_eq cut
    exact ⟨none, by simp, rfl, (Option.some.inj done).symm⟩
  · simp at done
  · next ds rest first later cut =>
    obtain ⟨rfl, every, -⟩ := spanDigits_eq cut
    have run : ds ≠ [] := by
      rintro rfl
      cases rest with
      | nil => exact first rfl rfl
      | cons c rest => exact later rfl
    split at done
    · simp at done
    · next bounded =>
      have count : IsCount ds := ⟨run, every, Nat.not_le.mp bounded⟩
      split at done
      · refine ⟨some ⟨ds, none⟩, fun s same => ?_, ?_, (Option.some.inj done).symm⟩
        · obtain rfl := Option.some.inj same
          exact ⟨count, by simp, by simp⟩
        · rw [secondsSpelled, fractionSpelled, List.append_nil]
      · next mark more _ =>
        split at done
        · next marked =>
          cases cut' : spanDigits more with
          | mk part left =>
            obtain ⟨rfl, digits, -⟩ := spanDigits_eq cut'
            simp only [cut', Option.ite_none_right_eq_some, Option.some.injEq] at done
            obtain ⟨⟨there, short, rfl⟩, same⟩ := done
            refine ⟨some ⟨ds, some (mark, part)⟩, fun s same => ?_, ?_, same.symm⟩
            · obtain rfl := Option.some.inj same
              refine ⟨count, fun f spelled => ?_, fun f spelled => ?_⟩
              · obtain rfl := Option.some.inj spelled
                exact marked
              · obtain rfl := Option.some.inj spelled
                exact ⟨there, digits, short⟩
            · rw [secondsSpelled, fractionSpelled, List.append_assoc, List.cons_append]
        · simp at done
      · simp at done

theorem lacks_clock (unit : Char) (clock : Option Clock) : Lacks unit (clockSpelled clock) := by
  cases clock with
  | none => exact lacks_of_stop rfl
  | some c => exact lacks_of_stop rfl

theorem readCounts_text {c : Counts} (sound : c.Sound) (negative : Bool) :
    readCounts? negative c.text = some (c.duration.signed negative) := by
  have beforeDays (unit : Char) (differ : 'D' ≠ unit) :
      Lacks unit (componentSpelled 'D' c.days ++ clockSpelled c.clock) :=
    lacks_component rfl differ sound.days (lacks_clock unit c.clock)
  have beforeWeeks (unit : Char) (differ : 'W' ≠ unit) (other : 'D' ≠ unit) :
      Lacks unit (componentSpelled 'W' c.weeks ++ (componentSpelled 'D' c.days ++
        clockSpelled c.clock)) :=
    lacks_component rfl differ sound.weeks (beforeDays unit other)
  have beforeMonths := lacks_component (by rfl : 'M'.isDigit = false) (by decide : 'M' ≠ 'Y')
    sound.months (beforeWeeks 'Y' (by decide) (by decide))
  have years := readCount_component rfl sound.years beforeMonths
  have months := readCount_component rfl sound.months (beforeWeeks 'M' (by decide) (by decide))
  have weeks := readCount_component rfl sound.weeks (beforeDays 'W' (by decide))
  have days := readCount_component rfl sound.days (lacks_clock 'D' c.clock)
  have there := sound.there
  simp only [readCounts?, Counts.text, years, months, weeks, days, Option.bind_eq_bind,
    Option.bind_some, Option.isSome_map]
  cases clock : c.clock with
  | none =>
    have some : (c.years.isSome || c.months.isSome || c.weeks.isSome || c.days.isSome) = true := by
      simpa [clock, or_assoc] using there
    simp only [clockSpelled, some, if_true]
    simp [Counts.duration, counted, clock]
  | some t =>
    have timed := sound.clock t clock
    have beforeMinutes := lacks_component (by rfl : 'M'.isDigit = false) (by decide : 'M' ≠ 'H')
      timed.minutes (lacks_seconds (by decide) (by decide) (by decide) timed.seconds)
    have hours := readCount_component rfl timed.hours beforeMinutes
    have minutes := readCount_component (by rfl : 'M'.isDigit = false) timed.minutes
      (lacks_seconds (by decide) (by decide) (by decide) timed.seconds)
    have seconds := readSeconds_spelled timed.seconds
    have some : (t.hours.isSome || t.minutes.isSome || t.seconds.isSome) = true := by
      simpa [or_assoc] using timed.there
    simp only [clockSpelled, hours, minutes, seconds, Option.bind_some, Option.isSome_map, some,
      if_true]
    simp [Counts.duration, counted, clock]

theorem exists_counts_of_readCounts {negative : Bool} {cs : List Char} {d : Duration}
    (done : readCounts? negative cs = some d) :
    ∃ c : Counts, c.Sound ∧ cs = c.text ∧ d = c.duration.signed negative := by
  unfold readCounts? at done
  obtain ⟨⟨_, _⟩, yearsRead, done⟩ := Option.bind_eq_some_iff.mp done
  obtain ⟨⟨_, _⟩, monthsRead, done⟩ := Option.bind_eq_some_iff.mp done
  obtain ⟨⟨_, _⟩, weeksRead, done⟩ := Option.bind_eq_some_iff.mp done
  obtain ⟨⟨_, rest⟩, daysRead, done⟩ := Option.bind_eq_some_iff.mp done
  obtain ⟨years, soundYears, rfl, rfl⟩ := exists_component_of_readCount yearsRead
  obtain ⟨months, soundMonths, rfl, rfl⟩ := exists_component_of_readCount monthsRead
  obtain ⟨weeks, soundWeeks, rfl, rfl⟩ := exists_component_of_readCount weeksRead
  obtain ⟨days, soundDays, rfl, rfl⟩ := exists_component_of_readCount daysRead
  dsimp only at done
  split at done
  · split at done
    · next there =>
      refine ⟨⟨years, months, weeks, days, none⟩, ⟨soundYears, soundMonths, soundWeeks, soundDays,
        by simp, by simpa [or_assoc] using there⟩, rfl, (Option.some.inj done).symm⟩
    · simp at done
  · obtain ⟨⟨_, _⟩, hoursRead, done⟩ := Option.bind_eq_some_iff.mp done
    obtain ⟨⟨_, _⟩, minutesRead, done⟩ := Option.bind_eq_some_iff.mp done
    obtain ⟨_, secondsRead, done⟩ := Option.bind_eq_some_iff.mp done
    obtain ⟨hours, soundHours, rfl, rfl⟩ := exists_component_of_readCount hoursRead
    obtain ⟨minutes, soundMinutes, rfl, rfl⟩ := exists_component_of_readCount minutesRead
    obtain ⟨seconds, soundSeconds, rfl, rfl⟩ := exists_seconds_of_readSeconds secondsRead
    split at done
    · next there =>
      have clock : Clock.Sound ⟨hours, minutes, seconds⟩ :=
        ⟨soundHours, soundMinutes, soundSeconds, by simpa [or_assoc] using there⟩
      refine ⟨⟨years, months, weeks, days, some ⟨hours, minutes, seconds⟩⟩, ⟨soundYears, soundMonths,
        soundWeeks, soundDays, fun t same => ?_, by simp⟩, rfl, (Option.some.inj done).symm⟩
      exact Option.some.inj same ▸ clock
    · simp at done
  · simp at done

/-- A text is read exactly if it spells a duration, and as that duration. -/
theorem read_eq_some_iff {cs : List Char} {d : Duration} :
    read? cs = some d ↔ ∃ s : Spelling, s.Sound ∧ cs = s.text ∧ d = s.duration := by
  constructor
  · intro done
    unfold read? at done
    split at done
    · obtain ⟨c, sound, rfl, rfl⟩ := exists_counts_of_readCounts done
      exact ⟨⟨some '-', c⟩, ⟨by simp, sound⟩, rfl, rfl⟩
    · obtain ⟨c, sound, rfl, rfl⟩ := exists_counts_of_readCounts done
      exact ⟨⟨some '+', c⟩, ⟨by simp, sound⟩, rfl, rfl⟩
    · obtain ⟨c, sound, rfl, rfl⟩ := exists_counts_of_readCounts done
      exact ⟨⟨none, c⟩, ⟨by simp, sound⟩, rfl, rfl⟩
    · simp at done
  · rintro ⟨⟨sign, c⟩, ⟨signed, sound⟩, rfl, rfl⟩
    cases sign with
    | none => exact readCounts_text sound false
    | some mark =>
      rcases signed mark rfl with rfl | rfl
      · exact readCounts_text sound false
      · exact readCounts_text sound true

theorem counted_lt {component : Option (List Char)} (sound : ∀ ds ∈ component, IsCount ds) :
    counted component < countBound := by
  cases component with
  | none => exact (by decide : 0 < countBound)
  | some ds => exact (sound ds rfl).bounded

theorem value_lt {seconds : Option Seconds} (sound : ∀ s ∈ seconds, s.Sound) :
    ((seconds.map Seconds.value).getD (0, 0)).1 < countBound ∧
      ((seconds.map Seconds.value).getD (0, 0)).2 < 1000000000 := by
  cases seconds with
  | none => exact ⟨(by decide : 0 < countBound), (by decide : 0 < 1000000000)⟩
  | some s =>
    obtain ⟨whole, -, parts⟩ := sound s rfl
    refine ⟨whole.bounded, ?_⟩
    show nanosSpelled s.fraction < 1000000000
    cases fraction : s.fraction with
    | none => exact (by decide : 0 < 1000000000)
    | some f =>
      have part := parts f fraction
      exact fraction_lt part.digits part.short

theorem valid_of_read {cs : List Char} {d : Duration} (done : read? cs = some d) : d.Valid := by
  obtain ⟨s, ⟨-, sound⟩, -, rfl⟩ := read_eq_some_iff.mp done
  have clock : ∀ t ∈ s.counts.clock, t.Sound := sound.clock
  have timed : (∀ ds ∈ (s.counts.clock.getD ⟨none, none, none⟩).hours, IsCount ds) ∧
      (∀ ds ∈ (s.counts.clock.getD ⟨none, none, none⟩).minutes, IsCount ds) ∧
      ∀ x ∈ (s.counts.clock.getD ⟨none, none, none⟩).seconds, x.Sound := by
    cases there : s.counts.clock with
    | none => simp
    | some t => exact ⟨(clock t there).hours, (clock t there).minutes, (clock t there).seconds⟩
  obtain ⟨hours, minutes, seconds⟩ := timed
  obtain ⟨whole, nanos⟩ := value_lt seconds
  refine ⟨counted_lt sound.years, counted_lt sound.months, counted_lt sound.weeks,
    counted_lt sound.days, counted_lt hours, counted_lt minutes, whole, nanos, fun minus => ?_⟩
  have both : (s.sign == some '-' && !s.counts.duration.isZero) = true := minus
  rw [Bool.and_eq_true, Bool.not_eq_true'] at both
  exact both.2

def fractionDigits (nanos : Nat) : List Char :=
  ((padded 9 nanos).reverse.dropWhile (· = '0')).reverse

theorem exists_fraction_zeros (nanos : Nat) :
    ∃ zeros, padded 9 nanos = fractionDigits nanos ++ List.replicate zeros '0' := by
  have cut := List.takeWhile_append_dropWhile (p := (· = '0')) (l := (padded 9 nanos).reverse)
  have whole := congrArg List.reverse cut
  rw [List.reverse_append, List.reverse_reverse] at whole
  refine ⟨((padded 9 nanos).reverse.takeWhile (· = '0')).reverse.length, ?_⟩
  refine whole.symm.trans (congrArg (fractionDigits nanos ++ ·) ?_)
  refine List.eq_replicate_of_mem fun c member => ?_
  simpa using List.mem_takeWhile_imp (List.mem_reverse.mp member)

theorem isFraction_fractionDigits {nanos : Nat} (small : nanos < 1000000000) (there : nanos ≠ 0) :
    IsFraction (fractionDigits nanos) ∧
      ofDigits (fractionDigits nanos) * Nat.pow 10 (9 - (fractionDigits nanos).length) = nanos := by
  obtain ⟨zeros, whole⟩ := exists_fraction_zeros nanos
  have length := length_padded (by decide : 0 < 9) (by omega : nanos < 10 ^ 9)
  have value := ofDigits_padded 9 nanos
  have digits := all_padded 9 nanos
  rw [whole, List.length_append, List.length_replicate] at length
  rw [whole, ofDigits, Nat.ofDigitChars_append, Nat.ofDigitChars_replicate_zero] at value
  rw [whole, List.all_append, Bool.and_eq_true] at digits
  have left : 9 - (fractionDigits nanos).length = zeros := by omega
  refine ⟨⟨fun empty => ?_, digits.1, by omega⟩, ?_⟩
  · rw [empty] at value
    exact there (by simpa using value.symm)
  · rw [left, Nat.mul_comm]
    exact value

def written (n : Nat) : Option (List Char) :=
  if n = 0 then none else some (digits n)

theorem isCount_digits {n : Nat} (bounded : n < countBound) : IsCount (digits n) :=
  ⟨digits_ne_nil n, all_digits n, by rwa [ofDigits_digits]⟩

theorem isCount_of_mem_written {n : Nat} (bounded : n < countBound) :
    ∀ ds ∈ written n, IsCount ds := by
  intro ds member
  unfold written at member
  split at member
  · simp at member
  · exact Option.some.inj member ▸ isCount_digits bounded

@[simp] theorem counted_none : counted none = 0 := rfl

@[simp] theorem counted_written (n : Nat) : counted (written n) = n := by
  unfold written counted
  split
  · next zero => exact zero.symm
  · exact ofDigits_digits n

@[simp] theorem isSome_written (n : Nat) : (written n).isSome = (n != 0) := by
  unfold written
  split
  · next zero => simp [zero]
  · next there => simp [there]

theorem componentSpelled_written (unit : Char) (n : Nat) :
    componentSpelled unit (written n) = countText n unit := by
  unfold written countText
  split
  · rfl
  · rfl

def writtenSeconds (seconds nanos : Nat) : Option Seconds :=
  if seconds = 0 ∧ nanos = 0 then none
  else some ⟨digits seconds, if nanos = 0 then none else some ('.', fractionDigits nanos)⟩

theorem secondsSpelled_written (seconds nanos : Nat) :
    secondsSpelled (writtenSeconds seconds nanos) = secondsText seconds nanos := by
  unfold writtenSeconds secondsText
  split
  · rfl
  · rw [secondsSpelled]
    split
    · rfl
    · rfl

theorem sound_writtenSeconds {seconds nanos : Nat} (bounded : seconds < countBound)
    (small : nanos < 1000000000) : ∀ s ∈ writtenSeconds seconds nanos, s.Sound := by
  intro s member
  unfold writtenSeconds at member
  split at member
  · simp at member
  · obtain rfl := Option.some.inj member
    refine ⟨isCount_digits bounded, fun f there => ?_, fun f there => ?_⟩
    · dsimp only at there
      split at there
      · simp at there
      · exact Option.some.inj there ▸ Or.inl rfl
    · dsimp only at there
      split at there
      · simp at there
      · next nonzero =>
        exact Option.some.inj there ▸ (isFraction_fractionDigits small nonzero).1

theorem value_writtenSeconds (seconds : Nat) {nanos : Nat} (small : nanos < 1000000000) :
    ((writtenSeconds seconds nanos).map Seconds.value).getD (0, 0) = (seconds, nanos) := by
  unfold writtenSeconds
  split
  · next zero => rw [zero.1, zero.2]; rfl
  · rw [Option.map_some, Option.getD_some, Seconds.value, ofDigits_digits]
    split
    · next whole => rw [whole]; rfl
    · next nonzero =>
      exact congrArg (Prod.mk seconds) (isFraction_fractionDigits small nonzero).2

theorem isSome_writtenSeconds (seconds nanos : Nat) :
    (writtenSeconds seconds nanos).isSome = (seconds != 0 || nanos != 0) := by
  unfold writtenSeconds
  split
  · next zero => simp [zero]
  · next there =>
    have some : seconds = 0 → ¬nanos = 0 := fun first second => there ⟨first, second⟩
    by_cases zero : seconds = 0
    · simp [zero, some zero]
    · simp [zero]

def writtenCounts (d : Duration) : Counts :=
  ⟨written d.years, written d.months, written d.weeks, written d.days,
    if d.hasTime then some ⟨written d.hours, written d.minutes, writtenSeconds d.seconds d.nanos⟩
    else none⟩

theorem sound_writtenCounts {d : Duration} (valid : d.Valid) (nonzero : d.isZero = false) :
    (writtenCounts d).Sound := by
  refine ⟨isCount_of_mem_written valid.years, isCount_of_mem_written valid.months,
    isCount_of_mem_written valid.weeks, isCount_of_mem_written valid.days, fun t member => ?_, ?_⟩
  · unfold writtenCounts at member
    dsimp only at member
    split at member
    · next timed =>
      obtain rfl := Option.some.inj member
      refine ⟨isCount_of_mem_written valid.hours, isCount_of_mem_written valid.minutes,
        sound_writtenSeconds valid.seconds valid.nanos, ?_⟩
      simpa [hasTime, isSome_writtenSeconds, or_assoc] using timed
    · simp at member
  · cases timed : d.hasTime with
    | true => simp [writtenCounts, timed]
    | false =>
      simpa [writtenCounts, timed, isZero, imp_iff_not_or, or_assoc] using nonzero

theorem duration_writtenCounts {d : Duration} (small : d.nanos < 1000000000) :
    (writtenCounts d).duration = { d with negative := false } := by
  have seconds := value_writtenSeconds d.seconds small
  cases timed : d.hasTime with
  | true => simp [Counts.duration, writtenCounts, timed, seconds]
  | false =>
    simp only [hasTime, Bool.or_eq_false_iff, bne_eq_false_iff_eq] at timed
    simp [Counts.duration, writtenCounts, hasTime, timed]

def spelling (d : Duration) : Spelling :=
  if d.isZero then ⟨none, ⟨none, none, none, none, some ⟨none, none, some ⟨['0'], none⟩⟩⟩⟩
  else ⟨if d.negative then some '-' else none, writtenCounts d⟩

theorem text_spelling (d : Duration) : (spelling d).text = d.text := by
  unfold spelling Duration.text
  split
  · rfl
  · have clock : clockSpelled (writtenCounts d).clock = if d.hasTime then
        'T' :: countText d.hours 'H' ++ countText d.minutes 'M' ++ secondsText d.seconds d.nanos
        else [] := by
      unfold writtenCounts
      dsimp only
      split
      · simp [clockSpelled, componentSpelled_written, secondsSpelled_written]
      · rfl
    rw [Spelling.text, Counts.text, clock]
    cases d.negative <;> simp [writtenCounts, componentSpelled_written]

theorem eq_zero_of_isZero {d : Duration} (valid : d.Valid) (zero : d.isZero = true) :
    d = ⟨false, 0, 0, 0, 0, 0, 0, 0, 0⟩ := by
  have plain : d.negative = false := by
    cases sign : d.negative with
    | false => rfl
    | true =>
      rw [valid.sign sign] at zero
      exact absurd zero Bool.false_ne_true
  obtain ⟨negative, years, months, weeks, days, hours, minutes, seconds, nanos⟩ := d
  simp_all [isZero, hasTime]

theorem sound_spelling {d : Duration} (valid : d.Valid) : (spelling d).Sound := by
  unfold spelling
  split
  · refine ⟨by simp, ⟨by simp, by simp, by simp, by simp, fun t member => ?_, by simp⟩⟩
    obtain rfl := Option.some.inj member
    refine ⟨by simp, by simp, fun s member => ?_, by simp⟩
    obtain rfl := Option.some.inj member
    exact ⟨isCount_digits (by decide : 0 < countBound), by simp, by simp⟩
  · next nonzero =>
    refine ⟨?_, sound_writtenCounts valid (Bool.eq_false_iff.mpr nonzero)⟩
    cases d.negative <;> simp

theorem duration_spelling {d : Duration} (valid : d.Valid) : (spelling d).duration = d := by
  unfold spelling
  split
  · next zero =>
    rw [eq_zero_of_isZero valid zero]
    rfl
  · next nonzero =>
    have still : isZero { d with negative := false } = false := Bool.eq_false_iff.mpr nonzero
    have sign : ((if d.negative then some '-' else none) == some '-') = d.negative := by
      cases d.negative <;> rfl
    rw [Spelling.duration, duration_writtenCounts valid.nanos, still, sign, Bool.not_false,
      Bool.and_true]

theorem read_text {d : Duration} (valid : d.Valid) : read? d.text = some d :=
  read_eq_some_iff.mpr
    ⟨spelling d, sound_spelling valid, (text_spelling d).symm, (duration_spelling valid).symm⟩

/-- Exactly the texts of sound spellings are read, each as what it spells, and a duration whose counts
are bounded and that is not a negative zero is read back from what it is written as. -/
theorem reads_exactly_spellings :
    (∀ cs, (∃ d, read? cs = some d) ↔ ∃ s : Spelling, s.Sound ∧ cs = s.text) ∧
      (∀ s : Spelling, s.Sound → read? s.text = some s.duration) ∧
        ∀ d : Duration, d.Valid → read? d.text = some d := by
  refine ⟨fun cs => ⟨?_, ?_⟩, fun s sound => ?_, fun d valid => read_text valid⟩
  · rintro ⟨d, done⟩
    obtain ⟨s, sound, spelled, -⟩ := read_eq_some_iff.mp done
    exact ⟨s, sound, spelled⟩
  · rintro ⟨s, sound, rfl⟩
    exact ⟨s.duration, read_eq_some_iff.mpr ⟨s, sound, rfl, rfl⟩⟩
  · exact read_eq_some_iff.mpr ⟨s, sound, rfl, rfl⟩

theorem reads_months_and_minutes :
    read? "-P1Y2MT3M4,50S".toList = some ⟨true, 1, 2, 0, 0, 0, 3, 4, 500000000⟩ ∧
      Valid ⟨true, 1, 2, 0, 0, 0, 3, 4, 500000000⟩ ∧
        read? (text ⟨true, 1, 2, 0, 0, 0, 3, 4, 500000000⟩) =
          some ⟨true, 1, 2, 0, 0, 0, 3, 4, 500000000⟩ := by
  have count (c : Char) (digit : [c].all Char.isDigit = true) (bounded : ofDigits [c] < countBound) :
      IsCount [c] := ⟨by simp, digit, bounded⟩
  have seconds : Seconds.Sound ⟨['4'], some (',', ['5', '0'])⟩ := by
    refine ⟨count '4' rfl (by decide), fun f there => ?_, fun f there => ?_⟩
    · exact Option.some.inj there ▸ .inr rfl
    · exact Option.some.inj there ▸ ⟨by simp, rfl, by decide⟩
  have clock : Clock.Sound ⟨none, some ['3'], some ⟨['4'], some (',', ['5', '0'])⟩⟩ := by
    refine ⟨by simp, fun ds there => ?_, fun s there => ?_, by simp⟩
    · exact Option.some.inj there ▸ count '3' rfl (by decide)
    · exact Option.some.inj there ▸ seconds
  have sound : Spelling.Sound ⟨some '-', ⟨some ['1'], some ['2'], none, none,
      some ⟨none, some ['3'], some ⟨['4'], some (',', ['5', '0'])⟩⟩⟩⟩ := by
    refine ⟨by simp, fun ds there => ?_, fun ds there => ?_, by simp, by simp, fun t there => ?_,
      by simp⟩
    · exact Option.some.inj there ▸ count '1' rfl (by decide)
    · exact Option.some.inj there ▸ count '2' rfl (by decide)
    · exact Option.some.inj there ▸ clock
  have valid : Valid ⟨true, 1, 2, 0, 0, 0, 3, 4, 500000000⟩ := by
    refine ⟨?_, ?_, ?_, ?_, ?_, ?_, ?_, ?_, fun _ => rfl⟩
    all_goals decide
  exact ⟨reads_exactly_spellings.2.1 _ sound, valid, reads_exactly_spellings.2.2 _ valid⟩

end WireSchema.Calendar.Duration
