import WireSchema.Leaf.Number
import WireSchema.Proofs.Text.Digits
import WireSchema.Proofs.Text.Forms

/-!
The texts that numbers are read from. A text is let through twice: it has the form of a number, in
which a digit may be one of any script, and a second reader, which takes other forms too, gives it a
value. What both take is the same form with the ten digits of ASCII.
-/

set_option autoImplicit false

namespace WireSchema.Leaf

open WireSchema.Text
open scoped Computability

section

variable (digit : Char → Bool)

def fractions : Language Char :=
  maybe (literal "." * someOf digit)

def exponents : Language Char :=
  literal "e" * maybe (oneOf fun c => c == '+' || c == '-') * someOf digit

def plainNumbers : Language Char :=
  (literal "0" + oneOf (fun c => c.isDigit && c != '0') * (oneOf digit)∗) * fractions digit

def scaledNumbers : Language Char :=
  oneOf digit * fractions digit * exponents digit

/-- The forms of numbers, given what counts as a digit wherever zero may be one. -/
def numberTexts : Language Char :=
  literal "NaN" + maybe (literal "-") * literal "Infinity" + maybe (literal "-") * plainNumbers digit +
    maybe (literal "-") * scaledNumbers digit

end

section Members

variable {digit : Char → Bool} {l : Language Char} {cs : List Char}

theorem mem_fractions :
    cs ∈ fractions digit ↔ cs = [] ∨ ∃ ds, ds ≠ [] ∧ ds.all digit = true ∧ cs = '.' :: ds := by
  rw [fractions, mem_maybe, Language.mem_mul]
  constructor
  · rintro (none | ⟨-, rfl, ds, digits, rfl⟩)
    · exact Or.inl none
    · obtain ⟨some, all⟩ := mem_someOf.mp digits
      exact Or.inr ⟨ds, some, all, by simp⟩
  · rintro (none | ⟨ds, some, all, rfl⟩)
    · exact Or.inl none
    · exact Or.inr ⟨".".toList, rfl, ds, mem_someOf.mpr ⟨some, all⟩, by simp⟩

theorem mem_exponents : cs ∈ exponents digit ↔ ∃ sign ds,
    (sign = [] ∨ sign = ['+'] ∨ sign = ['-']) ∧ ds ≠ [] ∧ ds.all digit = true ∧
      cs = 'e' :: (sign ++ ds) := by
  simp only [exponents, Language.mem_mul, mem_maybe, mem_oneOf]
  constructor
  · rintro ⟨-, ⟨-, rfl, sign, signs, rfl⟩, ds, digits, rfl⟩
    obtain ⟨some, all⟩ := mem_someOf.mp digits
    refine ⟨sign, ds, ?_, some, all, by simp⟩
    rcases signs with none | ⟨c, holds, rfl⟩
    · exact Or.inl none
    · simpa using holds
  · rintro ⟨sign, ds, signs, some, all, rfl⟩
    refine ⟨'e' :: sign, ⟨"e".toList, rfl, sign, ?_, by simp⟩, ds, mem_someOf.mpr ⟨some, all⟩, by simp⟩
    rcases signs with rfl | rfl | rfl
    · exact Or.inl rfl
    · exact Or.inr ⟨'+', rfl, rfl⟩
    · exact Or.inr ⟨'-', rfl, rfl⟩

theorem mem_signed : cs ∈ maybe (literal "-") * l ↔ cs ∈ l ∨ ∃ rest ∈ l, cs = '-' :: rest := by
  rw [Language.mem_mul]
  constructor
  · rintro ⟨sign, rfl | rfl, rest, member, rfl⟩
    · exact Or.inl member
    · exact Or.inr ⟨rest, member, by simp⟩
  · rintro (member | ⟨rest, member, rfl⟩)
    · exact ⟨[], Or.inl rfl, cs, member, rfl⟩
    · exact ⟨"-".toList, Or.inr rfl, rest, member, by simp⟩

theorem mem_plainNumbers : cs ∈ plainNumbers digit ↔ ∃ whole part, part ∈ fractions digit ∧
    (whole = ['0'] ∨ ∃ c ds, c.isDigit = true ∧ c ≠ '0' ∧ ds.all digit = true ∧ whole = c :: ds) ∧
      cs = whole ++ part := by
  simp only [plainNumbers, Language.mem_mul, Language.mem_add, mem_literal, mem_oneOf, mem_star]
  constructor
  · rintro ⟨whole, form, part, fraction, rfl⟩
    refine ⟨whole, part, fraction, ?_, rfl⟩
    rcases form with rfl | ⟨-, ⟨c, first, rfl⟩, ds, digits, rfl⟩
    · exact Or.inl rfl
    · simp only [Bool.and_eq_true, bne_iff_ne] at first
      exact Or.inr ⟨c, ds, first.1, first.2, digits, rfl⟩
  · rintro ⟨whole, part, fraction, form, rfl⟩
    refine ⟨whole, ?_, part, fraction, rfl⟩
    rcases form with rfl | ⟨c, ds, first, other, digits, rfl⟩
    · exact Or.inl rfl
    · exact Or.inr ⟨[c], ⟨c, by simp [first, other], rfl⟩, ds, digits, rfl⟩

theorem mem_scaledNumbers : cs ∈ scaledNumbers digit ↔ ∃ c part tail,
    digit c = true ∧ part ∈ fractions digit ∧ tail ∈ exponents digit ∧ cs = c :: (part ++ tail) := by
  simp only [scaledNumbers, Language.mem_mul, mem_oneOf]
  constructor
  · rintro ⟨-, ⟨-, ⟨c, first, rfl⟩, part, fraction, rfl⟩, tail, exponent, rfl⟩
    exact ⟨c, part, tail, first, fraction, exponent, by simp⟩
  · rintro ⟨c, part, tail, first, fraction, exponent, rfl⟩
    exact ⟨c :: part, ⟨[c], ⟨c, first, rfl⟩, part, fraction, rfl⟩, tail, exponent, by simp⟩

theorem mem_numberTexts : cs ∈ numberTexts digit ↔
    cs = "NaN".toList ∨ cs = "Infinity".toList ∨ cs = "-Infinity".toList ∨
      ∃ body, (body ∈ plainNumbers digit ∨ body ∈ scaledNumbers digit) ∧
        (cs = body ∨ cs = '-' :: body) := by
  simp only [numberTexts, Language.mem_add, mem_signed, mem_literal]
  have minus : '-' :: "Infinity".toList = "-Infinity".toList := by simp
  constructor
  · rintro (((nan | infinity | ⟨-, rfl, rfl⟩) | plain | ⟨body, plain, rfl⟩) | scaled |
      ⟨body, scaled, rfl⟩)
    · exact Or.inl nan
    · exact Or.inr (Or.inl infinity)
    · exact Or.inr (Or.inr (Or.inl minus))
    · exact Or.inr (Or.inr (Or.inr ⟨cs, Or.inl plain, Or.inl rfl⟩))
    · exact Or.inr (Or.inr (Or.inr ⟨body, Or.inl plain, Or.inr rfl⟩))
    · exact Or.inr (Or.inr (Or.inr ⟨cs, Or.inr scaled, Or.inl rfl⟩))
    · exact Or.inr (Or.inr (Or.inr ⟨body, Or.inr scaled, Or.inr rfl⟩))
  · rintro (nan | infinity | infinity | ⟨body, plain | scaled, rfl | rfl⟩)
    · exact Or.inl (Or.inl (Or.inl nan))
    · exact Or.inl (Or.inl (Or.inr (Or.inl infinity)))
    · exact Or.inl (Or.inl (Or.inr (Or.inr ⟨_, rfl, infinity.trans minus.symm⟩)))
    · exact Or.inl (Or.inr (Or.inl plain))
    · exact Or.inl (Or.inr (Or.inr ⟨body, plain, rfl⟩))
    · exact Or.inr (Or.inl scaled)
    · exact Or.inr (Or.inr ⟨body, scaled, rfl⟩)

end Members

structure Parted (whole part tail : List Char) : Prop where
  full : whole ≠ []
  digits : whole.all Char.isDigit = true
  fraction : part ∈ fractions Char.isDigit
  ending : tail = [] ∨ tail ∈ exponents Char.isDigit

section Parted

variable {whole part tail cs : List Char}

private theorem head_of_ending (ending : tail = [] ∨ tail ∈ exponents Char.isDigit) :
    tail = [] ∨ ∃ rest, tail = 'e' :: rest := by
  rcases ending with rfl | exponent
  · exact Or.inl rfl
  · obtain ⟨sign, ds, -, -, -, rfl⟩ := mem_exponents.mp exponent
    exact Or.inr ⟨_, rfl⟩

private theorem stop_of_ending (ending : tail = [] ∨ tail ∈ exponents Char.isDigit) :
    tail.head?.all (fun c => !c.isDigit) = true := by
  rcases head_of_ending ending with rfl | ⟨rest, rfl⟩
  · rfl
  · rfl

theorem Parted.span_whole (parted : Parted whole part tail) :
    spanDigits (whole ++ (part ++ tail)) = (whole, part ++ tail) := by
  refine spanDigits_append parted.digits ?_
  rcases mem_fractions.mp parted.fraction with rfl | ⟨ds, -, -, rfl⟩
  · exact stop_of_ending parted.ending
  · rfl

theorem Parted.drop_fraction (parted : Parted whole part tail) :
    dropFraction? (part ++ tail) = some tail := by
  rcases mem_fractions.mp parted.fraction with rfl | ⟨ds, full, digits, rfl⟩
  · rcases head_of_ending parted.ending with rfl | ⟨rest, rfl⟩ <;> rfl
  · obtain ⟨d, ds, rfl⟩ := List.exists_cons_of_ne_nil full
    rw [List.cons_append, dropFraction?, spanDigits_append digits (stop_of_ending parted.ending)]

private theorem exists_of_dropFraction {rest : List Char} (cut : dropFraction? rest = some tail) :
    ∃ part ∈ fractions Char.isDigit, rest = part ++ tail := by
  unfold dropFraction? at cut
  split at cut
  · next rest =>
    split at cut
    · simp at cut
    · next ds after full split =>
      obtain rfl := Option.some.inj cut
      obtain ⟨rfl, digits, -⟩ := spanDigits_eq split
      exact ⟨'.' :: ds, mem_fractions.mpr (Or.inr ⟨ds, full, digits, rfl⟩), rfl⟩
  · exact ⟨[], mem_fractions.mpr (Or.inl rfl), Option.some.inj cut⟩

-- Digits that follow no sign are not taken to start with one.
private theorem exists_unsigned {ds : List Char} (full : ds ≠ [])
    (digits : ds.all Char.isDigit = true) : ∃ d more, ds = d :: more ∧ d ≠ '+' ∧ d ≠ '-' := by
  obtain ⟨d, more, rfl⟩ := List.exists_cons_of_ne_nil full
  have first := List.all_eq_true.mp digits d List.mem_cons_self
  refine ⟨d, more, rfl, ?_, ?_⟩
  · rintro rfl
    exact absurd first (by decide)
  · rintro rfl
    exact absurd first (by decide)

theorem isExponent_iff : isExponent cs = true ↔ cs ∈ exponents Char.isDigit := by
  rw [mem_exponents]
  constructor
  · intro exponent
    unfold isExponent at exponent
    split at exponent
    · next rest =>
      simp only [Bool.and_eq_true, Bool.not_eq_true', List.isEmpty_eq_false_iff] at exponent
      split at exponent
      · next ds => exact ⟨['+'], ds, Or.inr (Or.inl rfl), exponent.1, exponent.2, rfl⟩
      · next ds => exact ⟨['-'], ds, Or.inr (Or.inr rfl), exponent.1, exponent.2, rfl⟩
      · exact ⟨[], rest, Or.inl rfl, exponent.1, exponent.2, rfl⟩
    · simp at exponent
  · rintro ⟨sign, ds, signs, full, digits, rfl⟩
    rcases signs with rfl | rfl | rfl
    · obtain ⟨d, more, rfl, plus, minus⟩ := exists_unsigned full digits
      rw [List.all_cons] at digits
      simp [isExponent, plus, minus, digits]
    · simp [isExponent, full, digits]
    · simp [isExponent, full, digits]

theorem parted_of_plain {c : Char} {ds : List Char} (first : c.isDigit = true)
    (digits : ds.all Char.isDigit = true) (fraction : part ∈ fractions Char.isDigit) :
    Parted (c :: ds) part [] :=
  ⟨List.cons_ne_nil c ds, by simp [first, digits], fraction, Or.inl rfl⟩

theorem parted_of_scaled {c : Char} (first : c.isDigit = true)
    (fraction : part ∈ fractions Char.isDigit) (exponent : tail ∈ exponents Char.isDigit) :
    Parted [c] part tail :=
  ⟨List.cons_ne_nil c [], by simp [first], fraction, Or.inr exponent⟩

theorem exists_parted (number : cs ∈ plainNumbers Char.isDigit ∨ cs ∈ scaledNumbers Char.isDigit) :
    ∃ whole part tail, Parted whole part tail ∧ cs = whole ++ (part ++ tail) := by
  rcases number with plain | scaled
  · obtain ⟨whole, part, fraction, form, rfl⟩ := mem_plainNumbers.mp plain
    refine ⟨whole, part, [], ?_, by simp⟩
    rcases form with rfl | ⟨c, ds, first, -, digits, rfl⟩
    · exact parted_of_plain rfl rfl fraction
    · exact parted_of_plain first digits fraction
  · obtain ⟨c, part, tail, first, fraction, exponent, rfl⟩ := mem_scaledNumbers.mp scaled
    exact ⟨[c], part, tail, parted_of_scaled first fraction exponent, rfl⟩

private theorem isUnsignedNumber_of_plain (plain : cs ∈ plainNumbers Char.isDigit) :
    isUnsignedNumber cs = true := by
  obtain ⟨whole, part, fraction, form, rfl⟩ := mem_plainNumbers.mp plain
  rw [← List.append_nil part]
  rcases form with rfl | ⟨c, ds, first, other, digits, rfl⟩
  · have parted : Parted ['0'] part [] := parted_of_plain rfl rfl fraction
    simp only [isUnsignedNumber, parted.span_whole, parted.drop_fraction]
    rfl
  · have parted := parted_of_plain first digits fraction
    simp only [isUnsignedNumber, parted.span_whole, parted.drop_fraction]
    cases ds with
    | nil => rfl
    | cons d ds => simp [other]

private theorem isUnsignedNumber_of_scaled (scaled : cs ∈ scaledNumbers Char.isDigit) :
    isUnsignedNumber cs = true := by
  obtain ⟨c, part, tail, first, fraction, exponent, rfl⟩ := mem_scaledNumbers.mp scaled
  have parted := parted_of_scaled first fraction exponent
  rw [← List.singleton_append]
  simp only [isUnsignedNumber, parted.span_whole, parted.drop_fraction,
    isExponent_iff.mpr exponent, Bool.or_true]

/-- The scanner of unsigned numbers takes their two forms. -/
theorem isUnsignedNumber_iff : isUnsignedNumber cs = true ↔
    cs ∈ plainNumbers Char.isDigit ∨ cs ∈ scaledNumbers Char.isDigit := by
  constructor
  · intro number
    unfold isUnsignedNumber at number
    cases cut : spanDigits cs with
    | mk whole rest =>
      obtain ⟨rfl, digits, -⟩ := spanDigits_eq cut
      simp only [cut] at number
      split at number
      · simp at number
      · simp at number
      · next c tail found =>
        obtain ⟨part, fraction, rfl⟩ := exists_of_dropFraction found
        have first : c.isDigit = true := by simpa using digits
        rcases Bool.or_eq_true_iff.mp number with done | exponent
        · obtain rfl := List.isEmpty_iff.mp done
          refine Or.inl (mem_plainNumbers.mpr ⟨[c], part, fraction, ?_, by simp⟩)
          by_cases zero : c = '0'
          · exact Or.inl (by rw [zero])
          · exact Or.inr ⟨c, [], first, zero, rfl, rfl⟩
        · exact Or.inr (mem_scaledNumbers.mpr
            ⟨c, part, tail, first, fraction, isExponent_iff.mp exponent, rfl⟩)
      · next c d ds tail found =>
        obtain ⟨part, fraction, rfl⟩ := exists_of_dropFraction found
        simp only [Bool.and_eq_true, bne_iff_ne] at number
        obtain rfl := List.isEmpty_iff.mp number.2
        rw [List.all_cons, Bool.and_eq_true] at digits
        exact Or.inl (mem_plainNumbers.mpr ⟨c :: d :: ds, part, fraction,
          Or.inr ⟨c, d :: ds, digits.1, number.1, digits.2, rfl⟩, by simp⟩)
  · rintro (plain | scaled)
    · exact isUnsignedNumber_of_plain plain
    · exact isUnsignedNumber_of_scaled scaled

/-- The scanner of numbers takes the texts that have the form of one. -/
theorem isNumberText_iff : isNumberText cs = true ↔ cs ∈ numberTexts Char.isDigit := by
  simp only [isNumberText, Bool.or_eq_true, beq_iff_eq, or_assoc, mem_numberTexts,
    ← isUnsignedNumber_iff]
  refine or_congr_right (or_congr_right (or_congr_right ?_))
  constructor
  · intro number
    split at number
    · next rest => exact ⟨rest, number, Or.inr rfl⟩
    · exact ⟨cs, number, Or.inl rfl⟩
  · rintro ⟨body, number, rfl | rfl⟩
    · split
      · next rest => simp [isUnsignedNumber, spanDigits, List.span, List.span.loop] at number
      · exact number
    · exact number

end Parted

def Ascii (cs : List Char) : Prop :=
  ∀ c ∈ cs, c.toNat < 128

section Reader

variable {cs ds : List Char}

private theorem Ascii.append {as bs : List Char} (left : Ascii as) (right : Ascii bs) :
    Ascii (as ++ bs) := by
  intro c member
  rcases List.mem_append.mp member with member | member
  · exact left c member
  · exact right c member

private theorem ascii_of_all (all : (cs.all fun c => c.toNat < 128) = true) : Ascii cs :=
  fun c member => of_decide_eq_true (List.all_eq_true.mp all c member)

private theorem ascii_of_digits (digits : ds.all Char.isDigit = true) : Ascii ds := by
  intro c member
  have digit := isDigit_iff.mp (List.all_eq_true.mp digits c member)
  omega

private theorem Ascii.cons {c : Char} (small : c.toNat < 128) (rest : Ascii cs) :
    Ascii (c :: cs) := by
  intro d member
  rcases List.mem_cons.mp member with rfl | member
  · exact small
  · exact rest d member

private theorem ascii_of_toLower (lower : Ascii (cs.map Char.toLower)) : Ascii cs := by
  intro c member
  have small := lower _ (List.mem_map_of_mem member)
  unfold Char.toLower at small
  split at small
  · next upper =>
    have below : c.toNat ≤ 90 := upper.2
    omega
  · exact small

private theorem isSome_readExponent (ending : cs = [] ∨ cs ∈ exponents Char.isDigit) :
    (Binary64.readExponent? cs).isSome = true := by
  rcases ending with rfl | exponent
  · rfl
  · obtain ⟨sign, ds, signs, full, digits, rfl⟩ := mem_exponents.mp exponent
    rcases signs with rfl | rfl | rfl
    · obtain ⟨d, more, rfl, plus, minus⟩ := exists_unsigned full digits
      rw [List.all_cons] at digits
      simp [Binary64.readExponent?, plus, minus, digits]
    · simp [Binary64.readExponent?, full, digits]
    · simp [Binary64.readExponent?, full, digits]

private theorem ascii_of_readExponent {e : Int} (read : Binary64.readExponent? cs = some e) :
    Ascii cs := by
  unfold Binary64.readExponent? at read
  split at read
  · simp [Ascii]
  · next c rest =>
    split at read
    · next letter =>
      have small : c.toNat < 128 := by rcases letter with rfl | rfl <;> decide
      refine Ascii.cons small ?_
      split at read
      next negative ds sign =>
        split at read
        · next form =>
          have digits := ascii_of_digits form.2
          split at sign
          · next more =>
            obtain ⟨rfl, rfl⟩ := Prod.mk.inj sign
            exact digits.cons (by decide)
          · next more =>
            obtain ⟨rfl, rfl⟩ := Prod.mk.inj sign
            exact digits.cons (by decide)
          · obtain ⟨rfl, rfl⟩ := Prod.mk.inj sign
            exact digits
        · simp at read
    · simp at read

private theorem isSome_readMagnitude (negative : Bool) {whole part tail : List Char}
    (parted : Parted whole part tail) :
    (Binary64.readMagnitude? negative (whole ++ (part ++ tail))).isSome = true := by
  have exponent := isSome_readExponent parted.ending
  rw [Binary64.readMagnitude?, parted.span_whole]
  rcases mem_fractions.mp parted.fraction with rfl | ⟨ds, -, digits, rfl⟩
  · rcases head_of_ending parted.ending with rfl | ⟨rest, rfl⟩ <;>
      simpa [parted.full] using exponent
  · have cut := spanDigits_append digits (stop_of_ending parted.ending)
    simpa [cut, parted.full] using exponent

private theorem ascii_of_readMagnitude {negative : Bool} {x : Binary64}
    (read : Binary64.readMagnitude? negative cs = some x) : Ascii cs := by
  unfold Binary64.readMagnitude? at read
  cases cut : spanDigits cs with
  | mk whole rest =>
    obtain ⟨rfl, digits, -⟩ := spanDigits_eq cut
    refine (ascii_of_digits digits).append ?_
    simp only [cut] at read
    split at read
    · next more =>
      cases fraction : spanDigits more with
      | mk part tail =>
        obtain ⟨rfl, digits', -⟩ := spanDigits_eq fraction
        simp only [fraction] at read
        split at read
        · simp at read
        · obtain ⟨e, exponent, -⟩ := Option.map_eq_some_iff.mp read
          have ending := ascii_of_readExponent exponent
          exact ((ascii_of_digits digits').append ending).cons (by decide)
    · dsimp only at read
      split at read
      · simp at read
      · obtain ⟨e, exponent, -⟩ := Option.map_eq_some_iff.mp read
        exact ascii_of_readExponent exponent

private theorem ascii_of_word {word : String} (same : cs.map Char.toLower = word.toList)
    (ascii : Ascii word.toList) : Ascii cs :=
  ascii_of_toLower (same ▸ ascii)

private theorem isSome_unsigned (negative : Bool)
    (number : cs ∈ plainNumbers Char.isDigit ∨ cs ∈ scaledNumbers Char.isDigit) :
    (Binary64.readMagnitude? negative cs).isSome = true := by
  obtain ⟨whole, part, tail, parted, rfl⟩ := exists_parted number
  exact isSome_readMagnitude negative parted

/-- The second reader gives a value to ASCII texts only. -/
theorem ascii_of_read {x : Binary64} (read : Binary64.read? cs = some x) : Ascii cs := by
  unfold Binary64.read? at read
  split at read
  next negative body sign =>
    have ascii : Ascii body := by
      dsimp only at read
      split at read
      · next word =>
        rcases word with word | word
        · exact ascii_of_word word (ascii_of_all (by decide))
        · exact ascii_of_word word (ascii_of_all (by decide))
      · split at read
        · next word => exact ascii_of_word word (ascii_of_all (by decide))
        · exact ascii_of_readMagnitude read
    split at sign
    · next rest =>
      obtain ⟨rfl, rfl⟩ := Prod.mk.inj sign
      exact ascii.cons (by decide)
    · next rest =>
      obtain ⟨rfl, rfl⟩ := Prod.mk.inj sign
      exact ascii.cons (by decide)
    · obtain ⟨rfl, rfl⟩ := Prod.mk.inj sign
      exact ascii

theorem ascii_of_numberOfText {x : Binary64} (read : numberOfText? cs = some x) : Ascii cs := by
  unfold numberOfText? at read
  split at read
  · next word => exact word ▸ ascii_of_all (by decide)
  · split at read
    · next word => exact word ▸ ascii_of_all (by decide)
    · split at read
      · next word => exact word ▸ ascii_of_all (by decide)
      · exact ascii_of_read read

private theorem head_isDigit {rest : List Char} {c : Char}
    (number : c :: rest ∈ plainNumbers Char.isDigit ∨ c :: rest ∈ scaledNumbers Char.isDigit) :
    c.isDigit = true := by
  obtain ⟨whole, part, tail, parted, shape⟩ := exists_parted number
  obtain ⟨d, ds, rfl⟩ := List.exists_cons_of_ne_nil parted.full
  obtain ⟨rfl, -⟩ := List.cons.inj shape
  exact List.all_eq_true.mp parted.digits c List.mem_cons_self

private theorem isSome_read {body : List Char}
    (number : body ∈ plainNumbers Char.isDigit ∨ body ∈ scaledNumbers Char.isDigit)
    (signed : cs = body ∨ cs = '-' :: body) : (Binary64.read? cs).isSome = true := by
  unfold Binary64.read?
  split
  next negative rest sign =>
    have same : rest = body := by
      rcases signed with rfl | rfl
      · split at sign
        · exact absurd (head_isDigit number) (by decide)
        · exact absurd (head_isDigit number) (by decide)
        · exact (Prod.mk.inj sign).2.symm
      · exact (Prod.mk.inj sign).2.symm
    subst same
    dsimp only
    split
    · rfl
    · split
      · rfl
      · exact isSome_unsigned negative number

theorem isSome_numberOfText (number : cs ∈ numberTexts Char.isDigit) :
    (numberOfText? cs).isSome = true := by
  rcases mem_numberTexts.mp number with rfl | rfl | rfl | ⟨body, form, signed⟩
  · rfl
  · rfl
  · rfl
  · unfold numberOfText?
    split
    · rfl
    · split
      · rfl
      · split
        · rfl
        · exact isSome_read form signed

end Reader

section Digits

variable {among : Char → Prop} {p q : Char → Bool} (agree : ∀ c, among c → p c = q c)

include agree

private theorem sameOn_fractions : SameOn among (fractions p) (fractions q) :=
  ((SameOn.refl _).mul (sameOn_someOf agree)).maybe

/-- What counts as a digit makes a difference only to texts with characters that it differs on. -/
theorem sameOn_numberTexts : SameOn among (numberTexts p) (numberTexts q) := by
  have fractions := sameOn_fractions agree
  have exponents : SameOn among (exponents p) (exponents q) :=
    (SameOn.refl _).mul (sameOn_someOf agree)
  have plain : SameOn among (plainNumbers p) (plainNumbers q) :=
    ((SameOn.refl _).add ((SameOn.refl _).mul (sameOn_star agree))).mul fractions
  have scaled : SameOn among (scaledNumbers p) (scaledNumbers q) :=
    ((sameOn_oneOf agree).mul fractions).mul exponents
  exact ((SameOn.refl _).add ((SameOn.refl _).mul plain)).add ((SameOn.refl _).mul scaled)

end Digits

theorem readNumber_of_numberText {t : String} (number : t.toList ∈ numberTexts Char.isDigit) :
    ∃ x, numberOfText? t.toList = some x ∧ readNumber (.string t) = .ok (.number x) := by
  obtain ⟨x, value⟩ := Option.isSome_iff_exists.mp (isSome_numberOfText number)
  refine ⟨x, value, ?_⟩
  simp only [readNumber, isNumberText_iff.mpr number, value, if_true]

theorem readNumber_of_other {t : String} (other : t.toList ∉ numberTexts Char.isDigit) :
    readNumber (.string t) = .error (.of (.invalidFormat "number" t)) := by
  have refused : isNumberText t.toList = false :=
    Bool.eq_false_iff.mpr fun number => other (isNumberText_iff.mp number)
  simp only [readNumber, refused]
  rfl

/-- A text is read as a number exactly if it has the form of one with ASCII digits, and every other
text is refused by its name. That is what becomes of the form with any digits that are those of ASCII
among its characters, if after it the second reader has to give the value. -/
theorem readNumber_string (digit : Char → Bool)
    (ascii : ∀ c : Char, c.toNat < 128 → digit c = c.isDigit) (t : String) :
    ((∃ v, readNumber (.string t) = .ok v) ↔ t.toList ∈ numberTexts Char.isDigit) ∧
      (t.toList ∉ numberTexts Char.isDigit →
        readNumber (.string t) = .error (.of (.invalidFormat "number" t))) ∧
      ∀ v, readNumber (.string t) = .ok v ↔ t.toList ∈ numberTexts digit ∧
        ∃ x, numberOfText? t.toList = some x ∧ v = .number x := by
  have same : ∀ cs : List Char, Ascii cs → (cs ∈ numberTexts digit ↔ cs ∈ numberTexts Char.isDigit) :=
    sameOn_numberTexts ascii
  by_cases number : t.toList ∈ numberTexts Char.isDigit
  · obtain ⟨x, value, read⟩ := readNumber_of_numberText number
    refine ⟨iff_of_true ⟨_, read⟩ number, fun other => absurd number other, fun v => ?_⟩
    have wide := (same _ (ascii_of_numberOfText value)).mpr number
    rw [read, value]
    constructor
    · intro done
      exact ⟨wide, x, rfl, (Except.ok.inj done).symm⟩
    · rintro ⟨-, y, found, rfl⟩
      rw [Option.some.inj found]
  · have refused := readNumber_of_other number
    refine ⟨iff_of_false ?_ number, fun _ => refused, fun v => iff_of_false ?_ ?_⟩
    · rintro ⟨v, read⟩
      simp [refused] at read
    · simp [refused]
    · rintro ⟨wide, x, value, -⟩
      exact number ((same _ (ascii_of_numberOfText value)).mp wide)

def asciiOrArabic (c : Char) : Bool :=
  c.isDigit || (decide (0x660 ≤ c.toNat) && decide (c.toNat ≤ 0x669))

/-- A text with an Arabic digit has the wider form, and is refused like one without any; an exponent
is read. -/
theorem readNumber_string_mixed :
    (∀ c : Char, c.toNat < 128 → asciiOrArabic c = c.isDigit) ∧
      "1\u0663".toList ∈ numberTexts asciiOrArabic ∧
      readNumber (.string "1\u0663") = .error (.of (.invalidFormat "number" "1\u0663")) ∧
      ∃ v, readNumber (.string "1e+3") = .ok v := by
  have ascii : ∀ c : Char, c.toNat < 128 → asciiOrArabic c = c.isDigit := by
    intro c small
    have other : ¬0x660 ≤ c.toNat := by omega
    simp [asciiOrArabic, other]
  have wide : "1\u0663".toList ∈ numberTexts asciiOrArabic := by
    refine mem_numberTexts.mpr (Or.inr (Or.inr (Or.inr ⟨_, Or.inl ?_, Or.inl rfl⟩)))
    refine mem_plainNumbers.mpr ⟨['1', '\u0663'], [], Or.inl rfl, Or.inr ?_, by simp⟩
    exact ⟨'1', ['\u0663'], by decide, by decide, by decide, rfl⟩
  obtain ⟨-, refused, -⟩ := readNumber_string asciiOrArabic ascii "1\u0663"
  obtain ⟨accepted, -⟩ := readNumber_string asciiOrArabic ascii "1e+3"
  refine ⟨ascii, wide, refused fun number => ?_, accepted.mpr ?_⟩
  · exact absurd (isNumberText_iff.mpr number) (by decide)
  · exact isNumberText_iff.mp (by decide)

end WireSchema.Leaf
