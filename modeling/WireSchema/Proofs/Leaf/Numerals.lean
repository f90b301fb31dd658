import Mathlib.Algebra.Ring.Int.Defs
import Mathlib.Data.List.Induction
import WireSchema.Convert.Write
import WireSchema.Proofs.Leaf.RoundTrip

/-!
Integers that travel as decimal text: which texts are numerals, which integer each of them denotes,
and which one of its numerals an integer is written as. A text is read if and only if it is a numeral,
as the integer that it denotes.
-/

set_option autoImplicit false

namespace WireSchema.Text

/-- A run of decimal digits and the number that it denotes: every digit counts ten times as much as
the one after it. -/
inductive Numeral : List Char → Nat → Prop where
  | digit {c : Char} : c.isDigit = true → Numeral [c] (c.toNat - '0'.toNat)
  | more {ds : List Char} {n : Nat} {c : Char} : Numeral ds n → c.isDigit = true →
      Numeral (ds ++ [c]) (10 * n + (c.toNat - '0'.toNat))

inductive Denotes : List Char → Int → Prop where
  | unsigned {ds : List Char} {n : Nat} : Numeral ds n → Denotes ds n
  | negated {ds : List Char} {n : Nat} : Numeral ds n → Denotes ('-' :: ds) (-n)

/-- The numeral of an integer that has no zero in front of other digits and no sign at a zero. -/
inductive Canonical : List Char → Int → Prop where
  | zero : Canonical ['0'] 0
  | positive {c : Char} {ds : List Char} {n : Nat} : Numeral (c :: ds) n → c ≠ '0' →
      Canonical (c :: ds) n
  | negative {c : Char} {ds : List Char} {n : Nat} : Numeral (c :: ds) n → c ≠ '0' →
      Canonical ('-' :: c :: ds) (-n)

theorem ofDigits_concat (ds : List Char) (c : Char) :
    ofDigits (ds ++ [c]) = 10 * ofDigits ds + (c.toNat - '0'.toNat) := by
  rw [ofDigits, Nat.ofDigitChars_append, Nat.ofDigitChars_cons, Nat.ofDigitChars_nil]
  rfl

theorem ofDigits_singleton (c : Char) : ofDigits [c] = c.toNat - '0'.toNat := by
  rw [← List.nil_append [c], ofDigits_concat]
  exact Nat.zero_add _

theorem numeral_iff {ds : List Char} {n : Nat} :
    Numeral ds n ↔ (ds ≠ [] ∧ ds.all Char.isDigit = true) ∧ ofDigits ds = n := by
  constructor
  · intro numeral
    induction numeral with
    | @digit c isDigit => exact ⟨⟨by simp, by simpa using isDigit⟩, ofDigits_singleton c⟩
    | @more ds n c _ isDigit ih =>
      obtain ⟨⟨-, every⟩, value⟩ := ih
      refine ⟨⟨by simp, by simp [every, isDigit]⟩, ?_⟩
      rw [ofDigits_concat, value]
  · rintro ⟨⟨some, every⟩, rfl⟩
    induction ds using List.reverseRecOn with
    | nil => exact absurd rfl some
    | append_singleton ds c ih =>
      rw [List.all_append, Bool.and_eq_true] at every
      have isDigit : c.isDigit = true := by simpa using every.2
      by_cases first : ds = []
      · subst first
        rw [List.nil_append, ofDigits_singleton]
        exact .digit isDigit
      · rw [ofDigits_concat]
        exact (ih first every.1).more isDigit

theorem numeral_digits (n : Nat) : Numeral (digits n) n :=
  numeral_iff.mpr ⟨⟨digits_ne_nil n, all_digits n⟩, ofDigits_digits n⟩

theorem exists_digits_cons {n : Nat} (positive : 0 < n) :
    ∃ c ds, digits n = c :: ds ∧ c ≠ '0' := by
  induction n using Nat.strong_induction_on with
  | h n ih =>
    by_cases small : n < 10
    · refine ⟨n.digitChar, [], Nat.toDigits_of_lt_base small, fun same => ?_⟩
      have value : n.digitChar.toNat = 48 + n := Nat.toNat_digitChar_of_lt_ten small
      rw [same] at value
      exact absurd value (by simp; omega)
    · obtain ⟨c, ds, front, nonzero⟩ := ih (n / 10) (by omega) (by omega)
      have split : digits n = digits (n / 10) ++ [(n % 10).digitChar] := by
        rw [digits, Nat.toDigits_eq_if (by decide), if_neg small]
        rfl
      exact ⟨c, ds ++ [(n % 10).digitChar], by rw [split, front, List.cons_append], nonzero⟩

theorem canonical_integer (n : Int) : Canonical (integer n).toList n := by
  rw [toList_integer]
  by_cases zero : n.natAbs = 0
  · obtain rfl := Int.natAbs_eq_zero.mp zero
    exact .zero
  · obtain ⟨c, ds, front, nonzero⟩ := exists_digits_cons (Nat.pos_of_ne_zero zero)
    have numeral := numeral_digits n.natAbs
    rw [front] at numeral ⊢
    by_cases negative : n < 0
    · rw [if_pos negative]
      have size : -(n.natAbs : Int) = n := by omega
      exact size ▸ Canonical.negative numeral nonzero
    · rw [if_neg negative]
      have size : (n.natAbs : Int) = n := by omega
      exact size ▸ Canonical.positive numeral nonzero

theorem Canonical.denotes {cs : List Char} {n : Int} (canonical : Canonical cs n) :
    Denotes cs n := by
  cases canonical with
  | zero => exact .unsigned (.digit (by decide))
  | positive numeral _ => exact .unsigned numeral
  | negative numeral _ => exact .negated numeral

end WireSchema.Text

namespace WireSchema.Leaf

open WireSchema.Text

/-- Numerals are what an integer is read of, and it is the integer that they denote. -/
theorem integerOfText_eq_some_iff {cs : List Char} {n : Int} :
    integerOfText? cs = some n ↔ Denotes cs n := by
  constructor
  · intro read
    unfold integerOfText? at read
    split at read
    next negative ds sign =>
      rw [Option.ite_none_right_eq_some, Option.some.injEq] at read
      obtain ⟨run, rfl⟩ := read
      have numeral := numeral_iff.mpr ⟨run, rfl⟩
      split at sign
      · obtain ⟨rfl, rfl⟩ := Prod.mk.inj sign
        exact .negated numeral
      · obtain ⟨rfl, rfl⟩ := Prod.mk.inj sign
        exact .unsigned numeral
  · intro denotes
    cases denotes with
    | unsigned numeral =>
      obtain ⟨⟨some, every⟩, rfl⟩ := numeral_iff.mp numeral
      exact (integerOfText_of_digits some every).1
    | negated numeral =>
      obtain ⟨⟨some, every⟩, rfl⟩ := numeral_iff.mp numeral
      exact (integerOfText_of_digits some every).2

theorem integerOfText_eq_none_iff {cs : List Char} :
    integerOfText? cs = none ↔ ¬∃ n, Denotes cs n := by
  simp only [← integerOfText_eq_some_iff, ← Option.isSome_iff_exists, Bool.not_eq_true,
    Option.isSome_eq_false_iff, Option.isNone_iff_eq_none]

theorem readDigits_of_denotes {kind s : String} {n : Int} (denotes : Denotes s.toList n) :
    readDigits kind (.string s) = .ok n := by
  rw [readDigits, integerOfText_eq_some_iff.mpr denotes]

theorem readDigits_of_other {kind s : String} (other : ¬∃ n, Denotes s.toList n) :
    readDigits kind (.string s) = .error (.of (.invalidFormat kind s)) := by
  rw [readDigits, integerOfText_eq_none_iff.mpr other]

theorem readDigitsIn_of_denotes {range : IntegerRange} {s : String} {n : Int}
    (denotes : Denotes s.toList n) : readDigitsIn range (.string s) =
      if range.least ≤ n ∧ n ≤ range.greatest then .ok n
      else .error (.of (.outOfRange range.name (integer n))) := by
  rw [readDigitsIn, readDigits_of_denotes denotes]
  rfl

theorem readDigitsIn_of_other {range : IntegerRange} {s : String}
    (other : ¬∃ n, Denotes s.toList n) :
    readDigitsIn range (.string s) = .error (.of (.invalidFormat range.name s)) := by
  rw [readDigitsIn, readDigits_of_other other]
  rfl

/-- The leaves of integers that travel as decimal text, and the integers that each of them holds. -/
inductive InDecimal : Leaf → (Int → Prop) → Prop where
  | bigint : InDecimal .bigint fun _ => True
  | u64 : InDecimal .u64 fun n => 0 ≤ n ∧ n ≤ 2 ^ 64 - 1
  | i64 : InDecimal .i64 fun n => -2 ^ 63 ≤ n ∧ n ≤ 2 ^ 63 - 1

/-- How a numeral is read by a leaf: as what it denotes if the leaf holds that. -/
structure ReadsNumerals (l : Leaf) (holds : Int → Prop) : Prop where
  held {s : String} {n : Int} (origin : Origin) : Denotes s.toList n → holds n →
    l.read origin (.string s) = .ok (.bigint origin n)
  outside {s : String} {n : Int} (origin : Origin) : Denotes s.toList n → ¬holds n →
    l.read origin (.string s) = .error (.of (.outOfRange l.name (integer n)))
  other {s : String} (origin : Origin) : (¬∃ n, Denotes s.toList n) →
    l.read origin (.string s) = .error (.of (.invalidFormat l.name s))

private theorem readsNumerals_of_range {l : Leaf} (range : IntegerRange)
    (reads : ∀ origin v, l.read origin v = readBigintIn range origin v)
    (named : range.name = l.name) :
    ReadsNumerals l fun n => range.least ≤ n ∧ n ≤ range.greatest where
  held origin denotes inside := by
    rw [reads, readBigintIn, readDigitsIn_of_denotes denotes, if_pos inside]
    rfl
  outside origin denotes out := by
    rw [reads, readBigintIn, readDigitsIn_of_denotes denotes, if_neg out, named]
    rfl
  other origin other := by
    rw [reads, readBigintIn, readDigitsIn_of_other other, named]
    rfl

theorem InDecimal.readsNumerals {l : Leaf} {holds : Int → Prop} (travels : InDecimal l holds) :
    ReadsNumerals l holds := by
  cases travels with
  | bigint =>
    refine ⟨fun origin denotes _ => ?_, fun _ _ out => absurd trivial out, fun origin other => ?_⟩
    · exact map_eq_ok.mpr ⟨_, readDigits_of_denotes denotes, rfl⟩
    · exact map_eq_error.mpr (readDigits_of_other other)
  | u64 => exact readsNumerals_of_range natural64 (fun _ _ => rfl) rfl
  | i64 => exact readsNumerals_of_range signed64 (fun _ _ => rfl) rfl

theorem InDecimal.write_eq {l : Leaf} {holds : Int → Prop} (travels : InDecimal l holds)
    (options : WriteOptions) (place : Origin) (n : Int) :
    Schema.write options (.leaf l) (.bigint place n) = .ok (.string (integer n)) := by
  cases travels <;> rfl

/-- A text is refused as misspelled exactly if it is no numeral. Any other is read as the integer that
it denotes if the leaf holds it, and refused with the numeral of that integer if not. So what is
written of an integer is read as that integer again. -/
theorem read_numerals {l : Leaf} {holds : Int → Prop} (travels : InDecimal l holds)
    (origin : Origin) :
    (∀ s : String, l.read origin (.string s) = .error (.of (.invalidFormat l.name s)) ↔
      ¬∃ n, Denotes s.toList n) ∧
    (∀ (s : String) (n : Int), Denotes s.toList n →
      (holds n → l.read origin (.string s) = .ok (.bigint origin n)) ∧
      (¬holds n → ∃ text : String, Canonical text.toList n ∧
        l.read origin (.string s) = .error (.of (.outOfRange l.name text)))) ∧
    ∀ n, holds n → ∀ options place, ∃ text : String, Canonical text.toList n ∧
      Schema.write options (.leaf l) (.bigint place n) = .ok (.string text) ∧
        l.read origin (.string text) = .ok (.bigint origin n) := by
  have reads := travels.readsNumerals
  refine ⟨fun s => ⟨fun refused => ?_, reads.other origin⟩, fun s n denotes => ⟨?_, ?_⟩, ?_⟩
  · rintro ⟨n, denotes⟩
    by_cases inside : holds n
    · simp [reads.held origin denotes inside] at refused
    · simp [reads.outside origin denotes inside, Fault.of] at refused
  · exact reads.held origin denotes
  · intro out
    exact ⟨integer n, canonical_integer n, reads.outside origin denotes out⟩
  · intro n inside options place
    have canonical := canonical_integer n
    exact ⟨integer n, canonical, travels.write_eq options place n,
      reads.held origin canonical.denotes inside⟩

theorem read_numerals_of_64_bits :
    InDecimal .u64 (fun n => 0 ≤ n ∧ n ≤ 2 ^ 64 - 1) ∧
    Denotes "-007".toList (-7) ∧
    (∃ text : String, Canonical text.toList (-7) ∧
      Leaf.read .u64 (.root 0) (.string "-007") = .error (.of (.outOfRange "u64" text))) ∧
    ∃ text : String, Canonical text.toList 18446744073709551615 ∧
      Leaf.read .u64 (.root 0) (.string text) = .ok (.bigint (.root 0) 18446744073709551615) := by
  have seven : Numeral ['0', '0', '7'] 7 :=
    ((Numeral.digit (c := '0') (by decide)).more (c := '0') (by decide)).more (c := '7') (by decide)
  have denotes : Denotes "-007".toList (-7) := Denotes.negated seven
  obtain ⟨text, canonical, -, back⟩ := (read_numerals .u64 (.root 0)).2.2 18446744073709551615
    (by decide) .off (.root 0)
  exact ⟨.u64, denotes, ((read_numerals .u64 (.root 0)).2.1 _ _ denotes).2 (by decide), text,
    canonical, back⟩

end WireSchema.Leaf
