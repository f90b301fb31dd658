import Mathlib.Algebra.Group.Nat.Defs
import Mathlib.Data.List.Basic
import Mathlib.Data.List.TakeDrop
import WireSchema.Text.Digits

/-!
Runs of decimal digits: which characters they consist of, and where they end.
-/

set_option autoImplicit false

namespace WireSchema.Text

theorem isDigit_iff {c : Char} : c.isDigit = true ↔ 48 ≤ c.toNat ∧ c.toNat ≤ 57 := by
  simp only [Char.isDigit, Bool.and_eq_true, decide_eq_true_eq, ge_iff_le]
  exact Iff.rfl

theorem spanDigits_eq {cs ds rest : List Char} (cut : spanDigits cs = (ds, rest)) :
    cs = ds ++ rest ∧ ds.all Char.isDigit = true ∧ rest.head?.all (fun c => !c.isDigit) = true := by
  rw [spanDigits, List.span_eq_takeWhile_dropWhile, Prod.mk.injEq] at cut
  obtain ⟨rfl, rfl⟩ := cut
  refine ⟨List.takeWhile_append_dropWhile.symm, List.all_takeWhile, ?_⟩
  cases left : cs.dropWhile Char.isDigit with
  | nil => rfl
  | cons c rest =>
    have stop := List.head?_dropWhile_not Char.isDigit cs
    simpa [left] using stop

theorem spanDigits_append {ds rest : List Char} (digits : ds.all Char.isDigit = true)
    (stop : rest.head?.all (fun c => !c.isDigit) = true) : spanDigits (ds ++ rest) = (ds, rest) := by
  rw [spanDigits, List.span_eq_takeWhile_dropWhile]
  have every := List.all_eq_true.mp digits
  rw [List.takeWhile_append_of_pos every, List.dropWhile_append_of_pos every]
  cases rest with
  | nil => simp
  | cons c rest =>
    have other : c.isDigit = false := by simpa using stop
    simp [other]

theorem all_digits (n : Nat) : (digits n).all Char.isDigit = true :=
  List.all_eq_true.mpr fun _ member => isDigit_of_mem_digits member

theorem digits_ne_nil (n : Nat) : digits n ≠ [] :=
  Nat.toDigits_ne_nil

theorem length_digits_le {n width : Nat} (positive : 0 < width) (small : n < 10 ^ width) :
    (digits n).length ≤ width :=
  (Nat.length_toDigits_le_iff (by decide) positive).mpr small

theorem all_padded (width n : Nat) : (padded width n).all Char.isDigit = true := by
  rw [padded, List.all_append, all_digits, Bool.and_true]
  exact List.all_eq_true.mpr fun c member => by rw [List.eq_of_mem_replicate member]; rfl

@[simp] theorem ofDigits_padded (width n : Nat) : ofDigits (padded width n) = n := by
  rw [padded, ofDigits, Nat.ofDigitChars_append, Nat.ofDigitChars_replicate_zero, Nat.mul_zero]
  exact ofDigits_digits n

theorem length_padded {width n : Nat} (positive : 0 < width) (small : n < 10 ^ width) :
    (padded width n).length = width := by
  have fits := length_digits_le positive small
  rw [padded, List.length_append, List.length_replicate]
  omega

theorem le_length_padded (width n : Nat) : width ≤ (padded width n).length := by
  rw [padded, List.length_append, List.length_replicate]
  omega

theorem takeNat_padded {width n : Nat} (positive : 0 < width) (small : n < 10 ^ width)
    (rest : List Char) : takeNat? width (padded width n ++ rest) = some (n, rest) := by
  have length := length_padded positive small
  have front : (padded width n ++ rest).take width = padded width n := by
    rw [List.take_append_of_le_length (by omega), List.take_of_length_le (by omega)]
  have back : (padded width n ++ rest).drop width = rest := by
    rw [List.drop_append_of_le_length (by omega), List.drop_of_length_le (by omega),
      List.nil_append]
  simp [takeNat?, front, back, length, all_padded]

theorem bind_of_eq_some {α β : Type} {x : Option α} {a : α} (found : x = some a)
    (f : α → Option β) : (x >>= f) = f a := by
  rw [found]
  rfl

@[simp] theorem dropChar_self (c : Char) (rest : List Char) :
    dropChar? c (c :: rest) = some rest := by
  simp [dropChar?]

theorem dropChar_eq_some {c : Char} {cs rest : List Char} :
    dropChar? c cs = some rest ↔ cs = c :: rest := by
  cases cs with
  | nil => simp [dropChar?]
  | cons d more => simp [dropChar?]

private theorem ofDigitChars_lt {ds : List Char} (digits : ds.all Char.isDigit = true) (n : Nat) :
    Nat.ofDigitChars 10 ds n < (n + 1) * 10 ^ ds.length := by
  induction ds generalizing n with
  | nil => simp [Nat.ofDigitChars]
  | cons d ds ih =>
    rw [List.all_cons, Bool.and_eq_true] at digits
    have digit := (isDigit_iff.mp digits.1).2
    have value : d.toNat - 48 ≤ 9 := by omega
    have room : 10 * n + (d.toNat - 48) + 1 ≤ (n + 1) * 10 := by omega
    rw [Nat.ofDigitChars_cons, List.length_cons, Nat.pow_succ, Nat.mul_comm _ 10, ← Nat.mul_assoc]
    exact Nat.lt_of_lt_of_le (ih digits.2 _) (Nat.mul_le_mul_right _ room)

theorem ofDigits_lt {ds : List Char} (digits : ds.all Char.isDigit = true) :
    ofDigits ds < 10 ^ ds.length := by
  simpa [ofDigits] using ofDigitChars_lt digits 0

theorem fraction_lt {part : List Char} (digits : part.all Char.isDigit = true)
    (short : part.length ≤ 9) : ofDigits part * Nat.pow 10 (9 - part.length) < 1000000000 := by
  have below := ofDigits_lt digits
  have whole : 10 ^ part.length * 10 ^ (9 - part.length) = 10 ^ 9 := by
    rw [← Nat.pow_add]
    congr 1
    omega
  calc ofDigits part * Nat.pow 10 (9 - part.length)
      < 10 ^ part.length * 10 ^ (9 - part.length) :=
        Nat.mul_lt_mul_of_pos_right below (Nat.pow_pos (by decide))
    _ = 1000000000 := whole

theorem takeNat_eq_some {count n : Nat} {cs rest : List Char} :
    takeNat? count cs = some (n, rest) ↔ ∃ ds, cs = ds ++ rest ∧ ds.length = count ∧
      ds.all Char.isDigit = true ∧ ofDigits ds = n := by
  constructor
  · intro taken
    simp only [takeNat?] at taken
    split at taken
    · next front =>
      obtain ⟨rfl, rfl⟩ := Prod.mk.inj (Option.some.inj taken)
      exact ⟨cs.take count, (List.take_append_drop count cs).symm, front.1, front.2, rfl⟩
    · simp at taken
  · rintro ⟨ds, rfl, length, digits, rfl⟩
    have front : (ds ++ rest).take count = ds := by simp [← length]
    have back : (ds ++ rest).drop count = rest := by simp [← length]
    simp only [takeNat?, front, back, length, digits, and_self, if_true]

theorem toList_integer (n : Int) :
    (integer n).toList = (if n < 0 then ['-'] else []) ++ digits n.natAbs := by
  unfold integer decimal
  split
  · simp
  · simp

end WireSchema.Text
