import WireSchema.Text.Quoted
import WireSchema.Proofs.Text.Lines

/-!
Quoted text can be read back: it tells the string between its quotes and where it ends, and no line
break stands in it.
-/

set_option autoImplicit false

namespace WireSchema.Text

private theorem digitChar_injective :
    ∀ m < 16, ∀ n < 16, Nat.digitChar m = Nat.digitChar n → m = n := by
  decide

private theorem digitChar_plain :
    ∀ d < 16, Nat.digitChar d ≠ '\x7d' ∧ Nat.digitChar d ≠ '\n' ∧ Nat.digitChar d ≠ '\r' := by
  decide

private theorem hexDigits_step {n : Nat} (large : 16 ≤ n) :
    hexDigits n = hexDigits (n / 16) ++ [Nat.digitChar (n % 16)] := by
  rw [hexDigits, Nat.toDigits_eq_if (by decide), if_neg (by omega)]
  rfl

private theorem hexDigits_small {n : Nat} (small : n < 16) : hexDigits n = [Nat.digitChar n] :=
  Nat.toDigits_of_lt_base small

private theorem hexDigits_ne_nil (n : Nat) : hexDigits n ≠ [] :=
  Nat.toDigits_ne_nil

theorem hexDigits_injective {m n : Nat} (same : hexDigits m = hexDigits n) : m = n := by
  induction m using Nat.strongRecOn generalizing n with
  | ind m ih =>
    by_cases small : m < 16
    · rw [hexDigits_small small] at same
      by_cases small' : n < 16
      · rw [hexDigits_small small'] at same
        exact digitChar_injective m small n small' (List.singleton_inj.mp same)
      · rw [hexDigits_step (by omega)] at same
        have length := congrArg List.length same
        have some := List.length_pos_iff.mpr (hexDigits_ne_nil (n / 16))
        simp only [List.length_singleton, List.length_append] at length
        omega
    · rw [hexDigits_step (n := m) (by omega)] at same
      by_cases small' : n < 16
      · rw [hexDigits_small small'] at same
        have length := congrArg List.length same
        have some := List.length_pos_iff.mpr (hexDigits_ne_nil (m / 16))
        simp only [List.length_singleton, List.length_append] at length
        omega
      · rw [hexDigits_step (n := n) (by omega)] at same
        obtain ⟨front, last⟩ := List.append_inj' same rfl
        have rest : m / 16 = n / 16 := ih (m / 16) (by omega) front
        have digit : m % 16 = n % 16 :=
          digitChar_injective _ (by omega) _ (by omega) (List.singleton_inj.mp last)
        omega

theorem exists_digit_of_mem_hexDigits {n : Nat} {c : Char} (member : c ∈ hexDigits n) :
    ∃ d < 16, c = Nat.digitChar d := by
  induction n using Nat.strongRecOn with
  | ind n ih =>
    by_cases small : n < 16
    · rw [hexDigits_small small] at member
      exact ⟨n, small, List.mem_singleton.mp member⟩
    · rw [hexDigits_step (by omega)] at member
      rcases List.mem_append.mp member with front | last
      · exact ih (n / 16) (by omega) front
      · exact ⟨n % 16, by omega, List.mem_singleton.mp last⟩

private def lettered : List (Char × Char) :=
  [('t', '\t'), ('r', '\r'), ('n', '\n'), ('0', '\x00'), ('"', '"'), ('\\', '\\')]

private theorem lettered_unique : ∀ p ∈ lettered, ∀ q ∈ lettered, p.1 = q.1 → p = q := by
  decide

private theorem lettered_plain :
    ∀ p ∈ lettered, p.1 ≠ 'u' ∧ p.1 ≠ '\n' ∧ p.1 ≠ '\r' := by
  decide

private theorem quotedChar_cases (c : Char) :
    (quotedChar c = [c] ∧ c ≠ '"' ∧ c ≠ '\\' ∧ c ≠ '\n' ∧ c ≠ '\r') ∨
      (∃ letter, quotedChar c = ['\\', letter] ∧ (letter, c) ∈ lettered) ∨
      quotedChar c = '\\' :: 'u' :: '\x7b' :: (hexDigits c.toNat ++ ['\x7d']) := by
  by_cases special : ∃ letter, (letter, c) ∈ lettered
  · obtain ⟨letter, member⟩ := special
    refine Or.inr (Or.inl ⟨letter, ?_, member⟩)
    simp only [lettered, List.mem_cons, Prod.mk.injEq, List.not_mem_nil, or_false] at member
    rcases member with ⟨rfl, rfl⟩ | ⟨rfl, rfl⟩ | ⟨rfl, rfl⟩ | ⟨rfl, rfl⟩ | ⟨rfl, rfl⟩ | ⟨rfl, rfl⟩ <;>
      decide
  · simp only [lettered, List.mem_cons, Prod.mk.injEq, List.not_mem_nil, or_false, exists_or,
      exists_eq_left, not_or] at special
    obtain ⟨tab, feed, line, nul, quote, slash⟩ := special
    unfold quotedChar
    rw [if_neg tab, if_neg feed, if_neg line, if_neg nul, if_neg quote, if_neg slash]
    split
    · exact Or.inl ⟨rfl, quote, slash, line, feed⟩
    · exact Or.inr (Or.inr rfl)

theorem brace_not_mem_hexDigits (n : Nat) : '\x7d' ∉ hexDigits n := by
  intro member
  obtain ⟨d, small, here⟩ := exists_digit_of_mem_hexDigits member
  exact (digitChar_plain d small).1 here.symm

theorem quotedChar_prefix {c d : Char} {xs ys : List Char}
    (same : quotedChar c ++ xs = quotedChar d ++ ys) : c = d ∧ xs = ys := by
  rcases quotedChar_cases c with ⟨one, -, slash, -⟩ | ⟨letter, one, member⟩ | one
  · rcases quotedChar_cases d with ⟨two, -⟩ | ⟨letter, two, -⟩ | two
    · rw [one, two] at same
      exact List.cons.inj same
    · rw [one, two] at same
      exact absurd (List.cons.inj same).1 slash
    · rw [one, two] at same
      exact absurd (List.cons.inj same).1 slash
  · rcases quotedChar_cases d with ⟨two, -, slash, -⟩ | ⟨letter', two, member'⟩ | two
    · rw [one, two] at same
      exact absurd (List.cons.inj same).1.symm slash
    · rw [one, two] at same
      obtain ⟨same, rest⟩ := List.cons.inj (List.cons.inj same).2
      have pair := lettered_unique _ member _ member' same
      exact ⟨congrArg Prod.snd pair, rest⟩
    · rw [one, two] at same
      exact absurd (List.cons.inj (List.cons.inj same).2).1 (lettered_plain _ member).1
  · rcases quotedChar_cases d with ⟨two, -, slash, -⟩ | ⟨letter, two, member⟩ | two
    · rw [one, two] at same
      exact absurd (List.cons.inj same).1.symm slash
    · rw [one, two] at same
      exact absurd (List.cons.inj (List.cons.inj same).2).1.symm (lettered_plain _ member).1
    · rw [one, two] at same
      have digits : hexDigits c.toNat ++ '\x7d' :: xs = hexDigits d.toNat ++ '\x7d' :: ys := by
        simpa using same
      obtain ⟨number, rest⟩ := split_at_first (brace_not_mem_hexDigits _)
        (brace_not_mem_hexDigits _) digits
      exact ⟨Char.toNat_inj.mp (hexDigits_injective number), rest⟩

private theorem quotedChar_head (c : Char) (xs ys : List Char) :
    quotedChar c ++ xs ≠ '"' :: ys := by
  intro same
  rcases quotedChar_cases c with ⟨one, quote, -⟩ | ⟨letter, one, -⟩ | one
  · rw [one] at same
    exact quote (List.cons.inj same).1
  · rw [one] at same
    exact absurd (List.cons.inj same).1 (by decide)
  · rw [one] at same
    exact absurd (List.cons.inj same).1 (by decide)

private theorem quotedChars_prefix {cs ds xs ys : List Char}
    (same : cs.flatMap quotedChar ++ '"' :: xs = ds.flatMap quotedChar ++ '"' :: ys) :
    cs = ds ∧ xs = ys := by
  induction cs generalizing ds with
  | nil =>
    cases ds with
    | nil => exact ⟨rfl, (List.cons.inj same).2⟩
    | cons d rest =>
      rw [List.flatMap_cons, List.append_assoc] at same
      exact absurd same.symm (quotedChar_head d _ _)
  | cons c rest ih =>
    cases ds with
    | nil =>
      rw [List.flatMap_cons, List.append_assoc] at same
      exact absurd same (quotedChar_head c _ _)
    | cons d more =>
      rw [List.flatMap_cons, List.flatMap_cons, List.append_assoc, List.append_assoc] at same
      obtain ⟨rfl, others⟩ := quotedChar_prefix same
      obtain ⟨rfl, after⟩ := ih others
      exact ⟨rfl, after⟩

/-- Whatever follows it, quoted text tells the string and where it ends. -/
theorem quoted_prefix {s t : String} {xs ys : List Char}
    (same : (quoted s).toList ++ xs = (quoted t).toList ++ ys) : s = t ∧ xs = ys := by
  simp only [quoted, String.toList_ofList, List.cons_append, List.append_assoc, List.nil_append,
    List.cons.injEq, true_and] at same
  obtain ⟨chars, after⟩ := quotedChars_prefix same
  exact ⟨String.toList_inj.mp chars, after⟩

theorem quoted_plain {s : String} {c : Char} (member : c ∈ (quoted s).toList) :
    c ≠ '\n' ∧ c ≠ '\r' := by
  simp only [quoted, String.toList_ofList, List.cons_append, List.mem_cons, List.mem_append,
    List.mem_flatMap, List.not_mem_nil, or_false] at member
  rcases member with rfl | ⟨d, -, member⟩ | rfl
  · decide
  · rcases quotedChar_cases d with ⟨one, -, -, line, feed⟩ | ⟨letter, one, escaped⟩ | one
    · rw [one, List.mem_singleton] at member
      exact member ▸ ⟨line, feed⟩
    · rw [one] at member
      rcases List.mem_cons.mp member with rfl | member
      · decide
      · exact List.mem_singleton.mp member ▸ (lettered_plain _ escaped).2
    · rw [one] at member
      simp only [List.mem_cons, List.mem_append, List.not_mem_nil, or_false] at member
      rcases member with rfl | rfl | rfl | member | rfl
      · decide
      · decide
      · decide
      · obtain ⟨digit, small, rfl⟩ := exists_digit_of_mem_hexDigits member
        exact (digitChar_plain digit small).2
      · decide
  · decide

end WireSchema.Text
