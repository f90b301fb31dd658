import Mathlib.Computability.Language

/-!
Forms of texts, built as patterns are: given texts and classes of characters, one after the other,
one or the other, and repeated. What a class says of characters that a text does not hold makes no
difference to the text.
-/

set_option autoImplicit false

namespace WireSchema.Text

open scoped Computability

def literal (s : String) : Language Char :=
  {s.toList}

def oneOf (p : Char → Bool) : Language Char :=
  {cs | ∃ c, p c = true ∧ cs = [c]}

def maybe (l : Language Char) : Language Char :=
  1 + l

def someOf (p : Char → Bool) : Language Char :=
  oneOf p * (oneOf p)∗

section Members

variable {p : Char → Bool} {l : Language Char} {cs : List Char}

theorem mem_literal {s : String} : cs ∈ literal s ↔ cs = s.toList := Iff.rfl

theorem mem_oneOf : cs ∈ oneOf p ↔ ∃ c, p c = true ∧ cs = [c] := Iff.rfl

theorem mem_maybe : cs ∈ maybe l ↔ cs = [] ∨ cs ∈ l := Iff.rfl

theorem mem_star : cs ∈ (oneOf p)∗ ↔ cs.all p = true := by
  rw [Language.mem_kstar]
  constructor
  · rintro ⟨pieces, rfl, each⟩
    refine List.all_eq_true.mpr fun c member => ?_
    obtain ⟨piece, there, inside⟩ := List.mem_flatten.mp member
    obtain ⟨d, holds, rfl⟩ := each piece there
    rwa [List.mem_singleton.mp inside]
  · intro all
    refine ⟨cs.map fun c => [c], ?_, fun piece there => ?_⟩
    · rw [← List.flatMap_def, List.flatMap_singleton']
    · obtain ⟨c, inside, rfl⟩ := List.mem_map.mp there
      exact ⟨c, List.all_eq_true.mp all c inside, rfl⟩

theorem mem_someOf : cs ∈ someOf p ↔ cs ≠ [] ∧ cs.all p = true := by
  rw [someOf, Language.mem_mul]
  constructor
  · rintro ⟨-, ⟨c, holds, rfl⟩, rest, others, rfl⟩
    exact ⟨List.cons_ne_nil _ _, by simpa [holds] using mem_star.mp others⟩
  · rintro ⟨some, all⟩
    obtain ⟨c, rest, rfl⟩ := List.exists_cons_of_ne_nil some
    rw [List.all_cons, Bool.and_eq_true] at all
    exact ⟨[c], ⟨c, all.1, rfl⟩, rest, mem_star.mpr all.2, rfl⟩

end Members

def SameOn (among : Char → Prop) (l m : Language Char) : Prop :=
  ∀ cs : List Char, (∀ c ∈ cs, among c) → (cs ∈ l ↔ cs ∈ m)

section SameOn

variable {among : Char → Prop} {l m l' m' : Language Char} {p q : Char → Bool}

theorem SameOn.refl (l : Language Char) : SameOn among l l := fun _ _ => Iff.rfl

theorem SameOn.add (first : SameOn among l m) (second : SameOn among l' m') :
    SameOn among (l + l') (m + m') := fun cs plain =>
  or_congr (first cs plain) (second cs plain)

theorem SameOn.mul (first : SameOn among l m) (second : SameOn among l' m') :
    SameOn among (l * l') (m * m') := by
  intro cs plain
  rw [Language.mem_mul, Language.mem_mul]
  have parts : ∀ as bs, as ++ bs = cs → (as ∈ l ↔ as ∈ m) ∧ (bs ∈ l' ↔ bs ∈ m') := by
    rintro as bs rfl
    exact ⟨first as fun c member => plain c (List.mem_append_left _ member),
      second bs fun c member => plain c (List.mem_append_right _ member)⟩
  constructor
  · rintro ⟨as, left, bs, right, whole⟩
    exact ⟨as, (parts as bs whole).1.mp left, bs, (parts as bs whole).2.mp right, whole⟩
  · rintro ⟨as, left, bs, right, whole⟩
    exact ⟨as, (parts as bs whole).1.mpr left, bs, (parts as bs whole).2.mpr right, whole⟩

theorem SameOn.maybe (same : SameOn among l m) : SameOn among (maybe l) (maybe m) :=
  (SameOn.refl 1).add same

section Classes

variable (agree : ∀ c, among c → p c = q c)

include agree

theorem sameOn_oneOf : SameOn among (oneOf p) (oneOf q) := by
  intro cs plain
  rw [mem_oneOf, mem_oneOf]
  constructor
  · rintro ⟨c, holds, rfl⟩
    exact ⟨c, (agree c (plain c List.mem_cons_self)) ▸ holds, rfl⟩
  · rintro ⟨c, holds, rfl⟩
    exact ⟨c, (agree c (plain c List.mem_cons_self)).symm ▸ holds, rfl⟩

theorem sameOn_star : SameOn among (oneOf p)∗ (oneOf q)∗ := by
  intro cs plain
  rw [mem_star, mem_star, List.all_eq_true, List.all_eq_true]
  exact forall₂_congr fun c member => by rw [agree c (plain c member)]

theorem sameOn_someOf : SameOn among (someOf p) (someOf q) :=
  (sameOn_oneOf agree).mul (sameOn_star agree)

end Classes

end SameOn

end WireSchema.Text
