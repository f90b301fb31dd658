import WireSchema.Text.Blank
import WireSchema.Proofs.Text.Digits

/-!
Text without blanks is its own trimmed form, and digits are no blanks.
-/

set_option autoImplicit false

namespace WireSchema.Text

def Solid (cs : List Char) : Prop :=
  ∀ c ∈ cs, isBlank c = false

instance (cs : List Char) : Decidable (Solid cs) :=
  decidable_of_iff ((cs.all fun c => !isBlank c) = true) (by simp [Solid])

theorem isBlank_of_isDigit {c : Char} (digit : c.isDigit = true) : isBlank c = false := by
  obtain ⟨least, greatest⟩ := isDigit_iff.mp digit
  simp only [isBlank, Bool.or_eq_false_iff, Bool.and_eq_false_iff, beq_eq_false_iff_ne,
    decide_eq_false_iff_not]
  omega

theorem Solid.append {as bs : List Char} (first : Solid as) (second : Solid bs) :
    Solid (as ++ bs) := by
  intro c member
  rcases List.mem_append.mp member with member | member
  · exact first c member
  · exact second c member

theorem Solid.cons {c : Char} {cs : List Char} (first : isBlank c = false) (rest : Solid cs) :
    Solid (c :: cs) := by
  intro d member
  rcases List.mem_cons.mp member with rfl | member
  · exact first
  · exact rest d member

theorem solid_of_digits {ds : List Char} (digits : ds.all Char.isDigit = true) : Solid ds :=
  fun c member => isBlank_of_isDigit (List.all_eq_true.mp digits c member)

theorem dropWhile_isBlank {cs : List Char} (solid : Solid cs) : cs.dropWhile isBlank = cs := by
  cases cs with
  | nil => rfl
  | cons c rest => rw [List.dropWhile_cons_of_neg (by simp [solid c List.mem_cons_self])]

theorem trim_of_solid {cs : List Char} (solid : Solid cs) : trim cs = cs := by
  have back : Solid cs.reverse := fun c member => solid c (List.mem_reverse.mp member)
  rw [trim, trimStart, dropWhile_isBlank solid, dropWhile_isBlank back, List.reverse_reverse]

end WireSchema.Text
