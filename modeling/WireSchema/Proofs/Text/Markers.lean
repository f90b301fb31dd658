import Mathlib.Data.List.Basic
import Mathlib.Data.List.Infix
import WireSchema.Text.Lines

/-!
How often a marker stands in a text. Where its first character stands nowhere else, it stands once in
what is written around it, and what is put in its place brings no other one about.
-/

set_option autoImplicit false

namespace WireSchema.Text

def occurrences (part : List Char) : List Char → Nat
  | [] => 0
  | c :: rest => (if part.isPrefixOf (c :: rest) then 1 else 0) + occurrences part rest

variable {c : Char} {part text before after : List Char}

theorem occurrences_eq_zero_iff : occurrences (c :: part) text = 0 ↔ ¬(c :: part) <:+: text := by
  induction text with
  | nil => simp [occurrences]
  | cons d rest ih =>
    rw [occurrences, Nat.add_eq_zero_iff, ih, List.infix_cons_iff, not_or,
      ← List.isPrefixOf_iff_prefix]
    simp

theorem occurrences_append_of_not_mem (plain : c ∉ before) (text : List Char) :
    occurrences (c :: part) (before ++ text) = occurrences (c :: part) text := by
  induction before with
  | nil => rfl
  | cons d rest ih =>
    have differ : c ≠ d := fun same => plain (same ▸ List.mem_cons_self)
    have here : ¬(c :: part).isPrefixOf (d :: (rest ++ text)) = true := by
      simp [List.isPrefixOf, differ]
    rw [List.cons_append, occurrences, if_neg here, Nat.zero_add,
      ih fun member => plain (List.mem_cons_of_mem _ member)]

theorem occurrences_of_not_mem (plain : c ∉ text) : occurrences (c :: part) text = 0 := by
  have whole : occurrences (c :: part) (text ++ []) = occurrences (c :: part) [] :=
    occurrences_append_of_not_mem plain []
  rwa [List.append_nil] at whole

theorem occurrences_once (left : c ∉ before) (inside : c ∉ part) (right : c ∉ after) :
    occurrences (c :: part) (before ++ (c :: part) ++ after) = 1 := by
  have here : (c :: part).isPrefixOf (c :: (part ++ after)) = true :=
    List.isPrefixOf_iff_prefix.mpr ⟨after, rfl⟩
  have later : occurrences (c :: part) (part ++ after) = 0 :=
    occurrences_of_not_mem (by simp [inside, right])
  rw [List.append_assoc, occurrences_append_of_not_mem left, List.cons_append, occurrences,
    if_pos here, later]

/-- A text without a marker stays so between texts that start no marker and go on with none. -/
theorem occurrences_framed (left : c ∉ before) (right : c ∉ after)
    (apart : ∀ d ∈ after.head?, d ∉ part) (free : occurrences (c :: part) text = 0) :
    occurrences (c :: part) (before ++ text ++ after) = 0 := by
  rw [List.append_assoc, occurrences_append_of_not_mem left, occurrences_eq_zero_iff]
  rw [occurrences_eq_zero_iff] at free
  rintro ⟨front, back, whole⟩
  rw [List.append_assoc, List.append_eq_append_iff] at whole
  rcases whole with ⟨rest, rfl, whole⟩ | ⟨rest, rfl, whole⟩
  · -- the marker starts within the text
    cases rest with
    | nil =>
      rw [List.nil_append] at whole
      exact right (whole ▸ List.mem_cons_self)
    | cons d rest =>
      obtain ⟨rfl, within⟩ : c = d ∧ part ++ back = rest ++ after := List.cons.inj whole
      rcases List.append_eq_append_iff.mp within with ⟨more, rest_eq, -⟩ | ⟨more, part_eq, behind⟩
      · exact free ⟨front, more, by simp [rest_eq]⟩
      · cases more with
        | nil => exact free ⟨front, [], by simp [part_eq]⟩
        | cons d more => exact apart d (by simp [behind]) (by simp [part_eq])
  · exact right (by simp [whole])

end WireSchema.Text
