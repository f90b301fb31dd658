import WireSchema.Text.Lines

/-!
Texts cut at characters: what a marker's place is filled with, and the lines of a text that was put
together from lines.
-/

set_option autoImplicit false

namespace WireSchema.Text

theorem split_at_first {c : Char} {as bs xs ys : List Char} (left : c ∉ as) (right : c ∉ bs)
    (same : as ++ c :: xs = bs ++ c :: ys) : as = bs ∧ xs = ys := by
  induction as generalizing bs with
  | nil =>
    cases bs with
    | nil => exact ⟨rfl, (List.cons.inj same).2⟩
    | cons b rest => exact absurd (List.cons.inj same).1 fun eq => right (eq ▸ List.mem_cons_self)
  | cons a rest ih =>
    cases bs with
    | nil => exact absurd (List.cons.inj same).1 fun eq => left (eq ▸ List.mem_cons_self)
    | cons b more =>
      obtain ⟨rfl, others⟩ := List.cons.inj same
      obtain ⟨rfl, after⟩ := ih (fun member => left (List.mem_cons_of_mem _ member))
        (fun member => right (List.mem_cons_of_mem _ member)) others
      exact ⟨rfl, after⟩

private theorem substituteFrom_skip (marker replacement passed rest : List Char) :
    substituteFrom marker replacement passed.length (passed ++ rest) =
      substituteFrom marker replacement 0 rest := by
  induction passed with
  | nil => rfl
  | cons c more ih => exact ih

private theorem substituteFrom_plain {c : Char} {marker replacement cs rest : List Char}
    (plain : c ∉ cs) :
    substituteFrom (c :: marker) replacement 0 (cs ++ rest) =
      cs ++ substituteFrom (c :: marker) replacement 0 rest := by
  induction cs with
  | nil => rfl
  | cons d more ih =>
    have differ : c ≠ d := fun same => plain (same ▸ List.mem_cons_self)
    have later := ih fun member => plain (List.mem_cons_of_mem _ member)
    rw [List.cons_append, substituteFrom, if_neg (by simp [List.isPrefixOf, differ]), later,
      List.cons_append]

private theorem substituteFrom_marker (c : Char) (marker replacement rest : List Char) :
    substituteFrom (c :: marker) replacement 0 (c :: marker ++ rest) =
      replacement ++ substituteFrom (c :: marker) replacement 0 rest := by
  have here : (c :: marker).isPrefixOf (c :: (marker ++ rest)) = true :=
    List.isPrefixOf_iff_prefix.mpr ⟨rest, rfl⟩
  rw [List.cons_append, substituteFrom, if_pos here, List.length_cons, Nat.add_sub_cancel,
    substituteFrom_skip]

/-- A marker that stands once in a text, where its first character stands only there, gives its
place to the replacement. -/
theorem substitute_once {c : Char} {rest before after : List Char} {marker text : String}
    (shape : marker.toList = c :: rest) (whole : text.toList = before ++ (c :: rest) ++ after)
    (left : c ∉ before) (right : c ∉ after) (replacement : String) :
    (substitute marker replacement text).toList = before ++ replacement.toList ++ after := by
  have last : substituteFrom (c :: rest) replacement.toList 0 (after ++ []) = after ++ [] :=
    substituteFrom_plain right
  rw [List.append_nil] at last
  rw [substitute, String.toList_ofList, shape, whole, List.append_assoc,
    substituteFrom_plain left, substituteFrom_marker, last, List.append_assoc]

private theorem pieces_plain {c : Char} {cs : List Char} (plain : c ∉ cs) : pieces c cs = [cs] := by
  induction cs with
  | nil => rfl
  | cons d more ih =>
    have differ : d ≠ c := fun same => plain (same ▸ List.mem_cons_self)
    rw [pieces, if_neg differ, ih fun member => plain (List.mem_cons_of_mem _ member)]

private theorem pieces_append {c : Char} {cs : List Char} (plain : c ∉ cs) (rest : List Char) :
    pieces c (cs ++ c :: rest) = cs :: pieces c rest := by
  induction cs with
  | nil => rw [List.nil_append, pieces, if_pos rfl]
  | cons d more ih =>
    have differ : d ≠ c := fun same => plain (same ▸ List.mem_cons_self)
    rw [List.cons_append, pieces, if_neg differ,
      ih fun member => plain (List.mem_cons_of_mem _ member)]

/-- A line that stays as it is when the text that it is part of is cut into lines. -/
def Plain (line : List Char) : Prop :=
  line ≠ [] ∧ '\n' ∉ line ∧ '\r' ∉ line

private theorem withoutReturn_plain {line : List Char} (plain : Plain line) :
    withoutReturn line = line := by
  rw [withoutReturn, if_neg]
  exact fun last => plain.2.2 (List.mem_of_getLast? last)

private theorem linesOfPieces_plain {ls : List (List Char)} (plain : ∀ line ∈ ls, Plain line) :
    linesOfPieces ls = ls := by
  induction ls with
  | nil => rfl
  | cons line rest ih =>
    have first := plain line List.mem_cons_self
    have later := ih fun line member => plain line (List.mem_cons_of_mem _ member)
    cases rest with
    | nil => simp [linesOfPieces, first.1]
    | cons next more => rw [linesOfPieces, withoutReturn_plain first, later]; simp

private theorem pieces_intercalate {ls : List (List Char)} (some : ls ≠ [])
    (plain : ∀ line ∈ ls, Plain line) : pieces '\n' (['\n'].intercalate ls) = ls := by
  induction ls with
  | nil => exact absurd rfl some
  | cons line rest ih =>
    have first := (plain line List.mem_cons_self).2.1
    cases rest with
    | nil => rw [List.intercalate_singleton, pieces_plain first]
    | cons next more =>
      rw [List.intercalate_cons_cons, List.append_assoc, List.singleton_append, pieces_append first,
        ih (List.cons_ne_nil _ _) fun line member => plain line (List.mem_cons_of_mem _ member)]

theorem indent_intercalate {ls : List String} (some : ls ≠ [])
    (plain : ∀ line ∈ ls, Plain line.toList) :
    indent ("\n".intercalate ls) = "\n".intercalate (ls.map ("    " ++ ·)) := by
  have plain' : ∀ line ∈ ls.map String.toList, Plain line := by
    intro line member
    obtain ⟨text, there, rfl⟩ := List.mem_map.mp member
    exact plain text there
  have cut : lines ("\n".intercalate ls).toList = ls.map String.toList := by
    rw [String.toList_intercalate, lines]
    show linesOfPieces (pieces '\n' (['\n'].intercalate _)) = _
    rw [pieces_intercalate (by simpa using some) plain', linesOfPieces_plain plain']
  rw [indent, cut, List.map_map]
  congr 1
  apply List.map_congr_left
  intro line member
  have full : ¬line.toList.isEmpty = true := by
    rw [List.isEmpty_iff]
    exact (plain line member).1
  rw [Function.comp_apply, if_neg full, String.ofList_toList]

end WireSchema.Text
