import WireSchema.Proofs.Alike
import WireSchema.Proofs.Update

/-!
Where everything stands in an updated object. Keys keep their places, those whose results come to
nothing are taken out, and new ones come last in the order in which they are declared. The sparing
update goes over to a copy in the middle of the declared keys; what it does not store there is what
was there before.
-/

set_option autoImplicit false

namespace WireSchema.Update

open WireSchema.Value (present Filled)

variable {ε : Type} {fresh origin : Origin} {source entries results : List (String × Value)}
  {key : String} {result : Value}

/-- The keys of an object after results for the declared ones are stored: those it had, less the
declared ones that come to nothing, and then the declared ones that it lacked and that come to
something. -/
def keysAfter (result : String → Value) (declared keys : List String) : List String :=
  (keys.filter fun key => !(declared.contains key && (result key).isAbsent)) ++
    declared.filter fun key => !(keys.contains key || (result key).isAbsent)

theorem keysAfter_congr {f g : String → Value} {declared keys : List String}
    (agree : ∀ key ∈ declared, f key = g key) :
    keysAfter f declared keys = keysAfter g declared keys := by
  have olds : ∀ key ∈ keys, (!(declared.contains key && (f key).isAbsent)) =
      !(declared.contains key && (g key).isAbsent) := by
    intro key _
    by_cases member : key ∈ declared
    · rw [agree key member]
    · simp [member]
  have news : ∀ key ∈ declared, (!(keys.contains key || (f key).isAbsent)) =
      !(keys.contains key || (g key).isAbsent) := by
    intro key member
    rw [agree key member]
  rw [keysAfter, keysAfter, List.filter_congr olds, List.filter_congr news]

private theorem names_present_revised (filled : Filled entries) (names : Entries.Distinct results) :
    Entries.names (present (revised results entries)) =
      keysAfter (fun key => property key results) (Entries.names results) (Entries.names entries) := by
  -- an old key shows unless its result is nothing, a new one only if its result is something
  have olds : ∀ entry ∈ Entries.mapValues
        (fun key value => (Entries.get? key results).getD value) entries,
      (!entry.2.isAbsent) =
        !((Entries.names results).contains entry.1 && (property entry.1 results).isAbsent) := by
    rintro ⟨key, shown⟩ member
    obtain ⟨value, there, rfl⟩ := Entries.mem_mapValues.mp member
    have solid : value.isAbsent = false := Value.isAbsent_eq_false.mpr (filled _ there)
    cases found : Entries.get? key results with
    | none => simp [Entries.get?_eq_none_iff.mp found, solid]
    | some result => simp [Entries.mem_names_of_get? found, property, found]
  have news : ∀ entry ∈ results,
      (!entry.2.isAbsent && !(Entries.names entries).contains entry.1) =
        !((Entries.names entries).contains entry.1 || (property entry.1 results).isAbsent) := by
    intro entry member
    rw [Value.property_of_mem names member, Bool.not_or, Bool.and_comm]
  have oldNames := Entries.names_filter (q := fun key =>
    !((Entries.names results).contains key && (property key results).isAbsent)) olds
  have newNames := Entries.names_filter (q := fun key =>
    !((Entries.names entries).contains key || (property key results).isAbsent)) news
  rw [revised, present, List.filter_append, List.filter_filter, Entries.names_append, oldNames,
    newNames, Entries.names_mapValues, keysAfter]

theorem names_setAll (distinct : Entries.Distinct entries) (filled : Filled entries)
    (names : Entries.Distinct results) :
    Entries.names (setAll results entries) =
      keysAfter (fun key => property key results) (Entries.names results) (Entries.names entries) := by
  have shown : setAll results entries = present (revised results entries) := by
    rw [← present_setAll distinct names, (filled_setAll filled).present_eq]
  rw [shown]
  exact names_present_revised filled names

theorem names_setProperty_congr {others : List (String × Value)}
    (alike : Entries.names entries = Entries.names others) :
    Entries.names (setProperty key result entries) = Entries.names (setProperty key result others) := by
  unfold setProperty
  split
  · rw [Entries.names_erase, Entries.names_erase, alike]
  · rw [Entries.names_set, Entries.names_set, alike]

theorem names_setAll_congr {others : List (String × Value)}
    (alike : Entries.names entries = Entries.names others) :
    Entries.names (setAll results entries) = Entries.names (setAll results others) := by
  induction results generalizing entries others with
  | nil => exact alike
  | cons first rest ih => exact ih (names_setProperty_congr alike)

theorem names_setProperty_of_same (filled : Filled entries)
    (same : result.same (property key entries) = true) :
    Entries.names (setProperty key result entries) = Entries.names entries := by
  have empty := Value.isAbsent_of_same same
  unfold setProperty
  by_cases there : key ∈ Entries.names entries
  · have solid : result.isAbsent = false :=
      empty.trans (Value.isAbsent_eq_false.mpr (filled.property_ne there))
    rw [solid, if_neg Bool.false_ne_true, Entries.names_set, if_pos there]
  · have gone : result.isAbsent = true :=
      empty.trans (Value.isAbsent_eq_true.mpr (Value.property_of_not_mem there))
    rw [if_pos gone, Entries.names_erase, List.erase_of_not_mem there]

theorem names_settled (filled : Filled source) :
    Entries.names ((settled source results).getD source) = Entries.names (setAll results source) := by
  induction results with
  | nil => rfl
  | cons first rest ih =>
    obtain ⟨key, result⟩ := first
    by_cases same : result.same (property key source) = true
    · -- a result that is not stored would have left the keys alone
      have stays := names_setProperty_of_same filled same
      rw [settled, if_pos same, ih]
      exact (names_setAll_congr stays).symm
    · rw [settled, if_neg same]
      rfl

theorem finish_eq (fresh origin : Origin) (source : List (String × Value))
    (copy : Option (List (String × Value))) :
    ∃ o, finish fresh (.object origin source) copy = .object o (copy.getD source) := by
  cases copy with
  | none => exact ⟨origin, rfl⟩
  | some entries => exact ⟨fresh, rfl⟩

theorem properties_eq (fresh origin : Origin) (fs : List (String × (Value → Except ε Value)))
    (source : List (String × Value)) :
    properties fresh fs origin source = (answers source fs).map fun results =>
      finish fresh (.object origin source) (settled source results) := by
  rw [properties, changedProperties_none]
  cases answers source fs <;> rfl

theorem answers_of_ok {fs : List (String × (Value → Except ε Value))} {result : String → Value}
    (succeeds : ∀ key f, (key, f) ∈ fs → f (property key source) = .ok (result key)) :
    answers source fs = .ok (Entries.mapValues (fun key _ => result key) fs) := by
  induction fs with
  | nil => rfl
  | cons first rest ih =>
    have here := succeeds first.1 first.2 List.mem_cons_self
    have others := ih fun key f member => succeeds key f (List.mem_cons_of_mem _ member)
    exact answers_cons_eq_ok.mpr ⟨_, _, here, others, rfl⟩

/-- Where everything stands in an updated object, if there is a result for every declared key: the
keys in their order, the very same as the result under each declared one, and under any other what
was there. -/
theorem properties_layout (fresh origin : Origin) {source : List (String × Value)}
    {fs : List (String × (Value → Except ε Value))} {result : String → Value}
    (distinct : Entries.Distinct source) (filled : Filled source) (names : Entries.Distinct fs)
    (succeeds : ∀ key f, (key, f) ∈ fs → f (property key source) = .ok (result key)) :
    ∃ o entries, properties fresh fs origin source = .ok (.object o entries) ∧
      Entries.names entries = keysAfter result (Entries.names fs) (Entries.names source) ∧
      (∀ key ∈ Entries.names fs, (property key entries).same (result key) = true) ∧
      ∀ key, key ∉ Entries.names fs → Entries.get? key entries = Entries.get? key source := by
  have answered := answers_of_ok succeeds
  generalize shape : Entries.mapValues (fun key _ => result key) fs = results at answered
  have sameNames : Entries.names results = Entries.names fs := by
    rw [← shape, Entries.names_mapValues]
  have unique : Entries.Distinct results := shape ▸ names.mapValues _
  have stored : ∀ key ∈ Entries.names fs, (key, result key) ∈ results := by
    intro key member
    obtain ⟨f, there⟩ := Entries.exists_get?_of_mem_names member
    rw [← shape]
    exact Entries.mem_mapValues.mpr ⟨f, Entries.mem_of_get? there, rfl⟩
  obtain ⟨o, made⟩ := finish_eq fresh origin source (settled source results)
  refine ⟨o, (settled source results).getD source, ?_, ?_, ?_, ?_⟩
  · rw [properties_eq, answered]
    exact congrArg Except.ok made
  · rw [names_settled filled, names_setAll distinct filled unique, sameNames]
    apply keysAfter_congr
    intro key member
    exact Value.property_of_mem unique (stored key member)
  · intro key member
    rcases property_settled_of_mem distinct unique (stored key member) with placed | ⟨left, same⟩
    · rw [placed]
      exact Value.same_refl _
    · rw [left]
      exact Value.same_symm same
  · intro key other
    apply get?_settled_of_not_mem
    rwa [sameNames]

/-- A key that goes, one that stays the very same, one that is replaced, one that comes, one that
neither is there nor comes, and one that is not declared. -/
theorem properties_layout_edited :
    let tags : Value := .array (.root 1) [.null]
    let source : List (String × Value) :=
      [("gone", .null), ("other", .string "o"), ("tags", tags), ("swap", .string "s")]
    let result : String → Value := fun key =>
      property key [("late", .bool true), ("tags", tags), ("swap", .string "t")]
    let fs : List (String × (Value → Except Fault Value)) :=
      ["late", "gone", "tags", "void", "swap"].map fun key => (key, fun _ => .ok (result key))
    Entries.Distinct source ∧ Filled source ∧ Entries.Distinct fs ∧
      ∃ o entries, properties (.root 2) fs (.root 0) source = .ok (.object o entries) ∧
        Entries.names entries = ["other", "tags", "swap", "late"] ∧
        (property "swap" entries).same (.string "t") = true ∧
        (property "gone" entries).same .absent = true ∧
        Entries.get? "other" entries = some (.string "o") := by
  intro tags source result fs
  have distinct : Entries.Distinct source := by decide
  have filled : Filled source := by simp [Filled, source, tags]
  have names : Entries.Distinct fs := by decide
  have succeeds : ∀ key f, (key, f) ∈ fs → f (property key source) = .ok (result key) := by
    intro key f member
    obtain ⟨_, -, same⟩ := List.mem_map.mp member
    obtain ⟨rfl, rfl⟩ := Prod.mk.inj same
    rfl
  obtain ⟨o, entries, done, keys, declared, others⟩ :=
    properties_layout (.root 2) (.root 0) distinct filled names succeeds
  refine ⟨distinct, filled, names, o, entries, done, keys.trans (by decide), ?_, ?_, ?_⟩
  · exact declared "swap" (by decide)
  · exact declared "gone" (by decide)
  · exact others "other" (by decide)

end WireSchema.Update
