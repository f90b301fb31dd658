import WireSchema.Proofs.Convert.HandedBack
import WireSchema.Proofs.Convert.Visits

/-!
What the updates of containers make of each part: what is asked for each part stands in its place
afterwards, and a container is made anew only for a part that differs.
-/

set_option autoImplicit false

namespace WireSchema.Update

open WireSchema.Value (MadeAt)

/-- An update of items asks the function for each of them, and makes a new array only for a result
that differs. -/
theorem items_parts {f : Nat → Value → Except Fault Value} {fresh origin : Origin}
    {values : List Value} {r : Value} (keeps : ∀ j, ∀ x ∈ values, Keeps (f j x) x)
    (done : items fresh f origin values = .ok r) :
    (∀ (j : Nat) (x : Value), values[j]? = some x → f j x = .ok (r.part (.index j))) ∧
      (r = .array origin values ∨
        r.MadeAt fresh ∧ ∃ (j : Nat) (x : Value), values[j]? = some x ∧ r.part (.index j) ≠ x) := by
  obtain ⟨results, mapped, shape⟩ := (items_eq_ok_iff keeps).mp done
  obtain ⟨length, each⟩ := mapItems_eq_ok_iff.mp mapped
  have shown : ∃ o, r = .array o results := by
    rcases shape with ⟨rfl, rfl⟩ | ⟨-, rfl⟩
    · exact ⟨origin, rfl⟩
    · exact ⟨fresh, rfl⟩
  have parts : ∀ (j : Nat) (x : Value), values[j]? = some x → f j x = .ok (r.part (.index j)) := by
    intro j x found
    obtain ⟨y, there, made⟩ := each j x found
    obtain ⟨o, rfl⟩ := shown
    rw [Value.part_index there]
    simpa using made
  refine ⟨parts, ?_⟩
  rcases shape with ⟨-, kept⟩ | ⟨differ, rfl⟩
  · exact Or.inl kept
  · refine Or.inr ⟨Or.inl ⟨results, rfl⟩, ?_⟩
    by_contra none
    push Not at none
    refine differ (Schema.eq_of_each length fun j x found => ?_)
    obtain ⟨y, there, -⟩ := each j x found
    have same := none j x found
    rw [Value.part_index there] at same
    rw [there, same]

theorem exists_results_of_items {f : Nat → Value → Except Fault Value} {fresh origin : Origin}
    {values : List Value} {r : Value} (keeps : ∀ j, ∀ x ∈ values, Keeps (f j x) x)
    (done : items fresh f origin values = .ok r) :
    ∃ o results, r = .array o results ∧ results.length = values.length := by
  obtain ⟨results, mapped, shape⟩ := (items_eq_ok_iff keeps).mp done
  obtain ⟨length, -⟩ := mapItems_eq_ok_iff.mp mapped
  rcases shape with ⟨rfl, rfl⟩ | ⟨-, rfl⟩
  · exact ⟨origin, results, rfl, length⟩
  · exact ⟨fresh, results, rfl, length⟩

private theorem distinct_variant (kind : String) :
    Entries.Distinct [(kindKey, Value.string kind)] := by
  simp [Entries.Distinct]

theorem distinct_variantValue (kind : String) (value : Value) :
    Entries.Distinct (setProperty valueKey value [(kindKey, .string kind)]) :=
  distinct_setProperty (distinct_variant kind) _ _

theorem get_variantValue (fresh : Origin) (kind : String) (value : Value) (key : String) :
    (variantValue fresh kind value).get key =
      if key = valueKey then value else if key = kindKey then .string kind else .absent := by
  change property key (setProperty valueKey value [(kindKey, .string kind)]) = _
  by_cases payload : key = valueKey
  · subst payload
    rw [property_setProperty (distinct_variant kind), if_pos rfl]
  · rw [property_setProperty_of_ne (Ne.symm payload), if_neg payload]
    by_cases name : key = kindKey
    · subst name
      rw [if_pos rfl]
      rfl
    · rw [if_neg name]
      simp [property, Entries.get?, Ne.symm name]

end WireSchema.Update

namespace WireSchema.Convert

open WireSchema.Update (property settled)
open WireSchema.Value (Filled MadeAt)

section Properties

variable {fields : List (String × Conversion Fault)} {fresh origin : Origin}
  {entries : List (String × Value)} {r : Value}

theorem convertProperties_results (names : Entries.Distinct fields)
    (discerning : ∀ key c, (key, c) ∈ fields → Discerning c)
    (old : (Value.object origin entries).Predates fresh)
    (tidy : (Value.object origin entries).Proper)
    (done : convertProperties fields fresh (.object origin entries) = .ok r) :
    ∃ results, Update.answers entries (placedFields fresh fields) = .ok results ∧
      r = Update.finish fresh (.object origin entries) (settled entries results) ∧
      Entries.Distinct results ∧
      ∀ key, r.get key = (Entries.get? key results).getD (property key entries) := by
  obtain ⟨_, _, results, shape, answered, rfl⟩ := convertProperties_eq_ok_iff.mp done
  obtain ⟨rfl, rfl⟩ := Value.object.inj shape
  have keeps : ∀ key result, (key, result) ∈ results →
      result.same (property key entries) = true → result = property key entries := by
    intro key result member same
    obtain ⟨f, placed, made⟩ := Update.mem_answers answered member
    obtain ⟨c, declared, rfl⟩ := mem_placedFields.mp placed
    exact discerning key c declared _ _ ((old.property key).enter _) result made same
  have distinct : Entries.Distinct results := by
    rw [Entries.Distinct, Update.names_answers answered, names_placedFields]
    exact names
  refine ⟨results, answered, rfl, distinct, fun key => ?_⟩
  rw [← Update.property_settled tidy.distinct distinct keeps]
  cases settled entries results <;> rfl

theorem convertProperties_others (names : Entries.Distinct fields)
    (discerning : ∀ key c, (key, c) ∈ fields → Discerning c)
    (old : (Value.object origin entries).Predates fresh)
    (tidy : (Value.object origin entries).Proper)
    (done : convertProperties fields fresh (.object origin entries) = .ok r) :
    (∃ o es, r = .object o es) ∧
      ∀ key, key ∉ Entries.names fields → r.get key = property key entries := by
  obtain ⟨results, answered, shape, -, shown⟩ :=
    convertProperties_results names discerning old tidy done
  constructor
  · rw [shape]
    cases settled entries results with
    | none => exact ⟨origin, entries, rfl⟩
    | some copy => exact ⟨fresh, copy, rfl⟩
  · intro key outside
    have missing : Entries.get? key results = none := by
      apply Entries.get?_eq_none
      rwa [Update.names_answers answered, names_placedFields]
    rw [shown, missing]
    rfl

theorem exists_entries_of_convertProperties
    (done : convertProperties fields fresh (.object origin entries) = .ok r) :
    ∃ o es, r = .object o es ∧ (Entries.Distinct entries → Entries.Distinct es) ∧
      (Filled entries → Filled es) := by
  obtain ⟨_, _, results, shape, -, rfl⟩ := convertProperties_eq_ok_iff.mp done
  obtain ⟨rfl, rfl⟩ := Value.object.inj shape
  have distinct := fun once : Entries.Distinct entries => Update.distinct_settled once results
  have filled := fun all : Filled entries => Update.filled_settled all results
  cases copied : settled entries results with
  | none => exact ⟨origin, entries, rfl, id, id⟩
  | some copy =>
    rw [copied] at distinct filled
    exact ⟨fresh, copy, rfl, distinct, filled⟩

theorem convertProperties_parts (names : Entries.Distinct fields)
    (discerning : ∀ key c, (key, c) ∈ fields → Discerning c)
    (old : (Value.object origin entries).Predates fresh)
    (tidy : (Value.object origin entries).Proper)
    (done : convertProperties fields fresh (.object origin entries) = .ok r) :
    (∀ key c, (key, c) ∈ fields →
      c (fresh.enter (.key key)) (property key entries) = .ok (r.part (.key key))) ∧
    (r = .object origin entries ∨
      r.MadeAt fresh ∧ ∃ key c, (key, c) ∈ fields ∧ r.part (.key key) ≠ property key entries) := by
  obtain ⟨results, answered, rfl, distinct, shown⟩ :=
    convertProperties_results names discerning old tidy done
  refine ⟨fun key c member => ?_, ?_⟩
  · obtain ⟨y, there, made⟩ := Update.exists_mem_answers answered
      (mem_placedFields.mpr ⟨c, member, rfl⟩)
    have found := shown key
    rw [Entries.get?_of_mem distinct there] at found
    exact made.trans (congrArg Except.ok found.symm)
  · cases copied : settled entries results with
    | none => exact Or.inl rfl
    | some copy =>
      refine Or.inr ⟨Or.inr ⟨copy, rfl⟩, ?_⟩
      by_contra none
      push Not at none
      have kept : settled entries results = .none := by
        refine Update.settled_eq_none_iff.mpr fun key result member => ?_
        obtain ⟨f, placed, -⟩ := Update.mem_answers answered member
        obtain ⟨c, declared, -⟩ := mem_placedFields.mp placed
        have same := none key c declared
        have found := shown key
        rw [copied, Entries.get?_of_mem distinct member] at found
        have result_eq : result = property key entries := found.symm.trans same
        rw [result_eq]
        exact Value.same_refl _
      simp [kept] at copied

end Properties

end WireSchema.Convert
