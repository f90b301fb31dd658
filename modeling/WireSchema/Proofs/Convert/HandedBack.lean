import WireSchema.Proofs.Content
import WireSchema.Proofs.Convert.Engines

/-!
Where writing hands its input back itself: by the schema, if nothing under it is converted; by the
value, if nothing in it changes and every compound on the way is copied on a change only.
-/

set_option autoImplicit false

namespace WireSchema.Schema

open WireSchema.Convert
open WireSchema.Update (property kindKey valueKey)

mutual

/-- Whether no leaf under the schema is converted, at any depth. -/
def idle (options : WriteOptions) : Schema → Bool
  | .leaf l => !l.converts options
  | .option inner => idle options inner
  | .array item => idle options item
  | .tuple elems => idleElems options elems
  | .object fields => idleFields options fields
  | .choice variants => idleVariants options variants

def idleElems (options : WriteOptions) : List Schema → Bool
  | [] => true
  | elem :: rest => idle options elem && idleElems options rest

def idleFields (options : WriteOptions) : List (String × Schema) → Bool
  | [] => true
  | (_, field) :: rest => idle options field && idleFields options rest

def idleVariants (options : WriteOptions) : List (String × Option Schema) → Bool
  | [] => true
  | (_, none) :: rest => idleVariants options rest
  | (_, some payload) :: rest => idle options payload && idleVariants options rest

end

theorem idleElems_iff {options : WriteOptions} {elems : List Schema} :
    idleElems options elems = true ↔ ∀ elem ∈ elems, elem.idle options = true := by
  induction elems with
  | nil => simp [idleElems]
  | cons elem rest ih => simp [idleElems, ih]

theorem idleFields_iff {options : WriteOptions} {fields : List (String × Schema)} :
    idleFields options fields = true ↔
      ∀ key field, (key, field) ∈ fields → field.idle options = true := by
  induction fields with
  | nil => simp [idleFields]
  | cons field rest ih =>
    rw [idleFields, Bool.and_eq_true, ih, Entries.forall_mem_cons]

theorem idleVariants_iff {options : WriteOptions} {variants : List (String × Option Schema)} :
    idleVariants options variants = true ↔
      ∀ kind payload, (kind, some payload) ∈ variants → payload.idle options = true := by
  induction variants with
  | nil => simp [idleVariants]
  | cons variant rest ih =>
    obtain ⟨name, payload⟩ := variant
    cases payload with
    | none =>
      simp only [idleVariants, ih, List.mem_cons, Prod.mk.injEq, reduceCtorEq, and_false, false_or]
    | some payload =>
      simp only [idleVariants, Bool.and_eq_true, ih, List.mem_cons, Prod.mk.injEq,
        Option.some.injEq]
      constructor
      · rintro ⟨first, others⟩ kind other (⟨-, rfl⟩ | member)
        · exact first
        · exact others kind other member
      · intro every
        exact ⟨every name payload (Or.inl ⟨rfl, rfl⟩), fun kind other member =>
          every kind other (Or.inr member)⟩

/-- A choice in the value names a variant that the schema does not declare. -/
inductive MeetsUndeclared : Schema → Value → Prop where
  | option {inner : Schema} {v : Value} : MeetsUndeclared inner v → MeetsUndeclared (.option inner) v
  | array {item : Schema} {origin : Origin} {values : List Value} {x : Value} : x ∈ values →
      MeetsUndeclared item x → MeetsUndeclared (.array item) (.array origin values)
  | tuple {elems : List Schema} {origin : Origin} {values : List Value} {i : Nat} {elem : Schema}
      {x : Value} : elems[i]? = some elem → values[i]? = some x → MeetsUndeclared elem x →
      MeetsUndeclared (.tuple elems) (.array origin values)
  | object {fields : List (String × Schema)} {origin : Origin} {entries : List (String × Value)}
      {key : String} {field : Schema} : (key, field) ∈ fields →
      MeetsUndeclared field (property key entries) →
      MeetsUndeclared (.object fields) (.object origin entries)
  | here {variants : List (String × Option Schema)} {origin : Origin}
      {entries : List (String × Value)} {kind : String} :
      property kindKey entries = .string kind → kind ∉ Entries.names variants →
      MeetsUndeclared (.choice variants) (.object origin entries)
  | spread {variants : List (String × Option Schema)} {fields : List (String × Schema)}
      {origin : Origin} {entries : List (String × Value)} {kind : String} :
      property kindKey entries = .string kind →
      Entries.get? kind variants = some (some (.object fields)) →
      MeetsUndeclared (.object fields) (.object origin entries) →
      MeetsUndeclared (.choice variants) (.object origin entries)
  | held {variants : List (String × Option Schema)} {payload : Schema} {origin : Origin}
      {entries : List (String × Value)} {kind : String} :
      property kindKey entries = .string kind →
      Entries.get? kind variants = some (some payload) → payload.isObject = false →
      MeetsUndeclared payload (property valueKey entries) →
      MeetsUndeclared (.choice variants) (.object origin entries)

/-- The values that come back themselves when written, if the compounds that `spares` holds of are
copied on a change only and all others are, unless nothing under them is converted, copied always. -/
inductive HandedBack (options : WriteOptions) (spares : Schema → Prop) : Schema → Value → Prop where
  | idle {schema : Schema} {v : Value} : schema.idle options = true →
      HandedBack options spares schema v
  | leaf {l : Leaf} {v : Value} : l.write options v = .ok v → HandedBack options spares (.leaf l) v
  | missing {inner : Schema} : HandedBack options spares (.option inner) .absent
  | option {inner : Schema} {v : Value} : HandedBack options spares inner v →
      HandedBack options spares (.option inner) v
  | array {item : Schema} {origin : Origin} {values : List Value} : spares (.array item) →
      (∀ x ∈ values, HandedBack options spares item x) →
      HandedBack options spares (.array item) (.array origin values)
  | tuple {elems : List Schema} {origin : Origin} {values : List Value} : spares (.tuple elems) →
      (∀ (i : Nat) (elem : Schema) (x : Value), elems[i]? = some elem → values[i]? = some x →
        HandedBack options spares elem x) →
      HandedBack options spares (.tuple elems) (.array origin values)
  | object {fields : List (String × Schema)} {origin : Origin} {entries : List (String × Value)} :
      spares (.object fields) →
      (∀ key field, (key, field) ∈ fields →
        HandedBack options spares field (property key entries)) →
      HandedBack options spares (.object fields) (.object origin entries)
  | bare {variants : List (String × Option Schema)} {origin : Origin}
      {entries : List (String × Value)} {kind : String} :
      property kindKey entries = .string kind → Entries.get? kind variants = some none →
      HandedBack options spares (.choice variants) (.object origin entries)
  | spread {variants : List (String × Option Schema)} {fields : List (String × Schema)}
      {origin : Origin} {entries : List (String × Value)} {kind : String} :
      property kindKey entries = .string kind →
      Entries.get? kind variants = some (some (.object fields)) →
      HandedBack options spares (.object fields) (.object origin entries) →
      HandedBack options spares (.choice variants) (.object origin entries)
  | held {variants : List (String × Option Schema)} {payload : Schema} {origin : Origin}
      {entries : List (String × Value)} {kind : String} :
      property kindKey entries = .string kind →
      Entries.get? kind variants = some (some payload) → payload.isObject = false →
      HandedBack options spares payload (property valueKey entries) →
      HandedBack options spares (.choice variants) (.object origin entries)

theorem HandedBack.mono {options : WriteOptions} {spares spares' : Schema → Prop}
    (wider : ∀ schema, spares schema → spares' schema) {schema : Schema} {v : Value}
    (back : HandedBack options spares schema v) : HandedBack options spares' schema v := by
  induction back with
  | idle idle => exact .idle idle
  | leaf done => exact .leaf done
  | missing => exact .missing
  | option _ ih => exact .option ih
  | array spared _ ih => exact .array (wider _ spared) ih
  | tuple spared _ ih => exact .tuple (wider _ spared) ih
  | object spared _ ih => exact .object (wider _ spared) ih
  | bare named declared => exact .bare named declared
  | spread named declared _ ih => exact .spread named declared ih
  | held named declared other _ ih => exact .held named declared other ih

section Inversion

variable {options : WriteOptions} {spares : Schema → Prop}

theorem handedBack_leaf {l : Leaf} {v : Value} :
    HandedBack options spares (.leaf l) v ↔ l.write options v = .ok v := by
  constructor
  · intro back
    cases back with
    | idle idle => exact Leaf.write_of_not_converts (by simpa [Schema.idle] using idle) v
    | leaf done => exact done
  · exact .leaf

theorem handedBack_option {inner : Schema} {v : Value} :
    HandedBack options spares (.option inner) v ↔ v = .absent ∨ HandedBack options spares inner v := by
  constructor
  · intro back
    cases back with
    | idle idle => exact Or.inr (.idle idle)
    | missing => exact Or.inl rfl
    | option back => exact Or.inr back
  · rintro (rfl | back)
    · exact .missing
    · exact .option back

theorem handedBack_array {item : Schema} {origin : Origin} {values : List Value} :
    HandedBack options spares (.array item) (.array origin values) ↔
      item.idle options = true ∨
        spares (.array item) ∧ ∀ x ∈ values, HandedBack options spares item x := by
  constructor
  · intro back
    cases back with
    | idle idle => exact Or.inl idle
    | array spared parts => exact Or.inr ⟨spared, parts⟩
  · rintro (idle | ⟨spared, parts⟩)
    · exact .idle idle
    · exact .array spared parts

theorem handedBack_tuple {elems : List Schema} {origin : Origin} {values : List Value} :
    HandedBack options spares (.tuple elems) (.array origin values) ↔
      (∀ elem ∈ elems, elem.idle options = true) ∨ spares (.tuple elems) ∧
        ∀ (i : Nat) (elem : Schema) (x : Value), elems[i]? = some elem → values[i]? = some x →
          HandedBack options spares elem x := by
  constructor
  · intro back
    cases back with
    | idle idle => exact Or.inl (idleElems_iff.mp idle)
    | tuple spared parts => exact Or.inr ⟨spared, parts⟩
  · rintro (idle | ⟨spared, parts⟩)
    · exact .idle (idleElems_iff.mpr idle)
    · exact .tuple spared parts

theorem handedBack_object {fields : List (String × Schema)} {origin : Origin}
    {entries : List (String × Value)} :
    HandedBack options spares (.object fields) (.object origin entries) ↔
      (∀ key field, (key, field) ∈ fields → field.idle options = true) ∨ spares (.object fields) ∧
        ∀ key field, (key, field) ∈ fields →
          HandedBack options spares field (property key entries) := by
  constructor
  · intro back
    cases back with
    | idle idle => exact Or.inl (idleFields_iff.mp idle)
    | object spared parts => exact Or.inr ⟨spared, parts⟩
  · rintro (idle | ⟨spared, parts⟩)
    · exact .idle (idleFields_iff.mpr idle)
    · exact .object spared parts

theorem handedBack_choice {variants : List (String × Option Schema)} {origin : Origin}
    {entries : List (String × Value)} {kind : String} {payload : Option Schema}
    (named : property kindKey entries = .string kind)
    (declared : Entries.get? kind variants = some payload) :
    HandedBack options spares (.choice variants) (.object origin entries) ↔
      ∀ inner, payload = some inner → HandedBack options spares inner
        (if inner.isObject then .object origin entries else property valueKey entries) := by
  constructor
  · rintro back inner rfl
    cases back with
    | idle idle =>
      exact .idle (idleVariants_iff.mp idle kind inner (Entries.mem_of_get? declared))
    | bare again found =>
      obtain rfl := Value.string.inj (named.symm.trans again)
      simp [declared] at found
    | spread again found back =>
      obtain rfl := Value.string.inj (named.symm.trans again)
      obtain rfl := Option.some.inj (Option.some.inj (declared.symm.trans found))
      exact back
    | held again found other back =>
      obtain rfl := Value.string.inj (named.symm.trans again)
      obtain rfl := Option.some.inj (Option.some.inj (declared.symm.trans found))
      rwa [if_neg (by simp [other])]
  · intro back
    cases payload with
    | none => exact .bare named declared
    | some inner =>
      have back := back inner rfl
      cases object : inner.isObject with
      | true =>
        obtain ⟨fields, rfl⟩ := isObject_eq_true.mp object
        exact .spread named declared back
      | false =>
        rw [if_neg (by simp [object])] at back
        exact .held named declared object back

end Inversion

section Writer

variable {options : WriteOptions}

def Spares (options : WriteOptions) (schema : Schema) : Prop :=
  ∀ fresh v w, v.Predates fresh → v.Proper → ¬MeetsUndeclared schema v →
    writer options schema fresh v = .ok w → (w = v ↔ HandedBack options (fun _ => True) schema v)

private theorem spares_leaf (l : Leaf) : Spares options (.leaf l) := by
  intro fresh v w _ _ _ done
  rw [handedBack_leaf]
  exact ⟨fun same => same ▸ done, fun back => Except.ok.inj (done.symm.trans back)⟩

private theorem spares_option {inner : Schema} (part : Spares options inner) :
    Spares options (.option inner) := by
  intro fresh v w old proper declared done
  rw [handedBack_option]
  simp only [writer] at done
  split at done
  · next empty =>
    obtain rfl := Value.isAbsent_eq_true.mp empty
    obtain rfl := Except.ok.inj done
    simp
  · next there =>
    rw [part fresh v w old proper (fun met => declared (.option met)) done]
    have other : v ≠ .absent := fun same => there (Value.isAbsent_eq_true.mpr same)
    simp [other]

theorem eq_of_each {values results : List Value} (length : results.length = values.length)
    (each : ∀ (j : Nat) (x : Value), values[j]? = some x → results[j]? = some x) :
    results = values := by
  refine List.ext_getElem? fun j => ?_
  cases found : values[j]? with
  | none =>
    rw [List.getElem?_eq_none_iff] at found ⊢
    omega
  | some x => exact each j x found

private theorem spares_array {item : Schema} (part : Spares options item) :
    Spares options (.array item) := by
  intro fresh v w old proper declared done
  obtain ⟨origin, values, results, rfl, length, each, made⟩ :=
    (convertEach_eq_ok_iff (writer_discerning options item) old).mp done
  have parts : ∀ (j : Nat) (x : Value), values[j]? = some x → ∃ y, results[j]? = some y ∧
      (y = x ↔ HandedBack options (fun _ => True) item x) := by
    intro j x found
    have member := List.mem_of_getElem? found
    obtain ⟨y, there, made⟩ := each j x found
    exact ⟨y, there, part _ x y ((old.item member).enter _) (proper.items x member)
      (fun met => declared (.array member met)) made⟩
  rw [made.eq_iff old, handedBack_array]
  constructor
  · rintro rfl
    refine Or.inr ⟨trivial, fun x member => ?_⟩
    obtain ⟨j, found⟩ := List.mem_iff_getElem?.mp member
    obtain ⟨y, there, back⟩ := parts j x found
    exact back.mp (Option.some.inj (there.symm.trans found))
  · intro back
    refine eq_of_each length fun j x found => ?_
    obtain ⟨y, there, same⟩ := parts j x found
    rw [there, same.mpr]
    rcases back with idle | ⟨-, back⟩
    · exact .idle idle
    · exact back x (List.mem_of_getElem? found)

private theorem spares_tuple {elems : List Schema} (part : ∀ elem ∈ elems, Spares options elem) :
    Spares options (.tuple elems) := by
  intro fresh v w old proper declared done
  rw [writer, elemWriters_eq_map] at done
  obtain ⟨origin, values, results, rfl, size, length, each, made⟩ :=
    (convertPositions_eq_ok_iff (fun c member => by
      obtain ⟨elem, -, rfl⟩ := List.mem_map.mp member
      exact writer_discerning options elem) old).mp done
  rw [List.length_map] at size
  have parts : ∀ (j : Nat) (elem : Schema) (x : Value), elems[j]? = some elem →
      values[j]? = some x → ∃ y, results[j]? = some y ∧
        (y = x ↔ HandedBack options (fun _ => True) elem x) := by
    intro j elem x here found
    have member := List.mem_of_getElem? found
    obtain ⟨y, there, made⟩ := each j (writer options elem) x (by simp [here]) found
    exact ⟨y, there, part elem (List.mem_of_getElem? here) _ x y ((old.item member).enter _)
      (proper.items x member) (fun met => declared (.tuple here found met)) made⟩
  rw [made.eq_iff old, handedBack_tuple]
  constructor
  · rintro rfl
    refine Or.inr ⟨trivial, fun j elem x here found => ?_⟩
    obtain ⟨y, there, back⟩ := parts j elem x here found
    exact back.mp (Option.some.inj (there.symm.trans found))
  · intro back
    refine eq_of_each length fun j x found => ?_
    have within : j < elems.length := size ▸ (List.getElem?_eq_some_iff.mp found).1
    have here := List.getElem?_eq_getElem within
    obtain ⟨y, there, same⟩ := parts j elems[j] x here found
    rw [there, same.mpr]
    rcases back with idle | ⟨-, back⟩
    · exact .idle (idle _ (List.getElem_mem within))
    · exact back j elems[j] x here found

theorem writer_object_merged {fields : List (String × Schema)}
    (distinct : Entries.Distinct fields) {fresh : Origin} {v w : Value} (old : v.Predates fresh)
    (proper : v.Proper) (done : writer options (.object fields) fresh v = .ok w) :
    ∃ origin entries results, v = .object origin entries ∧
      Merged (fieldWriters options fields) fresh origin entries results w := by
  have unique : Entries.Distinct (fieldWriters options fields) := by
    rw [fieldWriters_eq]
    exact distinct.mapValues _
  exact convertProperties_merged unique (fun key c member => fieldWriters_discerning member)
    (fun key c member => fieldWriters_fixesAbsent member) old proper done

private theorem spares_object {fields : List (String × Schema)}
    (distinct : Entries.Distinct fields)
    (part : ∀ key field, (key, field) ∈ fields → Spares options field) :
    Spares options (.object fields) := by
  intro fresh v w old proper declared done
  obtain ⟨origin, entries, results, rfl, merged⟩ := writer_object_merged distinct old proper done
  have parts : ∀ key field, (key, field) ∈ fields → ∃ y, Entries.get? key results = some y ∧
      (y = property key entries ↔
        HandedBack options (fun _ => True) field (property key entries)) := by
    intro key field member
    obtain ⟨y, there, made⟩ := merged.each key _ (mem_fieldWriters member)
    exact ⟨y, there, part key field member _ _ y ((old.property key).enter _)
      (proper.property key) (fun met => declared (.object member met)) (located_eq_ok.mp made)⟩
  rw [merged.unchanged, handedBack_object]
  constructor
  · intro same
    refine Or.inr ⟨trivial, fun key field member => ?_⟩
    obtain ⟨y, there, back⟩ := parts key field member
    exact back.mp (same key y there)
  · intro back key y found
    have named : key ∈ Entries.names fields := by
      have member := Entries.mem_names_of_get? found
      rwa [merged.names, fieldWriters_eq, Entries.names_mapValues] at member
    obtain ⟨field, declared⟩ := Entries.exists_get?_of_mem_names named
    have member := Entries.mem_of_get? declared
    obtain ⟨z, there, same⟩ := parts key field member
    obtain rfl := Option.some.inj (found.symm.trans there)
    rw [same]
    rcases back with idle | ⟨-, back⟩
    · exact .idle (idle key field member)
    · exact back key field member

theorem writer_choice_declared {variants : List (String × Option Schema)} {fresh : Origin}
    {v w : Value} (declared : ¬MeetsUndeclared (.choice variants) v)
    (done : writer options (.choice variants) fresh v = .ok w) :
    ∃ origin entries kind payload, v = .object origin entries ∧
      property kindKey entries = .string kind ∧ Entries.get? kind variants = some payload ∧
      VariantWritten options (some payload) fresh origin entries kind w := by
  obtain ⟨origin, entries, kind, rfl, named, made⟩ := writeVariant_eq_ok.mp done
  cases found : Entries.get? kind variants with
  | none => exact absurd (.here named (Entries.get?_eq_none_iff.mp found)) declared
  | some payload => exact ⟨origin, entries, kind, payload, rfl, named, found, found ▸ made⟩

private theorem spares_choice {variants : List (String × Option Schema)}
    (part : ∀ kind payload, (kind, some payload) ∈ variants → Spares options payload) :
    Spares options (.choice variants) := by
  intro fresh v w old proper declared done
  obtain ⟨origin, entries, kind, payload, rfl, named, found, made⟩ :=
    writer_choice_declared declared done
  rw [handedBack_choice named found]
  cases payload with
  | none => exact ⟨fun _ inner same => by simp at same, fun _ => made⟩
  | some payload =>
    have inside := part kind payload (Entries.mem_of_get? found)
    simp only [Option.some.injEq, forall_eq']
    rcases made with ⟨fields, rfl, made⟩ | ⟨other, mapped, made, rfl⟩
    · exact inside fresh _ w old proper (fun met => declared (.spread named found met)) made
    · have back := inside _ _ mapped ((old.property valueKey).enter _) (proper.property valueKey)
        (fun met => declared (.held named found other met)) made
      have same := (writer_discerning options payload _ _
        ((old.property valueKey).enter (.key valueKey))).same_iff made
      have place : (if payload.isObject then Value.object origin entries
          else property valueKey entries) = property valueKey entries := if_neg (by simp [other])
      rw [place, ← back, ← same]
      constructor
      · intro kept
        by_contra differ
        rw [if_neg differ] at kept
        exact absurd (Value.object.inj kept).1 old.object_origin_ne
      · intro kept
        rw [if_pos kept]

theorem writer_spares (options : WriteOptions) {schema : Schema} (proper : schema.Proper) :
    Spares options schema := by
  induction proper with
  | leaf l => exact spares_leaf l
  | option _ ih => exact spares_option ih
  | array _ ih => exact spares_array ih
  | tuple _ ih => exact spares_tuple ih
  | object distinct _ ih => exact spares_object distinct ih
  | choice _ _ ih => exact spares_choice ih

end Writer

end WireSchema.Schema
