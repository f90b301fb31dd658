import Mathlib.Tactic.Choose
import WireSchema.Convert.Read
import WireSchema.Convert.Trust
import WireSchema.Convert.Write
import WireSchema.Proofs.Schema
import WireSchema.Proofs.Update

/-!
What is made in a pass is never mistaken for what was there before: a conversion whose result is the
very same as its input has changed nothing. From this the conversions of containers are described
by the results of their parts alone.
-/

set_option autoImplicit false

namespace WireSchema.Convert

open WireSchema.Update
open WireSchema.Value (present Filled)

/-- A conversion whose result is the very same as an earlier input leaves that input alone. -/
def Discerning (c : Conversion Fault) : Prop :=
  ∀ fresh v, v.Predates fresh → Keeps (c fresh v) v

def FixesAbsent (c : Conversion Fault) : Prop :=
  ∀ fresh result, c fresh .absent = .ok result → result = .absent

theorem asArray_eq_ok {v : Value} {origin : Origin} {items : List Value} :
    v.asArray = .ok (origin, items) ↔ v = .array origin items := by
  cases v <;> simp [Value.asArray, Value.mistyped]

theorem asObject_eq_ok {v : Value} {origin : Origin} {entries : List (String × Value)} :
    v.asObject = .ok (origin, entries) ↔ v = .object origin entries := by
  cases v <;> simp [Value.asObject, Value.mistyped]

theorem items_shape {fresh origin : Origin} {f : Nat → Value → Except Fault Value}
    {values : List Value} {r : Value} (done : items fresh f origin values = .ok r) :
    r = .array origin values ∨ ∃ results, r = .array fresh results := by
  simp only [items, bind_eq_ok] at done
  obtain ⟨changed, -, shape⟩ := done
  cases changed with
  | none => exact Or.inl (Except.ok.inj shape).symm
  | some results => exact Or.inr ⟨results, (Except.ok.inj shape).symm⟩

theorem keeps_of_array_shape {fresh origin : Origin} {values : List Value} {r : Value}
    (old : (Value.array origin values).Predates fresh)
    (shape : r = .array origin values ∨ ∃ results, r = .array fresh results)
    (same : r.same (.array origin values) = true) : r = .array origin values := by
  rcases shape with rfl | ⟨results, rfl⟩
  · rfl
  · have made : fresh = origin := by simpa [Value.same] using same
    exact absurd made old.array_origin_ne

theorem keeps_of_object_shape {fresh : Origin} {v r : Value} (old : v.Predates fresh)
    (shape : r = v ∨ ∃ entries, r = .object fresh entries) (same : r.same v = true) : r = v := by
  rcases shape with rfl | ⟨entries, rfl⟩
  · rfl
  · cases v with
    | object origin inner =>
      have made : fresh = origin := by simpa [Value.same] using same
      exact absurd made old.object_origin_ne
    | _ => simp [Value.same] at same

theorem convertEach_discerning (item : Conversion Fault) : Discerning (convertEach item) := by
  intro fresh v old r done same
  simp only [convertEach, bind_eq_ok] at done
  obtain ⟨⟨origin, values⟩, shape, done⟩ := done
  obtain rfl := asArray_eq_ok.mp shape
  exact keeps_of_array_shape old (items_shape done) same

theorem convertPositions_discerning (elems : List (Conversion Fault)) :
    Discerning (convertPositions elems) := by
  intro fresh v old r done same
  simp only [convertPositions, bind_eq_ok] at done
  obtain ⟨⟨origin, values⟩, shape, done⟩ := done
  obtain rfl := asArray_eq_ok.mp shape
  split at done
  · exact keeps_of_array_shape old (items_shape done) same
  · simp at done

theorem convertProperties_discerning (fields : List (String × Conversion Fault)) :
    Discerning (convertProperties fields) := by
  intro fresh v old r done same
  simp only [convertProperties, properties, bind_eq_ok] at done
  obtain ⟨⟨origin, entries⟩, shape, copy, -, finished⟩ := done
  obtain rfl := asObject_eq_ok.mp shape
  refine keeps_of_object_shape old ?_ same
  cases copy with
  | none => exact Or.inl (Except.ok.inj finished).symm
  | some copy => exact Or.inr ⟨copy, (Except.ok.inj finished).symm⟩

theorem mappedPayload_shape {fresh : Origin} {kind : String} {f : Value → Except Fault Value}
    {v r : Value} (done : mappedPayload fresh kind f v = .ok r) :
    r = v ∨ ∃ entries, r = .object fresh entries := by
  simp only [mappedPayload, bind_eq_ok] at done
  obtain ⟨mapped, -, shape⟩ := done
  split at shape
  · exact Or.inl (Except.ok.inj shape).symm
  · exact Or.inr ⟨_, (Except.ok.inj shape).symm⟩

theorem mappedPayload_discerning {fresh : Origin} {kind : String}
    {f : Value → Except Fault Value} {v : Value} (old : v.Predates fresh) :
    Keeps (mappedPayload fresh kind f v) v :=
  fun _ done same => keeps_of_object_shape old (mappedPayload_shape done) same

def Rebuilt (v : Value) (fresh : Origin) (values results : List Value) (r : Value) : Prop :=
  (results = values ∧ r = v) ∨ (results ≠ values ∧ r = .array fresh results)

theorem Rebuilt.eq_iff {r : Value} {origin fresh : Origin} {values results : List Value}
    (old : (Value.array origin values).Predates fresh)
    (made : Rebuilt (.array origin values) fresh values results r) :
    r = .array origin values ↔ results = values := by
  rcases made with ⟨same, rfl⟩ | ⟨differ, rfl⟩
  · simp [same]
  · simp [differ, old.array_origin_ne]

theorem Rebuilt.exists_origin {origin fresh : Origin} {values results : List Value} {r : Value}
    (made : Rebuilt (.array origin values) fresh values results r) :
    ∃ o, r = .array o results := by
  rcases made with ⟨rfl, rfl⟩ | ⟨_, rfl⟩
  · exact ⟨origin, rfl⟩
  · exact ⟨fresh, rfl⟩

theorem convertEach_eq_ok_iff {item : Conversion Fault} (discerning : Discerning item)
    {fresh : Origin} {v r : Value} (old : v.Predates fresh) :
    convertEach item fresh v = .ok r ↔
      ∃ origin values results, v = .array origin values ∧ results.length = values.length ∧
        (∀ j x, values[j]? = some x → ∃ y, results[j]? = some y ∧
          item (fresh.enter (.index j)) x = .ok y) ∧
        Rebuilt v fresh values results r := by
  simp only [convertEach, bind_eq_ok, Prod.exists, asArray_eq_ok]
  constructor
  · rintro ⟨origin, values, rfl, done⟩
    have keeps : ∀ j, ∀ x ∈ values,
        Keeps (located (.index j) (item (fresh.enter (.index j)) x)) x := fun j x member y done =>
      discerning (fresh.enter (.index j)) x (old.item member) y (located_eq_ok.mp done)
    obtain ⟨results, mapped, made⟩ := (items_eq_ok_iff keeps).mp done
    obtain ⟨length, each⟩ := mapItems_eq_ok_iff.mp mapped
    refine ⟨origin, values, results, rfl, length, fun j x found => ?_, made⟩
    simpa using each j x found
  · rintro ⟨origin, values, results, rfl, length, each, made⟩
    have keeps : ∀ j, ∀ x ∈ values,
        Keeps (located (.index j) (item (fresh.enter (.index j)) x)) x := fun j x member y done =>
      discerning (fresh.enter (.index j)) x (old.item member) y (located_eq_ok.mp done)
    refine ⟨origin, values, rfl, (items_eq_ok_iff keeps).mpr ⟨results, ?_, made⟩⟩
    exact mapItems_eq_ok_iff.mpr ⟨length, fun j x found => by simpa using each j x found⟩

theorem keeps_positions {elems : List (Conversion Fault)}
    (discerning : ∀ elem ∈ elems, Discerning elem) {fresh origin : Origin} {values : List Value}
    (old : (Value.array origin values).Predates fresh) {f : Nat → Value → Except Fault Value}
    (known : ∀ j x, f j x = elems[j]?.elim (.ok x) fun elem =>
      located (.index j) (elem (fresh.enter (.index j)) x)) :
    ∀ j, ∀ x ∈ values, Keeps (f j x) x := by
  intro j x member y done same
  rw [known] at done
  cases found : elems[j]? with
  | none => simpa [found, eq_comm] using done
  | some elem =>
    simp only [found, Option.elim_some, located_eq_ok] at done
    exact discerning elem (List.mem_of_getElem? found) (fresh.enter (.index j)) x (old.item member)
      y done same

theorem convertPositions_eq_ok_iff {elems : List (Conversion Fault)}
    (discerning : ∀ elem ∈ elems, Discerning elem) {fresh : Origin} {v r : Value}
    (old : v.Predates fresh) :
    convertPositions elems fresh v = .ok r ↔
      ∃ origin values results, v = .array origin values ∧ values.length = elems.length ∧
        results.length = values.length ∧
        (∀ (j : Nat) (elem : Conversion Fault) (x : Value), elems[j]? = some elem →
          values[j]? = some x → ∃ y, results[j]? = some y ∧
            elem (fresh.enter (.index j)) x = .ok y) ∧
        Rebuilt v fresh values results r := by
  simp only [convertPositions, bind_eq_ok, Prod.exists, asArray_eq_ok]
  constructor
  · rintro ⟨origin, values, rfl, done⟩
    split at done
    · next length =>
      obtain ⟨results, mapped, made⟩ := (items_eq_ok_iff
        (keeps_positions discerning old fun j x => by cases elems[j]? <;> rfl)).mp done
      obtain ⟨size, each⟩ := mapItems_eq_ok_iff.mp mapped
      refine ⟨origin, values, results, rfl, length, size, fun j elem x here found => ?_, made⟩
      obtain ⟨y, there, done⟩ := each j x found
      simp only [Nat.zero_add, here, located_eq_ok] at done
      exact ⟨y, there, done⟩
    · simp at done
  · rintro ⟨origin, values, results, rfl, length, size, each, made⟩
    refine ⟨origin, values, rfl, ?_⟩
    rw [if_pos length]
    refine (items_eq_ok_iff (keeps_positions discerning old fun j x => by
      cases elems[j]? <;> rfl)).mpr ⟨results, ?_, made⟩
    refine mapItems_eq_ok_iff.mpr ⟨size, fun j x found => ?_⟩
    have within : j < elems.length := length ▸ (List.getElem?_eq_some_iff.mp found).1
    obtain ⟨y, there, done⟩ := each j elems[j] x (List.getElem?_eq_getElem within) found
    exact ⟨y, there, by simp [List.getElem?_eq_getElem within, done]⟩

theorem exists_results {P : Nat → Value → Value → Prop} {values : List Value}
    (each : ∀ j x, values[j]? = some x → ∃ y, P j x y) :
    ∃ results : List Value, results.length = values.length ∧
      ∀ j x, values[j]? = some x → ∃ y, results[j]? = some y ∧ P j x y := by
  choose result meets using fun j : Fin values.length =>
    each j values[j] (List.getElem?_eq_getElem j.isLt)
  refine ⟨List.ofFn result, List.length_ofFn, fun j x found => ?_⟩
  obtain ⟨within, rfl⟩ := List.getElem?_eq_some_iff.mp found
  exact ⟨result ⟨j, within⟩, by simp [within], meets ⟨j, within⟩⟩

private theorem exists_rebuilt (v : Value) (fresh : Origin) (values results : List Value) :
    ∃ r, Rebuilt v fresh values results r := by
  by_cases same : results = values
  · exact ⟨v, Or.inl ⟨same, rfl⟩⟩
  · exact ⟨_, Or.inr ⟨same, rfl⟩⟩

theorem exists_convertEach_iff {item : Conversion Fault} (discerning : Discerning item)
    {fresh origin : Origin} {values : List Value}
    (old : (Value.array origin values).Predates fresh) :
    (∃ r, convertEach item fresh (.array origin values) = .ok r) ↔
      ∀ j x, values[j]? = some x → ∃ y, item (fresh.enter (.index j)) x = .ok y := by
  constructor
  · rintro ⟨r, done⟩ j x found
    obtain ⟨_, _, _, shape, -, each, -⟩ := (convertEach_eq_ok_iff discerning old).mp done
    obtain ⟨rfl, rfl⟩ := Value.array.inj shape
    obtain ⟨y, -, made⟩ := each j x found
    exact ⟨y, made⟩
  · intro each
    obtain ⟨results, length, each⟩ := exists_results each
    obtain ⟨r, made⟩ := exists_rebuilt (.array origin values) fresh values results
    exact ⟨r, (convertEach_eq_ok_iff discerning old).mpr
      ⟨origin, values, results, rfl, length, each, made⟩⟩

theorem exists_convertPositions_iff {elems : List (Conversion Fault)}
    (discerning : ∀ elem ∈ elems, Discerning elem) {fresh origin : Origin} {values : List Value}
    (old : (Value.array origin values).Predates fresh) :
    (∃ r, convertPositions elems fresh (.array origin values) = .ok r) ↔
      values.length = elems.length ∧
        ∀ (j : Nat) (elem : Conversion Fault) (x : Value), elems[j]? = some elem →
          values[j]? = some x → ∃ y, elem (fresh.enter (.index j)) x = .ok y := by
  constructor
  · rintro ⟨r, done⟩
    obtain ⟨_, _, _, shape, length, -, each, -⟩ :=
      (convertPositions_eq_ok_iff discerning old).mp done
    obtain ⟨rfl, rfl⟩ := Value.array.inj shape
    refine ⟨length, fun j elem x here found => ?_⟩
    obtain ⟨y, -, made⟩ := each j elem x here found
    exact ⟨y, made⟩
  · rintro ⟨length, each⟩
    have every : ∀ (j : Nat) (x : Value), values[j]? = some x → ∃ y : Value,
        ∀ elem : Conversion Fault, elems[j]? = some elem →
          elem (fresh.enter (.index j)) x = .ok y := by
      intro j x found
      have within : j < elems.length := length ▸ (List.getElem?_eq_some_iff.mp found).1
      have here := List.getElem?_eq_getElem within
      obtain ⟨y, made⟩ := each j elems[j] x here found
      refine ⟨y, fun elem there => ?_⟩
      exact Option.some.inj (here.symm.trans there) ▸ made
    obtain ⟨results, size, each⟩ := exists_results every
    obtain ⟨r, made⟩ := exists_rebuilt (.array origin values) fresh values results
    refine ⟨r, (convertPositions_eq_ok_iff discerning old).mpr
      ⟨origin, values, results, rfl, length, size, fun j elem x here found => ?_, made⟩⟩
    obtain ⟨y, there, meets⟩ := each j x found
    exact ⟨y, there, meets elem here⟩

@[simp] theorem names_placedFields (fresh : Origin) (fields : List (String × Conversion Fault)) :
    Entries.names (placedFields fresh fields) = Entries.names fields := by
  simp [Entries.names, placedFields]

theorem placedFields_mapValues {γ : Type} (fresh : Origin) (f : String → γ → Conversion Fault)
    (fields : List (String × γ)) :
    placedFields fresh (Entries.mapValues f fields) =
      Entries.mapValues (fun key c => f key c (fresh.enter (.key key))) fields := by
  simp [placedFields, Entries.mapValues]

theorem mem_placedFields {fresh : Origin} {fields : List (String × Conversion Fault)} {key : String}
    {f : Value → Except Fault Value} :
    (key, f) ∈ placedFields fresh fields ↔
      ∃ c, (key, c) ∈ fields ∧ f = c (fresh.enter (.key key)) := by
  simp only [placedFields, List.mem_map, Prod.exists, Prod.mk.injEq]
  constructor
  · rintro ⟨_, c, member, rfl, rfl⟩
    exact ⟨c, member, rfl⟩
  · rintro ⟨c, member, rfl⟩
    exact ⟨key, c, member, rfl, rfl⟩

theorem convertProperties_eq_ok_iff {fields : List (String × Conversion Fault)} {fresh : Origin}
    {v r : Value} :
    convertProperties fields fresh v = .ok r ↔
      ∃ origin entries results, v = .object origin entries ∧
        answers entries (placedFields fresh fields) = .ok results ∧
        r = finish fresh v (settled entries results) := by
  simp only [convertProperties, properties, changedProperties_none, bind_eq_ok, Prod.exists,
    asObject_eq_ok, map_eq_ok, pure_eq_ok]
  constructor
  · rintro ⟨origin, entries, rfl, _, ⟨results, done, rfl⟩, rfl⟩
    exact ⟨origin, entries, results, rfl, done, rfl⟩
  · rintro ⟨origin, entries, results, rfl, done, rfl⟩
    exact ⟨origin, entries, rfl, _, ⟨results, done, rfl⟩, rfl⟩

theorem exists_convertProperties_iff {fields : List (String × Conversion Fault)}
    {fresh origin : Origin} {entries : List (String × Value)} :
    (∃ r, convertProperties fields fresh (.object origin entries) = .ok r) ↔
      ∀ key c, (key, c) ∈ fields →
        ∃ y, c (fresh.enter (.key key)) (property key entries) = .ok y := by
  constructor
  · rintro ⟨r, done⟩ key c member
    obtain ⟨_, _, results, shape, done, -⟩ := convertProperties_eq_ok_iff.mp done
    obtain ⟨rfl, rfl⟩ := Value.object.inj shape
    obtain ⟨y, -, done⟩ := exists_mem_answers done (mem_placedFields.mpr ⟨c, member, rfl⟩)
    exact ⟨y, done⟩
  · intro each
    have answered : ∃ results, answers entries (placedFields fresh fields) = .ok results := by
      refine exists_answers fun key f member => ?_
      obtain ⟨c, declared, rfl⟩ := mem_placedFields.mp member
      exact each key c declared
    obtain ⟨results, done⟩ := answered
    exact ⟨_, convertProperties_eq_ok_iff.mpr ⟨origin, entries, results, rfl, done, rfl⟩⟩

def placed (results entries : List (String × Value)) : List (String × Value) :=
  Entries.mapValues (fun key x => (Entries.get? key results).getD x) entries

structure Merged (fields : List (String × Conversion Fault)) (fresh origin : Origin)
    (entries results : List (String × Value)) (r : Value) : Prop where
  names : Entries.names results = Entries.names fields
  each : ∀ key c, (key, c) ∈ fields → ∃ y, Entries.get? key results = some y ∧
    c (fresh.enter (.key key)) (property key entries) = .ok y
  shown : ∃ o es, r = .object o es ∧ present es = present (placed results entries)
  unchanged : r = .object origin entries ↔
    ∀ key y, Entries.get? key results = some y → y = property key entries
  filled : Filled entries → ∀ o es, r = .object o es → Filled es

theorem filled_placed {entries results : List (String × Value)} (filled : Filled entries)
    (there : ∀ key y, Entries.get? key results = some y → key ∈ Entries.names entries →
      y ≠ .absent) : Filled (placed results entries) := by
  intro entry member
  obtain ⟨key, value⟩ := entry
  obtain ⟨x, old, rfl⟩ := Entries.mem_mapValues.mp member
  show (Entries.get? key results).getD x ≠ .absent
  cases found : Entries.get? key results with
  | none => exact filled (key, x) old
  | some y => exact there key y found (Entries.mem_names_of_mem old)

/-- Where every entry holds something, before and after, the results stand in the places of the
entries. -/
theorem Merged.eq_placed {fields : List (String × Conversion Fault)} {fresh origin : Origin}
    {entries results : List (String × Value)} {r : Value}
    (merged : Merged fields fresh origin entries results r) (filled : Filled entries)
    (there : ∀ key y, Entries.get? key results = some y → key ∈ Entries.names entries →
      y ≠ .absent) :
    ∃ o, r = .object o (placed results entries) := by
  obtain ⟨o, es, rfl, shown⟩ := merged.shown
  rw [(merged.filled filled o es rfl).present_eq, (filled_placed filled there).present_eq] at shown
  exact ⟨o, by rw [shown]⟩

theorem present_revised_of_missing {results entries : List (String × Value)}
    (missing : ∀ key y, (key, y) ∈ results → key ∉ Entries.names entries → y = .absent) :
    present (revised results entries) = present (placed results entries) := by
  have none : ∀ result ∈ results.filter fun result =>
      !(Entries.names entries).contains result.1, (!result.2.isAbsent) = false := by
    intro result member
    obtain ⟨member, outside⟩ := List.mem_filter.mp member
    have gone := missing result.1 result.2 member (by simpa using outside)
    simp [gone]
  rw [revised, present, List.filter_append, ← present, ← present]
  rw [show present (results.filter fun result =>
    !(Entries.names entries).contains result.1) = [] from
      List.filter_eq_nil_iff.mpr fun result member => by simp [none result member]]
  exact List.append_nil _

theorem convertProperties_merged {fields : List (String × Conversion Fault)}
    (distinct : Entries.Distinct fields)
    (discerning : ∀ key c, (key, c) ∈ fields → Discerning c)
    (fixes : ∀ key c, (key, c) ∈ fields → FixesAbsent c) {fresh : Origin} {v r : Value}
    (old : v.Predates fresh) (proper : v.Proper)
    (done : convertProperties fields fresh v = .ok r) :
    ∃ origin entries results, v = .object origin entries ∧
      Merged fields fresh origin entries results r := by
  obtain ⟨origin, entries, results, rfl, answered, rfl⟩ := convertProperties_eq_ok_iff.mp done
  refine ⟨origin, entries, results, rfl, ?_⟩
  have names : Entries.names results = Entries.names fields := by
    rw [names_answers answered, names_placedFields]
  have unique : Entries.Distinct results := by rwa [Entries.Distinct, names]
  have asked : ∀ key y, (key, y) ∈ results → ∃ c, (key, c) ∈ fields ∧
      c (fresh.enter (.key key)) (property key entries) = .ok y := by
    intro key y member
    obtain ⟨f, there, made⟩ := mem_answers answered member
    obtain ⟨c, declared, rfl⟩ := mem_placedFields.mp there
    exact ⟨c, declared, made⟩
  have keeps : ∀ key y, (key, y) ∈ results → y.same (property key entries) = true →
      y = property key entries := by
    intro key y member same
    obtain ⟨c, there, made⟩ := asked key y member
    exact discerning key c there (fresh.enter (.key key)) _ (old.property key) y made same
  have missing : ∀ key y, (key, y) ∈ results → key ∉ Entries.names entries → y = .absent := by
    intro key y member outside
    obtain ⟨c, there, made⟩ := asked key y member
    rw [property, Entries.get?_eq_none outside] at made
    exact fixes key c there _ y made
  have settles := present_settled proper.distinct unique keeps
  have stays : settled entries results = none ↔
      ∀ key y, (key, y) ∈ results → y.same (property key entries) = true := settled_eq_none_iff
  constructor
  · exact names
  · intro key c member
    obtain ⟨y, there, made⟩ :=
      exists_mem_answers answered (mem_placedFields.mpr ⟨c, member, rfl⟩)
    exact ⟨y, Entries.get?_of_mem unique there, made⟩
  · rw [← present_revised_of_missing missing, ← settles]
    cases settled entries results with
    | none => exact ⟨origin, entries, rfl, rfl⟩
    | some copy => exact ⟨fresh, copy, rfl, rfl⟩
  · constructor
    · intro same key y found
      have member := Entries.mem_of_get? found
      cases copied : settled entries results with
      | none => exact keeps key y member (stays.mp copied key y member)
      | some copy =>
        rw [copied] at same
        exact absurd (Value.object.inj same).1 old.object_origin_ne
    · intro same
      rw [stays.mpr fun key y member => ?_]
      · rfl
      · rw [same key y (Entries.get?_of_mem unique member)]
        exact Value.same_refl _
  · intro filled o es shape
    have after := filled_settled filled results
    cases copied : settled entries results with
    | none =>
      rw [copied] at shape
      exact (Value.object.inj shape).2 ▸ filled
    | some copy =>
      rw [copied] at shape after
      exact (Value.object.inj shape).2 ▸ after

end WireSchema.Convert
