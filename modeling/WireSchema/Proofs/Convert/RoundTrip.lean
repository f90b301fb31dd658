import WireSchema.Proofs.Convert.Engines
import WireSchema.Proofs.Leaf.RoundTrip

/-!
What is written of a native value reads as an equal value. Of a value of a choice that holds its
payload the keys may come back in another order.
-/

set_option autoImplicit false

namespace WireSchema.Schema

open WireSchema.Convert
open WireSchema.Value (Filled alike)
open WireSchema.Update (property kindKey valueKey discriminant mappedPayload variantValue)

/-- The native values of a schema. -/
inductive Conforms : Schema → Value → Prop where
  | leaf {l : Leaf} {v : Value} : l.Holds v → Conforms (.leaf l) v
  | missing {inner : Schema} : Conforms (.option inner) .absent
  | option {inner : Schema} {v : Value} : Conforms inner v → Conforms (.option inner) v
  | array {item : Schema} {origin : Origin} {values : List Value} :
      (∀ x ∈ values, Conforms item x) → Conforms (.array item) (.array origin values)
  | tuple {elems : List Schema} {origin : Origin} {values : List Value} :
      values.length = elems.length →
      (∀ (i : Nat) (elem : Schema) (x : Value), elems[i]? = some elem → values[i]? = some x →
        Conforms elem x) →
      Conforms (.tuple elems) (.array origin values)
  | object {fields : List (String × Schema)} {origin : Origin}
      {entries : List (String × Value)} : Filled entries →
      (∀ key field, (key, field) ∈ fields → field.isOption = false →
        property key entries ≠ .absent) →
      (∀ key field, (key, field) ∈ fields → Conforms field (property key entries)) →
      Conforms (.object fields) (.object origin entries)
  | bare {variants : List (String × Option Schema)} {origin : Origin}
      {entries : List (String × Value)} {kind : String} :
      property kindKey entries = .string kind → (kind, none) ∈ variants →
      (∀ key ∈ Entries.names entries, key = kindKey) →
      Conforms (.choice variants) (.object origin entries)
  | spread {variants : List (String × Option Schema)} {fields : List (String × Schema)}
      {origin : Origin} {entries : List (String × Value)} {kind : String} :
      property kindKey entries = .string kind → (kind, some (.object fields)) ∈ variants →
      Conforms (.object fields) (.object origin entries) →
      Conforms (.choice variants) (.object origin entries)
  | held {variants : List (String × Option Schema)} {payload : Schema} {origin : Origin}
      {entries : List (String × Value)} {kind : String} :
      property kindKey entries = .string kind → (kind, some payload) ∈ variants →
      payload.isObject = false →
      (∀ key ∈ Entries.names entries, key = kindKey ∨ key = valueKey) →
      property valueKey entries ≠ .absent → Conforms payload (property valueKey entries) →
      Conforms (.choice variants) (.object origin entries)

/-- What is written stands for the native value: it reads as an equal one. -/
structure StandsFor (schema : Schema) (wire v : Value) : Prop where
  proper : wire.Proper
  absent : wire = .absent ↔ v = .absent
  reads : ∀ fresh, wire.Predates fresh → ∃ n, reader schema fresh wire = .ok n
  back : ∀ fresh n, wire.Predates fresh → reader schema fresh wire = .ok n → n.alike v = true

structure Writes (options : WriteOptions) (schema : Schema) (fresh : Origin) (v : Value) :
    Prop where
  written : ∃ wire, writer options schema fresh v = .ok wire
  carried : ∀ wire, writer options schema fresh v = .ok wire → StandsFor schema wire v

private theorem writes_leaf (options : WriteOptions) {l : Leaf} (fresh : Origin) {v : Value}
    (proper : v.Proper) (holds : l.Holds v) : Writes options (.leaf l) fresh v := by
  obtain ⟨w, written, whole, absent, read⟩ := (Leaf.roundTrips options proper holds).done
  refine ⟨⟨w, written⟩, fun wire done => ?_⟩
  obtain rfl : w = wire := Except.ok.inj (written.symm.trans done)
  refine ⟨whole, absent, fun fresh _ => ?_, fun fresh n _ done => ?_⟩
  · obtain ⟨n, done, -⟩ := read fresh
    exact ⟨n, done⟩
  · obtain ⟨m, again, alike⟩ := read fresh
    obtain rfl : m = n := Except.ok.inj (again.symm.trans done)
    exact alike

private theorem writes_missing (options : WriteOptions) (inner : Schema) (fresh : Origin) :
    Writes options (.option inner) fresh .absent := by
  refine ⟨⟨.absent, rfl⟩, fun wire done => ?_⟩
  obtain rfl : .absent = wire := Except.ok.inj done
  refine ⟨.scalar rfl, Iff.rfl, fun fresh _ => ⟨.absent, rfl⟩, fun fresh n _ done => ?_⟩
  obtain rfl : .absent = n := Except.ok.inj done
  rfl

private theorem writes_option {options : WriteOptions} {inner : Schema} {fresh : Origin} {v : Value}
    (ih : Writes options inner fresh v) : Writes options (.option inner) fresh v := by
  cases empty : v.isAbsent with
  | true =>
    rw [Value.isAbsent_eq_true.mp empty]
    exact writes_missing options inner fresh
  | false =>
    have same : writer options (.option inner) fresh v = writer options inner fresh v := by
      simp [writer, empty]
    refine ⟨same ▸ ih.written, fun wire done => ?_⟩
    have carried := ih.carried wire (same ▸ done)
    have there : wire.isAbsent = false :=
      Value.isAbsent_eq_false.mpr fun gone =>
        Value.isAbsent_eq_false.mp empty (carried.absent.mp gone)
    have reads : ∀ fresh, reader (.option inner) fresh wire = reader inner fresh wire := by
      intro fresh
      simp [reader, there]
    refine ⟨carried.proper, carried.absent, fun fresh old => ?_, fun fresh n old done => ?_⟩
    · rw [reads]
      exact carried.reads fresh old
    · rw [reads] at done
      exact carried.back fresh n old done

private theorem standsFor_array {item : Schema} {o p : Origin} {values results : List Value}
    (size : results.length = values.length)
    (each : ∀ (j : Nat) (x y : Value), values[j]? = some x → results[j]? = some y →
      StandsFor item y x) : StandsFor (.array item) (.array p results) (.array o values) := by
  have part : ∀ (j : Nat) (y : Value), results[j]? = some y → ∃ x, values[j]? = some x ∧
      StandsFor item y x := by
    intro j y there
    have within : j < values.length := size ▸ (List.getElem?_eq_some_iff.mp there).1
    have found := List.getElem?_eq_getElem within
    exact ⟨_, found, each j _ y found there⟩
  refine ⟨.array fun y member => ?_, by simp, fun fresh old => ?_, fun fresh n old done => ?_⟩
  · obtain ⟨j, there⟩ := List.mem_iff_getElem?.mp member
    obtain ⟨x, -, stands⟩ := part j y there
    exact stands.proper
  · refine (exists_convertEach_iff (reader_discerning item) old).mpr fun j y there => ?_
    obtain ⟨x, -, stands⟩ := part j y there
    exact stands.reads _ (old.item (List.mem_of_getElem? there))
  · obtain ⟨_, _, natives, shape, length, read, made⟩ :=
      (convertEach_eq_ok_iff (reader_discerning item) old).mp done
    obtain ⟨rfl, rfl⟩ := Value.array.inj shape
    obtain ⟨q, rfl⟩ := made.exists_origin
    refine Value.alike_array.mpr ⟨length.trans size, fun j m x here found => ?_⟩
    have within : j < results.length := length ▸ (List.getElem?_eq_some_iff.mp here).1
    have there := List.getElem?_eq_getElem within
    obtain ⟨_, again, done⟩ := read j _ there
    obtain rfl := Option.some.inj (here.symm.trans again)
    exact (each j x _ found there).back (fresh.enter (.index j)) m
      (old.item (List.mem_of_getElem? there)) done

private theorem writes_array {options : WriteOptions} {item : Schema} {fresh origin : Origin}
    {values : List Value} (old : (Value.array origin values).Predates fresh)
    (ih : ∀ j, ∀ x ∈ values, Writes options item (fresh.enter (.index j)) x) :
    Writes options (.array item) fresh (.array origin values) := by
  have discerning := writer_discerning options item
  constructor
  · refine (exists_convertEach_iff discerning old).mpr fun j x found => ?_
    exact (ih j x (List.mem_of_getElem? found)).written
  · intro wire done
    obtain ⟨_, _, results, shape, size, each, made⟩ :=
      (convertEach_eq_ok_iff discerning old).mp done
    obtain ⟨rfl, rfl⟩ := Value.array.inj shape
    obtain ⟨p, rfl⟩ := made.exists_origin
    refine standsFor_array size fun j x y found there => ?_
    obtain ⟨_, again, done⟩ := each j x found
    obtain rfl := Option.some.inj (there.symm.trans again)
    exact (ih j x (List.mem_of_getElem? found)).carried y done

private theorem standsFor_tuple {elems : List Schema} {o p : Origin} {values results : List Value}
    (length : values.length = elems.length) (size : results.length = values.length)
    (each : ∀ (j : Nat) (elem : Schema) (x y : Value), elems[j]? = some elem →
      values[j]? = some x → results[j]? = some y → StandsFor elem y x) :
    StandsFor (.tuple elems) (.array p results) (.array o values) := by
  have part : ∀ (j : Nat) (y : Value), results[j]? = some y → ∃ elem x, elems[j]? = some elem ∧
      values[j]? = some x ∧ StandsFor elem y x := by
    intro j y there
    have within : j < values.length := size ▸ (List.getElem?_eq_some_iff.mp there).1
    have found := List.getElem?_eq_getElem within
    have here := List.getElem?_eq_getElem (length ▸ within)
    exact ⟨_, _, here, found, each j _ _ y here found there⟩
  refine ⟨.array fun y member => ?_, by simp, fun fresh old => ?_, fun fresh n old done => ?_⟩
  · obtain ⟨j, there⟩ := List.mem_iff_getElem?.mp member
    obtain ⟨_, _, -, -, stands⟩ := part j y there
    exact stands.proper
  · refine (exists_convertPositions_iff (fun _ => elemReaders_discerning) old).mpr ⟨?_, ?_⟩
    · rw [elemReaders_eq_map, List.length_map, size, length]
    · intro j c y position there
      obtain ⟨elem, _, here, -, stands⟩ := part j y there
      obtain rfl : reader elem = c := by simpa [elemReaders_eq_map, here] using position
      exact stands.reads _ (old.item (List.mem_of_getElem? there))
  · obtain ⟨_, _, natives, shape, -, count, read, made⟩ :=
      (convertPositions_eq_ok_iff (fun _ => elemReaders_discerning) old).mp done
    obtain ⟨rfl, rfl⟩ := Value.array.inj shape
    obtain ⟨q, rfl⟩ := made.exists_origin
    refine Value.alike_array.mpr ⟨count.trans size, fun j m x native found => ?_⟩
    have within : j < results.length := count ▸ (List.getElem?_eq_some_iff.mp native).1
    have there := List.getElem?_eq_getElem within
    obtain ⟨elem, _, here, again, stands⟩ := part j _ there
    obtain rfl := Option.some.inj (found.symm.trans again)
    have position : (elemReaders elems)[j]? = some (reader elem) := by
      simp [elemReaders_eq_map, here]
    obtain ⟨_, same, done⟩ := read j _ _ position there
    obtain rfl := Option.some.inj (native.symm.trans same)
    exact stands.back (fresh.enter (.index j)) m (old.item (List.mem_of_getElem? there)) done

private theorem writes_tuple {options : WriteOptions} {elems : List Schema} {fresh origin : Origin}
    {values : List Value} (old : (Value.array origin values).Predates fresh)
    (length : values.length = elems.length)
    (ih : ∀ (j : Nat) (elem : Schema) (x : Value), elems[j]? = some elem → values[j]? = some x →
      Writes options elem (fresh.enter (.index j)) x) :
    Writes options (.tuple elems) fresh (.array origin values) := by
  have positions : ∀ (j : Nat) (elem : Schema), elems[j]? = some elem →
      (elemWriters options elems)[j]? = some (writer options elem) := by
    intro j elem here
    simp [elemWriters_eq_map, here]
  constructor
  · refine (exists_convertPositions_iff (fun _ => elemWriters_discerning) old).mpr ⟨?_, ?_⟩
    · rw [elemWriters_eq_map, List.length_map, length]
    · intro j c x position found
      obtain ⟨elem, here, rfl⟩ : ∃ elem, elems[j]? = some elem ∧ writer options elem = c := by
        simpa [elemWriters_eq_map] using position
      exact (ih j elem x here found).written
  · intro wire done
    obtain ⟨_, _, results, shape, -, size, each, made⟩ :=
      (convertPositions_eq_ok_iff (fun _ => elemWriters_discerning) old).mp done
    obtain ⟨rfl, rfl⟩ := Value.array.inj shape
    obtain ⟨p, rfl⟩ := made.exists_origin
    refine standsFor_tuple length size fun j elem x y here found there => ?_
    obtain ⟨_, again, done⟩ := each j _ x (positions j elem here) found
    obtain rfl := Option.some.inj (there.symm.trans again)
    exact (ih j elem x here found).carried y done

private theorem missing_of_fixes {cs : List (String × Conversion Fault)} {fresh : Origin}
    {entries results : List (String × Value)} (names : Entries.names results = Entries.names cs)
    (fixes : ∀ key c, (key, c) ∈ cs → FixesAbsent c)
    (each : ∀ key c, (key, c) ∈ cs → ∃ y, Entries.get? key results = some y ∧
      c (fresh.enter (.key key)) (property key entries) = .ok y)
    {key : String} {y : Value} (found : Entries.get? key results = some y)
    (gone : property key entries = .absent) : y = .absent := by
  have member : key ∈ Entries.names cs := names ▸ Entries.mem_names_of_get? found
  obtain ⟨c, there⟩ := Entries.exists_get?_of_mem_names member
  have declared := Entries.mem_of_get? there
  obtain ⟨_, again, made⟩ := each key c declared
  obtain rfl := Option.some.inj (found.symm.trans again)
  exact fixes key c declared _ y (gone ▸ made)

theorem convertProperties_placed {cs : List (String × Conversion Fault)}
    (distinct : Entries.Distinct cs) (discerning : ∀ key c, (key, c) ∈ cs → Discerning c)
    (fixes : ∀ key c, (key, c) ∈ cs → FixesAbsent c) {fresh origin : Origin}
    {entries : List (String × Value)} {r : Value}
    (old : (Value.object origin entries).Predates fresh)
    (proper : (Value.object origin entries).Proper) (filled : Filled entries)
    (there : ∀ key c, (key, c) ∈ cs → property key entries ≠ .absent → ∀ y,
      c (fresh.enter (.key key)) (property key entries) = .ok y → y ≠ .absent)
    (done : convertProperties cs fresh (.object origin entries) = .ok r) :
    ∃ p results, r = .object p (placed results entries) ∧ Filled (placed results entries) ∧
      Entries.names results = Entries.names cs ∧
      ∀ key c, (key, c) ∈ cs → ∃ y, Entries.get? key results = some y ∧
        c (fresh.enter (.key key)) (property key entries) = .ok y ∧
        property key (placed results entries) = y := by
  obtain ⟨_, _, results, shape, merged⟩ :=
    convertProperties_merged distinct discerning fixes old proper done
  obtain ⟨rfl, rfl⟩ := Value.object.inj shape
  have stays : ∀ key y, Entries.get? key results = some y → key ∈ Entries.names entries →
      y ≠ .absent := by
    intro key y found member
    have declared : key ∈ Entries.names cs := merged.names ▸ Entries.mem_names_of_get? found
    obtain ⟨c, here⟩ := Entries.exists_get?_of_mem_names declared
    have here := Entries.mem_of_get? here
    obtain ⟨_, again, made⟩ := merged.each key c here
    obtain rfl := Option.some.inj (found.symm.trans again)
    exact there key c here (filled.property_ne member) y made
  obtain ⟨p, same⟩ := merged.eq_placed filled stays
  refine ⟨p, results, same, filled_placed filled stays, merged.names, fun key c member => ?_⟩
  obtain ⟨y, found, made⟩ := merged.each key c member
  refine ⟨y, found, made, ?_⟩
  rw [property, placed, Entries.get?_mapValues, found]
  cases missing : Entries.get? key entries with
  | some x => rfl
  | none =>
    have gone : property key entries = .absent := by rw [property, missing]; rfl
    exact (missing_of_fixes merged.names fixes merged.each found gone).symm

theorem absent_of_alike {a b : Value} (alike : a.alike b = true) (gone : a = .absent) :
    b = .absent := by
  subst gone
  cases b <;> simp_all [Value.alike, Value.equalBy]

private structure Replaces (fields : List (String × Schema)) (results entries : List (String × Value)) :
    Prop where
  names : Entries.names results = Entries.names fields
  each : ∀ key field, (key, field) ∈ fields → ∃ y, Entries.get? key results = some y ∧
    property key (placed results entries) = y ∧ StandsFor field y (property key entries)

section Replaces

variable {fields : List (String × Schema)} {results entries : List (String × Value)}
  {o p fresh : Origin} {key : String} {field : Schema}

private theorem Replaces.exists_field (replaces : Replaces fields results entries) {y : Value}
    (found : Entries.get? key results = some y) :
    ∃ field, (key, field) ∈ fields ∧ StandsFor field y (property key entries) := by
  obtain ⟨field, there⟩ := Entries.exists_get?_of_mem_names
    (replaces.names ▸ Entries.mem_names_of_get? found)
  have member := Entries.mem_of_get? there
  obtain ⟨_, again, -, stands⟩ := replaces.each key field member
  obtain rfl := Option.some.inj (found.symm.trans again)
  exact ⟨field, member, stands⟩

private theorem Replaces.proper (replaces : Replaces fields results entries)
    (proper : (Value.object o entries).Proper) : (Value.object p (placed results entries)).Proper := by
  refine .object (proper.distinct.mapValues _) fun key value member => ?_
  obtain ⟨x, old, rfl⟩ := Entries.mem_mapValues.mp member
  cases found : Entries.get? key results with
  | none => exact proper.entries key x old
  | some y =>
    obtain ⟨_, -, stands⟩ := replaces.exists_field found
    exact stands.proper

private theorem Replaces.reads (replaces : Replaces fields results entries)
    (required : ∀ key field, (key, field) ∈ fields → field.isOption = false →
      property key entries ≠ .absent)
    (old : (Value.object p (placed results entries)).Predates fresh) :
    ∃ n, reader (.object fields) fresh (.object p (placed results entries)) = .ok n := by
  refine exists_convertProperties_iff.mpr fun key c member => ?_
  rw [fieldReaders_eq] at member
  obtain ⟨field, here, rfl⟩ := Entries.mem_mapValues.mp member
  obtain ⟨y, -, wired, stands⟩ := replaces.each key field here
  have before := old.property key
  rw [wired] at before ⊢
  obtain ⟨n, done⟩ := stands.reads (fresh.enter (.key key)) before
  refine ⟨n, readProperty_eq_ok.mpr ⟨fun gone => ?_, done⟩⟩
  cases optional : field.isOption with
  | true => rfl
  | false => exact absurd (stands.absent.mp gone) (required key field here optional)

private theorem Replaces.back (replaces : Replaces fields results entries)
    (member : (key, field) ∈ fields) {m : Value}
    (old : (Value.object p (placed results entries)).Predates fresh)
    (done : readProperty key field.isOption (reader field) (fresh.enter (.key key))
      (property key (placed results entries)) = .ok m) : m.alike (property key entries) = true := by
  obtain ⟨y, -, wired, stands⟩ := replaces.each key field member
  have before := old.property key
  rw [wired] at before done
  exact stands.back (fresh.enter (.key key)) m before (readProperty_eq_ok.mp done).2

private theorem Replaces.present (replaces : Replaces fields results entries)
    (member : (key, field) ∈ fields) {m : Value}
    (old : (Value.object p (placed results entries)).Predates fresh)
    (there : property key (placed results entries) ≠ .absent)
    (done : readProperty key field.isOption (reader field) (fresh.enter (.key key))
      (property key (placed results entries)) = .ok m) : m ≠ .absent := by
  intro gone
  obtain ⟨y, -, wired, stands⟩ := replaces.each key field member
  have missing := absent_of_alike (replaces.back member old done) gone
  exact there (wired.trans (stands.absent.mpr missing))

private theorem standsFor_object (distinct : Entries.Distinct fields)
    (proper : (Value.object o entries).Proper) (filled : Filled (placed results entries))
    (required : ∀ key field, (key, field) ∈ fields → field.isOption = false →
      property key entries ≠ .absent)
    (replaces : Replaces fields results entries) :
    StandsFor (.object fields) (.object p (placed results entries)) (.object o entries) := by
  refine ⟨replaces.proper proper, by simp, fun fresh old => replaces.reads required old,
    fun fresh n old done => ?_⟩
  have unique : Entries.Distinct (fieldReaders fields) := by
    rw [fieldReaders_eq]
    exact distinct.mapValues _
  have there : ∀ key c, (key, c) ∈ fieldReaders fields →
      property key (placed results entries) ≠ .absent → ∀ m,
      c (fresh.enter (.key key)) (property key (placed results entries)) = .ok m →
      m ≠ .absent := by
    intro key c member present m done
    rw [fieldReaders_eq] at member
    obtain ⟨field, here, rfl⟩ := Entries.mem_mapValues.mp member
    exact replaces.present here old present done
  obtain ⟨q, natives, rfl, -, again, read⟩ := convertProperties_placed unique
    (fun _ _ => fieldReaders_discerning) (fun _ _ => fieldReaders_fixesAbsent) old
    (replaces.proper proper) filled there done
  have same : Entries.names natives = Entries.names results := by
    rw [again, fieldReaders_eq, Entries.names_mapValues, replaces.names]
  rw [placed, placed, Entries.mapValues_mapValues, Value.alike_mapValues proper.distinct]
  intro key x member
  cases found : Entries.get? key results with
  | none =>
    have missing : Entries.get? key natives = none :=
      Entries.get?_eq_none (same ▸ Entries.get?_eq_none_iff.mp found)
    rw [missing]
    exact Value.alike_refl (proper.entries key x member)
  | some y =>
    obtain ⟨field, here, -⟩ := replaces.exists_field found
    obtain ⟨m, native, made, -⟩ := read key _ (mem_fieldReaders here)
    rw [native, ← Value.property_of_mem proper.distinct member]
    exact replaces.back here old made

end Replaces

private theorem written_fields {options : WriteOptions} {fields : List (String × Schema)}
    (distinct : Entries.Distinct fields) {fresh origin : Origin} {entries : List (String × Value)}
    {wire : Value} (old : (Value.object origin entries).Predates fresh)
    (proper : (Value.object origin entries).Proper) (filled : Filled entries)
    (ih : ∀ key field, (key, field) ∈ fields →
      Writes options field (fresh.enter (.key key)) (property key entries))
    (done : convertProperties (fieldWriters options fields) fresh (.object origin entries) =
      .ok wire) :
    ∃ p results, wire = .object p (placed results entries) ∧ Filled (placed results entries) ∧
      Entries.names results = Entries.names fields ∧
      ∀ key field, (key, field) ∈ fields → ∃ y, Entries.get? key results = some y ∧
        writer options field (fresh.enter (.key key)) (property key entries) = .ok y ∧
        property key (placed results entries) = y := by
  have unique : Entries.Distinct (fieldWriters options fields) := by
    rw [fieldWriters_eq]
    exact distinct.mapValues _
  have there : ∀ key c, (key, c) ∈ fieldWriters options fields →
      property key entries ≠ .absent → ∀ y,
      c (fresh.enter (.key key)) (property key entries) = .ok y → y ≠ .absent := by
    intro key c member present y done gone
    rw [fieldWriters_eq] at member
    obtain ⟨field, here, rfl⟩ := Entries.mem_mapValues.mp member
    have stands := (ih key field here).carried y (located_eq_ok.mp done)
    exact present (stands.absent.mp gone)
  obtain ⟨p, results, shape, full, names, each⟩ := convertProperties_placed unique
    (fun _ _ => fieldWriters_discerning) (fun _ _ => fieldWriters_fixesAbsent) old proper filled
    there done
  refine ⟨p, results, shape, full, ?_, fun key field member => ?_⟩
  · rw [names, fieldWriters_eq, Entries.names_mapValues]
  · obtain ⟨y, found, made, wired⟩ := each key _ (mem_fieldWriters member)
    exact ⟨y, found, located_eq_ok.mp made, wired⟩

private theorem writes_object {options : WriteOptions} {fields : List (String × Schema)}
    (distinct : Entries.Distinct fields) {fresh origin : Origin} {entries : List (String × Value)}
    (old : (Value.object origin entries).Predates fresh)
    (proper : (Value.object origin entries).Proper) (filled : Filled entries)
    (required : ∀ key field, (key, field) ∈ fields → field.isOption = false →
      property key entries ≠ .absent)
    (ih : ∀ key field, (key, field) ∈ fields →
      Writes options field (fresh.enter (.key key)) (property key entries)) :
    Writes options (.object fields) fresh (.object origin entries) := by
  constructor
  · refine exists_convertProperties_iff.mpr fun key c member => ?_
    rw [fieldWriters_eq] at member
    obtain ⟨field, here, rfl⟩ := Entries.mem_mapValues.mp member
    obtain ⟨y, done⟩ := (ih key field here).written
    exact ⟨y, located_eq_ok.mpr done⟩
  · intro wire done
    obtain ⟨p, results, rfl, full, names, each⟩ :=
      written_fields distinct old proper filled ih done
    refine standsFor_object distinct proper full required ⟨names, fun key field member => ?_⟩
    obtain ⟨y, found, made, wired⟩ := each key field member
    exact ⟨y, found, wired, (ih key field member).carried y made⟩

theorem writer_string {options : WriteOptions} {schema : Schema} {fresh : Origin} {s : String}
    {w : Value} (done : writer options schema fresh (.string s) = .ok w) : w = .string s := by
  induction schema using byParts with
  | leaf l =>
    rcases Leaf.eq_or_text_of_write done with kept | ⟨-, other, -⟩
    · exact kept
    · simp [Leaf.isText] at other
  | option inner ih => exact ih done
  | array item _ => simp [writer, convertEach, Value.asArray, Value.mistyped] at done
  | tuple elems _ => simp [writer, convertPositions, Value.asArray, Value.mistyped] at done
  | object fields _ => simp [writer, convertProperties, Value.asObject, Value.mistyped] at done
  | choice variants _ =>
    simp [writer, writeVariant, discriminant, Value.asObject, Value.mistyped] at done

structure Holding (kind : String) (x v : Value) : Prop where
  there : x ≠ .absent
  shape : ∃ origin entries, v = .object origin entries ∧ Entries.Distinct entries ∧
    (∀ key ∈ Entries.names entries, key = kindKey ∨ key = valueKey) ∧
    property kindKey entries = .string kind ∧ property valueKey entries = x

private theorem holding_variantValue (fresh : Origin) (kind : String) {y : Value}
    (there : y ≠ .absent) : Holding kind y (variantValue fresh kind y) := by
  have stored : Update.setProperty valueKey y [(kindKey, .string kind)] =
      [(kindKey, .string kind), (valueKey, y)] := by
    rw [Update.setProperty, if_neg (by simpa using there)]
    rfl
  refine ⟨there, fresh, _, rfl, ?_, ?_, ?_, ?_⟩
  · rw [stored]
    exact (by decide : [kindKey, valueKey].Nodup)
  · rw [stored]
    exact fun key member => by simpa using member
  · rw [stored]
    rfl
  · rw [stored]
    rfl

private theorem holding_mapped {kind : String} {x y v : Value} (holding : Holding kind x v)
    (there : y ≠ .absent) (discerning : y.same x = true → y = x) (fresh : Origin) :
    Holding kind y (if y.same x then v else variantValue fresh kind y) := by
  by_cases same : y.same x = true
  · rw [if_pos same, discerning same]
    exact holding
  · rw [if_neg same]
    exact holding_variantValue fresh kind there

private theorem proper_mapped (fresh : Origin) (kind : String) {x y v : Value} (proper : v.Proper)
    (inside : y.Proper) : (if y.same x then v else variantValue fresh kind y).Proper := by
  split
  · exact proper
  · refine .object (Update.distinct_setProperty (by simp [Entries.Distinct, Entries.names]) _ _) fun key value member => ?_
    unfold Update.setProperty at member
    split at member
    · obtain rfl : value = .string kind := by
        simpa using (Prod.mk.inj (List.mem_singleton.mp (Entries.mem_of_mem_erase member))).2
      exact .scalar rfl
    · rcases Entries.eq_or_mem_of_mem_set member with same | old
      · rw [(Prod.mk.inj same).2]
        exact inside
      · rw [(Prod.mk.inj (List.mem_singleton.mp old)).2]
        exact .scalar rfl

theorem length_of_holding {entries : List (String × Value)}
    (distinct : Entries.Distinct entries)
    (keys : ∀ key ∈ Entries.names entries, key = kindKey ∨ key = valueKey) {kind : String}
    (named : property kindKey entries = .string kind) (there : property valueKey entries ≠ .absent) :
    entries.length = 2 := by
  have kinded : kindKey ∈ Entries.names entries := by
    by_contra missing
    rw [property, Entries.get?_eq_none missing] at named
    simp at named
  have valued : valueKey ∈ Entries.names entries := by
    by_contra missing
    rw [property, Entries.get?_eq_none missing] at there
    exact there rfl
  have both : (Entries.names entries).Perm [kindKey, valueKey] := by
    refine (List.perm_ext_iff_of_nodup distinct (by decide)).mpr fun key => ?_
    constructor
    · intro member
      simpa using keys key member
    · intro member
      rcases (by simpa using member : key = kindKey ∨ key = valueKey) with rfl | rfl
      · exact kinded
      · exact valued
  simpa [Entries.names] using both.length_eq

private theorem alike_of_holding {kind : String} {x y a b : Value} (left : Holding kind y a)
    (right : Holding kind x b) (alike : y.alike x = true) : a.alike b = true := by
  obtain ⟨thereA, o, as, rfl, distinctA, keysA, namedA, rfl⟩ := left
  obtain ⟨thereB, p, bs, rfl, distinctB, keysB, namedB, rfl⟩ := right
  have sizeA := length_of_holding distinctA keysA namedA thereA
  have sizeB := length_of_holding distinctB keysB namedB thereB
  refine Value.alike_object.mpr ⟨sizeA.trans sizeB.symm, fun key value member => ?_⟩
  have own := Value.property_of_mem distinctA member
  have found : ∀ {key : String} {w : Value}, property key bs = w → w ≠ .absent →
      Entries.get? key bs = some w := by
    intro key w same some
    subst same
    cases there : Entries.get? key bs with
    | none => exact absurd (by rw [property, there]; rfl) some
    | some w => rw [property, there]; rfl
  rcases keysA key (Entries.mem_names_of_mem member) with rfl | rfl
  · refine ⟨.string kind, found namedB (by simp), ?_⟩
    rw [← own, namedA]
    exact Value.alike_refl (.scalar rfl)
  · refine ⟨_, found rfl thereB, ?_⟩
    rw [← own]
    exact alike

private theorem writes_bare {options : WriteOptions} {variants : List (String × Option Schema)}
    {fresh origin : Origin} {entries : List (String × Value)} {kind : String}
    (proper : (Value.object origin entries).Proper)
    (named : property kindKey entries = .string kind)
    (declared : Entries.get? kind variants = some none)
    (keys : ∀ key ∈ Entries.names entries, key = kindKey) :
    Writes options (.choice variants) fresh (.object origin entries) := by
  constructor
  · exact ⟨_, (writer_choice_eq_ok named).mpr (by rw [declared]; rfl)⟩
  · intro wire done
    have done := (writer_choice_eq_ok named).mp done
    rw [declared] at done
    obtain rfl : wire = .object origin entries := done
    refine ⟨proper, Iff.rfl, fun fresh _ => ?_, fun fresh n _ done => ?_⟩
    · exact ⟨_, (reader_choice_eq_ok named declared).mpr ⟨keys, rfl⟩⟩
    · rw [((reader_choice_eq_ok named declared).mp done).2]
      exact Value.alike_refl proper

private theorem writes_spread {options : WriteOptions} {variants : List (String × Option Schema)}
    {fields : List (String × Schema)} (distinct : Entries.Distinct fields)
    {fresh origin : Origin} {entries : List (String × Value)} {kind : String}
    (old : (Value.object origin entries).Predates fresh)
    (proper : (Value.object origin entries).Proper) (filled : Filled entries)
    (named : property kindKey entries = .string kind)
    (declared : Entries.get? kind variants = some (some (.object fields)))
    (required : ∀ key field, (key, field) ∈ fields → field.isOption = false →
      property key entries ≠ .absent)
    (ih : ∀ key field, (key, field) ∈ fields →
      Writes options field (fresh.enter (.key key)) (property key entries)) :
    Writes options (.choice variants) fresh (.object origin entries) := by
  have inner := writes_object distinct old proper filled required ih
  constructor
  · obtain ⟨w, done⟩ := inner.written
    refine ⟨w, (writer_choice_eq_ok named).mpr ?_⟩
    rw [declared]
    exact Or.inl ⟨fields, rfl, done⟩
  · intro wire done
    have done := (writer_choice_eq_ok named).mp done
    rw [declared] at done
    rcases done with ⟨_, same, done⟩ | ⟨object, -⟩
    · obtain rfl := Schema.object.inj same
      have stands := inner.carried wire done
      obtain ⟨p, results, rfl, -, names, each⟩ :=
        written_fields distinct old proper filled ih done
      have still : property kindKey (placed results entries) = .string kind := by
        cases here : Entries.get? kindKey fields with
        | some field =>
          obtain ⟨y, -, made, wired⟩ := each kindKey field (Entries.mem_of_get? here)
          rw [named] at made
          rw [wired, writer_string made]
        | none =>
          have missing : Entries.get? kindKey results = none :=
            Entries.get?_eq_none (names ▸ Entries.get?_eq_none_iff.mp here)
          rw [property, placed, Entries.get?_mapValues, missing]
          simpa [property] using named
      refine ⟨stands.proper, stands.absent, fun fresh old => ?_, fun fresh n old done => ?_⟩
      · obtain ⟨n, done⟩ := stands.reads fresh old
        exact ⟨n, (reader_choice_eq_ok still declared).mpr (Or.inl ⟨fields, rfl, done⟩)⟩
      · rcases (reader_choice_eq_ok still declared).mp done with ⟨_, same, done⟩ | ⟨object, -⟩
        · obtain rfl := Schema.object.inj same
          exact stands.back fresh n old done
        · simp [isObject] at object
    · simp [isObject] at object

private theorem writes_held {options : WriteOptions} {variants : List (String × Option Schema)}
    {payload : Schema} {fresh origin : Origin} {entries : List (String × Value)} {kind : String}
    (old : (Value.object origin entries).Predates fresh)
    (proper : (Value.object origin entries).Proper)
    (named : property kindKey entries = .string kind)
    (declared : Entries.get? kind variants = some (some payload))
    (object : payload.isObject = false)
    (keys : ∀ key ∈ Entries.names entries, key = kindKey ∨ key = valueKey)
    (there : property valueKey entries ≠ .absent)
    (ih : Writes options payload (fresh.enter (.key valueKey)) (property valueKey entries)) :
    Writes options (.choice variants) fresh (.object origin entries) := by
  have plain : ∀ fields, payload ≠ .object fields := by
    rintro fields rfl
    simp [isObject] at object
  have holding : Holding kind (property valueKey entries) (.object origin entries) :=
    ⟨there, origin, entries, rfl, proper.distinct, keys, named, rfl⟩
  constructor
  · obtain ⟨y, done⟩ := ih.written
    refine ⟨if y.same (property valueKey entries) then .object origin entries
      else variantValue fresh kind y, (writer_choice_eq_ok named).mpr ?_⟩
    rw [declared]
    exact Or.inr ⟨object, y, done, rfl⟩
  · intro wire done
    have done := (writer_choice_eq_ok named).mp done
    rw [declared] at done
    rcases done with ⟨fields, same, -⟩ | ⟨-, y, made, rfl⟩
    · exact absurd same (plain fields)
    · have stands := ih.carried y made
      have present : y ≠ .absent := fun gone => there (stands.absent.mp gone)
      have held := holding_mapped holding present
        (writer_discerning options payload (fresh.enter (.key valueKey)) _
          (old.property valueKey) y made) fresh
      have whole : (if y.same (property valueKey entries) then .object origin entries
          else variantValue fresh kind y).Proper := proper_mapped fresh kind proper stands.proper
      obtain ⟨-, p, es, shape, distinct, keys, named, valued⟩ := held
      rw [shape] at whole ⊢
      have held : Holding kind y (.object p es) := ⟨present, p, es, rfl, distinct, keys, named, valued⟩
      refine ⟨whole, by simp, fun fresh old => ?_, fun fresh n old done => ?_⟩
      · have before := old.property valueKey
        rw [valued] at before
        obtain ⟨m, done⟩ := stands.reads (fresh.enter (.key valueKey)) before
        refine ⟨if m.same y then .object p es else variantValue fresh kind m,
          (reader_choice_eq_ok named declared).mpr (Or.inr ⟨object, keys, ?_⟩)⟩
        rw [valued]
        exact ⟨present, m, done, rfl⟩
      · have before := old.property valueKey
        rcases (reader_choice_eq_ok named declared).mp done with
          ⟨fields, same, -⟩ | ⟨-, -, -, m, read, rfl⟩
        · exact absurd same (plain fields)
        · rw [valued] at before read ⊢
          have alike := stands.back (fresh.enter (.key valueKey)) m before read
          have some : m ≠ .absent := fun gone => there (absent_of_alike alike gone)
          have back := holding_mapped held some
            (reader_discerning payload (fresh.enter (.key valueKey)) y before m read) fresh
          exact alike_of_holding back holding alike

/-- A native value is written, and what is written reads as an equal value. -/
theorem writes (options : WriteOptions) {schema : Schema} (proper : schema.Proper) {fresh : Origin}
    {v : Value} (whole : v.Proper) (old : v.Predates fresh) (conforms : Conforms schema v) :
    Writes options schema fresh v := by
  induction schema using byLayout generalizing fresh v with
  | leaf l =>
    cases conforms with
    | leaf holds => exact writes_leaf options fresh whole holds
  | option inner ih =>
    cases proper with
    | option inside =>
      cases conforms with
      | missing => exact writes_missing options inner fresh
      | option conforms => exact writes_option (ih inside whole old conforms)
  | array item ih =>
    cases proper with
    | array inside =>
      cases conforms with
      | array each =>
        exact writes_array old fun j x member =>
          ih inside (whole.items x member) (old.item member) (each x member)
  | tuple elems ih =>
    cases proper with
    | tuple inside =>
      cases conforms with
      | tuple length each =>
        refine writes_tuple old length fun j elem x here found => ?_
        have declared := List.mem_of_getElem? here
        have member := List.mem_of_getElem? found
        exact ih elem declared (inside elem declared) (whole.items x member) (old.item member)
          (each j elem x here found)
  | object fields ih =>
    cases proper with
    | object distinct inside =>
      cases conforms with
      | object filled required each =>
        exact writes_object distinct old whole filled required fun key field member =>
          ih key field member (inside key field member) (whole.property key) (old.property key)
            (each key field member)
  | choice variants ih parts =>
    cases proper with
    | choice distinct inside =>
      cases conforms with
      | bare named member keys =>
        exact writes_bare whole named (Entries.get?_of_mem distinct member) keys
      | spread named member conforms =>
        cases inside _ _ member with
        | object unique within =>
          cases conforms with
          | object filled required each =>
            exact writes_spread unique old whole filled named
              (Entries.get?_of_mem distinct member) required fun key field here =>
                parts _ _ member key field here (within key field here) (whole.property key)
                  (old.property key) (each key field here)
      | held named member object keys there conforms =>
        exact writes_held old whole named (Entries.get?_of_mem distinct member) object keys there
          (ih _ _ member (inside _ _ member) (whole.property valueKey) (old.property valueKey)
            conforms)

/-- Round trip: what is written of a native value reads as an equal value. -/
theorem read_write {schema : Schema} (proper : schema.Proper) (options : WriteOptions) {v : Value}
    (whole : v.Proper) (conforms : Conforms schema v) :
    ∃ wire native, Schema.write options schema v = .ok wire ∧ schema.read wire = .ok native ∧
      native.alike v = true := by
  obtain ⟨⟨wire, done⟩, carried⟩ := writes options proper whole v.predates_freshOrigin conforms
  have stands := carried wire done
  obtain ⟨native, read⟩ := stands.reads wire.freshOrigin wire.predates_freshOrigin
  exact ⟨wire, native, done, read, stands.back _ native wire.predates_freshOrigin read⟩

theorem read_write_held :
    let schema : Schema := .choice [("none", none), ("at", some (.leaf .date))]
    let moment : Calendar.DateTime := ⟨⟨1970, 1, 1, by decide⟩, ⟨1, 500000000, by decide⟩⟩
    let v : Value := .object (.root 0) [("value", .date moment), ("kind", .string "at")]
    schema.Proper ∧ v.Proper ∧ Conforms schema v ∧
      ∃ wire native, Schema.write ⟨true, false, false, false⟩ schema v = .ok wire ∧
        schema.read wire = .ok native ∧ native.alike v = true := by
  intro schema moment v
  have proper : schema.Proper := by decide +zetaReduce
  have whole : v.Proper := by decide +zetaReduce
  have conforms : Conforms schema v := by
    have named : property kindKey [("value", .date moment), ("kind", .string "at")] =
        .string "at" := rfl
    refine .held named (List.mem_cons_of_mem _ List.mem_cons_self) rfl (by decide) (by simp [property, Entries.get?, valueKey]) ?_
    exact .leaf ⟨moment, rfl, ⟨by decide, by decide, by decide⟩⟩
  exact ⟨proper, whole, conforms, read_write proper _ whole conforms⟩

end WireSchema.Schema
