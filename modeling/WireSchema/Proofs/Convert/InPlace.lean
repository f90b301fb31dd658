import WireSchema.Proofs.Convert.Parts
import WireSchema.Proofs.Convert.RoundTrip
import WireSchema.Proofs.Leaf.Settled

/-!
Conversions of values in which nothing is absent. An array is converted item by item and an object
in place: every entry keeps its position and its key, and only the declared ones get a new value.
What is read of a document is again a value in which nothing is absent.
-/

set_option autoImplicit false

namespace WireSchema.Convert

open WireSchema.Update (property)
open WireSchema.Value (Filled)

def Itemwise (c : Conversion Fault) (size : Nat → Prop) (part : Nat → Conversion Fault) : Prop :=
  ∀ fresh v r, v.Predates fresh → (c fresh v = .ok r ↔
    ∃ origin values results, v = .array origin values ∧ size values.length ∧
      results.length = values.length ∧
      (∀ (j : Nat) (x : Value), values[j]? = some x → ∃ y, results[j]? = some y ∧
        part j (fresh.enter (.index j)) x = .ok y) ∧
      Rebuilt v fresh values results r)

theorem itemwise_each {item : Conversion Fault} (discerning : Discerning item) :
    Itemwise (convertEach item) (fun _ => True) fun _ => item := by
  intro fresh v r old
  simpa using convertEach_eq_ok_iff discerning old

def atPosition {γ : Type} (convert : γ → Conversion Fault) (elems : List γ) (j : Nat) :
    Conversion Fault :=
  (elems[j]?.map convert).getD fun _ x => .ok x

theorem atPosition_eq {γ : Type} {convert : γ → Conversion Fault} {elems : List γ} {j : Nat}
    {elem : γ} (here : elems[j]? = some elem) : atPosition convert elems j = convert elem := by
  rw [atPosition, here]
  rfl

theorem itemwise_positions {γ : Type} {convert : γ → Conversion Fault}
    (discerning : ∀ elem, Discerning (convert elem)) (elems : List γ) :
    Itemwise (convertPositions (elems.map convert)) (· = elems.length)
      (atPosition convert elems) := by
  have every : ∀ c ∈ elems.map convert, Discerning c := by
    intro c member
    obtain ⟨elem, -, rfl⟩ := List.mem_map.mp member
    exact discerning elem
  intro fresh v r old
  rw [convertPositions_eq_ok_iff every old, List.length_map]
  constructor
  · rintro ⟨origin, values, results, rfl, length, size, each, made⟩
    refine ⟨origin, values, results, rfl, length, size, fun j x found => ?_, made⟩
    have within : j < elems.length := length ▸ (List.getElem?_eq_some_iff.mp found).1
    have here := List.getElem?_eq_getElem within
    rw [atPosition_eq here]
    exact each j _ x (by rw [List.getElem?_map, here]; rfl) found
  · rintro ⟨origin, values, results, rfl, length, size, each, made⟩
    refine ⟨origin, values, results, rfl, length, size, fun j c x position found => ?_, made⟩
    rw [List.getElem?_map, Option.map_eq_some_iff] at position
    obtain ⟨elem, here, rfl⟩ := position
    have part := each j x found
    rwa [atPosition_eq here] at part

section Itemwise

variable {c : Conversion Fault} {size : Nat → Prop} {part : Nat → Conversion Fault}
  {fresh origin : Origin} {values : List Value}

theorem Itemwise.exists (itemwise : Itemwise c size part)
    (old : (Value.array origin values).Predates fresh) (fits : size values.length)
    (each : ∀ (j : Nat) (x : Value), values[j]? = some x →
      ∃ y, part j (fresh.enter (.index j)) x = .ok y) :
    ∃ r, c fresh (.array origin values) = .ok r := by
  obtain ⟨results, length, each⟩ := exists_results each
  by_cases same : results = values
  · exact ⟨_, (itemwise _ _ _ old).mpr
      ⟨origin, values, results, rfl, fits, length, each, Or.inl ⟨same, rfl⟩⟩⟩
  · exact ⟨_, (itemwise _ _ _ old).mpr
      ⟨origin, values, results, rfl, fits, length, each, Or.inr ⟨same, rfl⟩⟩⟩

theorem Itemwise.results (itemwise : Itemwise c size part) {r : Value}
    (old : (Value.array origin values).Predates fresh)
    (done : c fresh (.array origin values) = .ok r) :
    ∃ p results, r = .array p results ∧ size values.length ∧ results.length = values.length ∧
      (∀ (j : Nat) (x : Value), values[j]? = some x → ∃ y, results[j]? = some y ∧
        part j (fresh.enter (.index j)) x = .ok y) ∧
      (r = .array origin values ↔ results = values) := by
  obtain ⟨_, _, results, shape, fits, length, each, made⟩ := (itemwise _ _ _ old).mp done
  obtain ⟨rfl, rfl⟩ := Value.array.inj shape
  have still := made.eq_iff old
  obtain ⟨p, rfl⟩ := made.exists_origin
  exact ⟨p, results, rfl, fits, length, each, still⟩

theorem Itemwise.exists_array (itemwise : Itemwise c size part) {P : Value → Prop} {v r : Value}
    (old : v.Predates fresh)
    (each : ∀ (j : Nat) (x y : Value) (origin : Origin) (values : List Value),
      v = .array origin values → size values.length → values[j]? = some x →
      part j (fresh.enter (.index j)) x = .ok y → P y)
    (done : c fresh v = .ok r) : ∃ p results, r = .array p results ∧ ∀ y ∈ results, P y := by
  obtain ⟨origin, values, -, rfl, -⟩ := (itemwise _ _ _ old).mp done
  obtain ⟨p, results, rfl, fits, length, made, -⟩ := itemwise.results old done
  refine ⟨p, results, rfl, fun y member => ?_⟩
  obtain ⟨j, there⟩ := List.mem_iff_getElem?.mp member
  have within : j < values.length := length ▸ (List.getElem?_eq_some_iff.mp there).1
  have found := List.getElem?_eq_getElem within
  obtain ⟨_, again, converted⟩ := made j _ found
  obtain rfl := Option.some.inj (there.symm.trans again)
  exact each j _ y origin values rfl fits found converted

end Itemwise

theorem property_mapValues {f : String → Value → Value} {entries : List (String × Value)}
    (distinct : Entries.Distinct entries) {key : String} {x : Value}
    (member : (key, x) ∈ entries) : property key (Entries.mapValues f entries) = f key x := by
  rw [property, Entries.get?_mapValues, Entries.get?_of_mem distinct member]
  rfl

structure InPlace (cs : List (String × Conversion Fault)) (fresh origin : Origin)
    (entries : List (String × Value)) (r : Value) : Prop where
  shape : ∃ p, r = .object p (Entries.mapValues (fun key _ => r.get key) entries)
  there : ∀ key ∈ Entries.names entries, r.get key ≠ .absent
  declared : ∀ key c, (key, c) ∈ cs →
    c (fresh.enter (.key key)) (property key entries) = .ok (r.get key)
  others : ∀ key, key ∉ Entries.names cs → r.get key = property key entries
  still : (∀ key, r.get key = property key entries) → r = .object origin entries

theorem inPlace {cs : List (String × Conversion Fault)} (distinct : Entries.Distinct cs)
    (discerning : ∀ key c, (key, c) ∈ cs → Discerning c)
    (fixes : ∀ key c, (key, c) ∈ cs → FixesAbsent c) {fresh origin : Origin}
    {entries : List (String × Value)} {r : Value}
    (old : (Value.object origin entries).Predates fresh)
    (whole : (Value.object origin entries).Whole)
    (there : ∀ key c, (key, c) ∈ cs → property key entries ≠ .absent → ∀ y,
      c (fresh.enter (.key key)) (property key entries) = .ok y → y ≠ .absent)
    (done : convertProperties cs fresh (.object origin entries) = .ok r) :
    InPlace cs fresh origin entries r := by
  obtain ⟨declared, kept⟩ := convertProperties_parts distinct discerning old whole.proper done
  obtain ⟨p, results, rfl, full, names, -⟩ :=
    Schema.convertProperties_placed distinct discerning fixes old whole.proper whole.filled there
      done
  have entry : ∀ key x, (key, x) ∈ entries →
      (Value.object p (placed results entries)).get key = (Entries.get? key results).getD x :=
    fun key x member => property_mapValues whole.distinct member
  constructor
  · exact ⟨p, congrArg _ (Entries.mapValues_congr fun key x member => (entry key x member).symm)⟩
  · intro key member
    refine Filled.property_ne full ?_
    rwa [placed, Entries.names_mapValues]
  · exact declared
  · intro key outside
    have missing : Entries.get? key results = none := Entries.get?_eq_none (names ▸ outside)
    show property key (placed results entries) = property key entries
    rw [property, property, placed, Entries.get?_mapValues, missing]
    cases Entries.get? key entries <;> rfl
  · intro same
    rcases kept with kept | ⟨-, key, _, -, differ⟩
    · exact kept
    · exact absurd (same key) differ

theorem InPlace.exists_entries {cs : List (String × Conversion Fault)} {fresh origin : Origin}
    {entries : List (String × Value)} {r : Value} (inPlace : InPlace cs fresh origin entries r) :
    ∃ p results, r = .object p results ∧
      results = Entries.mapValues (fun key _ => property key results) entries := by
  obtain ⟨p, shape⟩ := inPlace.shape
  generalize filled : Entries.mapValues (fun key _ => r.get key) entries = results at shape
  subst shape
  exact ⟨p, results, rfl, filled.symm⟩

theorem InPlace.exists_object {cs : List (String × Conversion Fault)} {fresh origin : Origin}
    {entries : List (String × Value)} {r : Value} (inPlace : InPlace cs fresh origin entries r)
    (distinct : Entries.Distinct entries) {P : Value → Prop}
    (each : ∀ key ∈ Entries.names entries, P (r.get key)) :
    ∃ p results, r = .object p results ∧ Entries.Distinct results ∧
      ∀ key value, (key, value) ∈ results → P value := by
  obtain ⟨p, shape⟩ := inPlace.shape
  refine ⟨p, _, shape, distinct.mapValues _, fun key value member => ?_⟩
  obtain ⟨x, old, rfl⟩ := Entries.mem_mapValues.mp member
  exact each key (Entries.mem_names_of_mem old)

theorem InPlace.missing {cs : List (String × Conversion Fault)} {fresh origin : Origin}
    {entries : List (String × Value)} {r : Value} (inPlace : InPlace cs fresh origin entries r)
    {key : String} (missing : key ∉ Entries.names entries) : r.get key = .absent := by
  obtain ⟨p, shape⟩ := inPlace.shape
  rw [shape]
  refine Value.property_of_not_mem ?_
  rwa [Entries.names_mapValues]

end WireSchema.Convert

namespace WireSchema.Schema

open WireSchema.Convert
open WireSchema.Value (Filled)
open WireSchema.Update (property kindKey valueKey variantValue)

theorem itemwise_reader_tuple (elems : List Schema) :
    Itemwise (reader (.tuple elems)) (· = elems.length) (atPosition reader elems) := by
  rw [reader, elemReaders_eq_map]
  exact itemwise_positions reader_discerning elems

theorem itemwise_writer_tuple (options : WriteOptions) (elems : List Schema) :
    Itemwise (writer options (.tuple elems)) (· = elems.length)
      (atPosition (writer options) elems) := by
  rw [writer, elemWriters_eq_map]
  exact itemwise_positions (writer_discerning options) elems

theorem reader_option {inner : Schema} {fresh : Origin} {v : Value} (there : v ≠ .absent) :
    reader (.option inner) fresh v = reader inner fresh v := by
  simp [reader, Value.isAbsent_eq_false.mpr there]

theorem writer_option {options : WriteOptions} {inner : Schema} {fresh : Origin} {v : Value}
    (there : v ≠ .absent) :
    writer options (.option inner) fresh v = writer options inner fresh v := by
  simp [writer, Value.isAbsent_eq_false.mpr there]

section Fields

variable {fields : List (String × Schema)} {fresh origin : Origin}
  {entries : List (String × Value)} {r : Value}

theorem inPlace_readers (distinct : Entries.Distinct fields)
    (old : (Value.object origin entries).Predates fresh)
    (whole : (Value.object origin entries).Whole)
    (there : ∀ key field, (key, field) ∈ fields → property key entries ≠ .absent → ∀ y,
      reader field (fresh.enter (.key key)) (property key entries) = .ok y → y ≠ .absent)
    (done : reader (.object fields) fresh (.object origin entries) = .ok r) :
    InPlace (fieldReaders fields) fresh origin entries r := by
  have unique : Entries.Distinct (fieldReaders fields) := by
    rw [fieldReaders_eq]
    exact distinct.mapValues _
  refine inPlace unique (fun _ _ => fieldReaders_discerning) (fun _ _ => fieldReaders_fixesAbsent)
    old whole (fun key c member present y made => ?_) done
  rw [fieldReaders_eq] at member
  obtain ⟨field, here, rfl⟩ := Entries.mem_mapValues.mp member
  exact there key field here present y (readProperty_eq_ok.mp made).2

theorem inPlace_writers {options : WriteOptions} (distinct : Entries.Distinct fields)
    (old : (Value.object origin entries).Predates fresh)
    (whole : (Value.object origin entries).Whole)
    (there : ∀ key field, (key, field) ∈ fields → property key entries ≠ .absent → ∀ y,
      writer options field (fresh.enter (.key key)) (property key entries) = .ok y → y ≠ .absent)
    (done : writer options (.object fields) fresh (.object origin entries) = .ok r) :
    InPlace (fieldWriters options fields) fresh origin entries r := by
  have unique : Entries.Distinct (fieldWriters options fields) := by
    rw [fieldWriters_eq]
    exact distinct.mapValues _
  refine inPlace unique (fun _ _ => fieldWriters_discerning) (fun _ _ => fieldWriters_fixesAbsent)
    old whole (fun key c member present y made => ?_) done
  rw [fieldWriters_eq] at member
  obtain ⟨field, here, rfl⟩ := Entries.mem_mapValues.mp member
  exact there key field here present y (located_eq_ok.mp made)

theorem read_field (inPlace : InPlace (fieldReaders fields) fresh origin entries r) {key : String}
    {field : Schema} (member : (key, field) ∈ fields) :
    (property key entries = .absent → field.isOption = true) ∧
      reader field (fresh.enter (.key key)) (property key entries) = .ok (r.get key) :=
  readProperty_eq_ok.mp (inPlace.declared key _ (mem_fieldReaders member))

theorem written_field {options : WriteOptions}
    (inPlace : InPlace (fieldWriters options fields) fresh origin entries r) {key : String}
    {field : Schema} (member : (key, field) ∈ fields) :
    writer options field (fresh.enter (.key key)) (property key entries) = .ok (r.get key) :=
  located_eq_ok.mp (inPlace.declared key _ (mem_fieldWriters member))

end Fields

def atKey (convert : Schema → Conversion Fault) (fields : List (String × Schema)) (key : String) :
    Conversion Fault :=
  ((Entries.get? key fields).map convert).getD fun _ x => .ok x

theorem atKey_eq {convert : Schema → Conversion Fault} {fields : List (String × Schema)}
    {key : String} {field : Schema} (here : Entries.get? key fields = some field) :
    atKey convert fields key = convert field := by
  rw [atKey, here]
  rfl

theorem atKey_eq_idle {convert : Schema → Conversion Fault} {fields : List (String × Schema)}
    {key : String} (missing : Entries.get? key fields = none) :
    atKey convert fields key = fun _ x => .ok x := by
  rw [atKey, missing]
  rfl

section Keys

variable {fields : List (String × Schema)} {fresh origin : Origin}
  {entries : List (String × Value)} {r : Value}

theorem read_key (inPlace : InPlace (fieldReaders fields) fresh origin entries r) (key : String) :
    atKey reader fields key (fresh.enter (.key key)) (property key entries) = .ok (r.get key) := by
  cases here : Entries.get? key fields with
  | some field =>
    rw [atKey_eq here]
    exact (read_field inPlace (Entries.mem_of_get? here)).2
  | none =>
    have outside : key ∉ Entries.names (fieldReaders fields) := by
      rw [fieldReaders_eq, Entries.names_mapValues]
      exact Entries.get?_eq_none_iff.mp here
    rw [atKey_eq_idle here, inPlace.others key outside]

theorem written_key {options : WriteOptions}
    (inPlace : InPlace (fieldWriters options fields) fresh origin entries r) (key : String) :
    atKey (writer options) fields key (fresh.enter (.key key)) (property key entries) =
      .ok (r.get key) := by
  cases here : Entries.get? key fields with
  | some field =>
    rw [atKey_eq here]
    exact written_field inPlace (Entries.mem_of_get? here)
  | none =>
    have outside : key ∉ Entries.names (fieldWriters options fields) := by
      rw [fieldWriters_eq, Entries.names_mapValues]
      exact Entries.get?_eq_none_iff.mp here
    rw [atKey_eq_idle here, inPlace.others key outside]

theorem exists_reader_object
    (each : ∀ key field, (key, field) ∈ fields →
      (property key entries = .absent → field.isOption = true) ∧
        ∃ y, reader field (fresh.enter (.key key)) (property key entries) = .ok y) :
    ∃ n, reader (.object fields) fresh (.object origin entries) = .ok n := by
  refine exists_convertProperties_iff.mpr fun key c member => ?_
  rw [fieldReaders_eq] at member
  obtain ⟨field, here, rfl⟩ := Entries.mem_mapValues.mp member
  obtain ⟨optional, y, made⟩ := each key field here
  exact ⟨y, readProperty_eq_ok.mpr ⟨optional, made⟩⟩

theorem exists_writer_object {options : WriteOptions}
    (each : ∀ key field, (key, field) ∈ fields →
      ∃ y, writer options field (fresh.enter (.key key)) (property key entries) = .ok y) :
    ∃ w, writer options (.object fields) fresh (.object origin entries) = .ok w := by
  refine exists_convertProperties_iff.mpr fun key c member => ?_
  rw [fieldWriters_eq] at member
  obtain ⟨field, here, rfl⟩ := Entries.mem_mapValues.mp member
  obtain ⟨y, made⟩ := each key field here
  exact ⟨y, located_eq_ok.mpr made⟩

theorem reader_absent {field : Schema} (optional : field.isOption = true) (fresh : Origin) :
    reader field fresh .absent = .ok .absent := by
  cases field with
  | option inner => rfl
  | _ => simp [isOption] at optional

theorem writer_absent {field : Schema} (optional : field.isOption = true) (options : WriteOptions)
    (fresh : Origin) : writer options field fresh .absent = .ok .absent := by
  cases field with
  | option inner => rfl
  | _ => simp [isOption] at optional

end Keys

theorem reader_string {schema : Schema} {fresh : Origin} {s t : String}
    (done : reader schema fresh (.string s) = .ok (.string t)) :
    t = s ∧ ∀ fresh, reader schema fresh (.string s) = .ok (.string s) := by
  induction schema using byParts with
  | leaf l =>
    rcases Leaf.eq_or_text_of_read done with same | ⟨-, made⟩
    · obtain rfl := Value.string.inj same
      refine ⟨rfl, fun fresh => ?_⟩
      obtain ⟨m, read, alike⟩ := Leaf.exists_read_at done fresh
      rcases Leaf.eq_or_text_of_read read with rfl | ⟨-, made⟩
      · exact read
      · rw [Leaf.isText_eq_of_content alike] at made
        simp [Leaf.isText] at made
    · simp [Leaf.isText] at made
  | option inner ih => exact ih done
  | array item _ => simp [reader, convertEach, Value.asArray, Value.mistyped] at done
  | tuple elems _ => simp [reader, convertPositions, Value.asArray, Value.mistyped] at done
  | object fields _ => simp [reader, convertProperties, Value.asObject, Value.mistyped] at done
  | choice variants _ => simp [reader, readVariant, Value.asObject, Value.mistyped] at done

theorem atKey_reader_string {fields : List (String × Schema)} {key : String} {fresh : Origin}
    {s t : String} (done : atKey reader fields key fresh (.string s) = .ok (.string t)) :
    t = s ∧ ∀ fresh, atKey reader fields key fresh (.string s) = .ok (.string s) := by
  cases here : Entries.get? key fields with
  | some field =>
    rw [atKey_eq here] at done ⊢
    exact reader_string done
  | none =>
    rw [atKey_eq_idle here] at done ⊢
    exact ⟨(Value.string.inj (Except.ok.inj done)).symm, fun _ => rfl⟩

theorem atKey_writer_string {options : WriteOptions} {fields : List (String × Schema)}
    {key : String} {fresh : Origin} {s : String} {w : Value}
    (done : atKey (writer options) fields key fresh (.string s) = .ok w) : w = .string s := by
  cases here : Entries.get? key fields with
  | some field =>
    rw [atKey_eq here] at done
    exact writer_string done
  | none =>
    rw [atKey_eq_idle here] at done
    exact (Except.ok.inj done).symm

def pair {α : Type} (kindFirst : Bool) (kind payload : α) : List (String × α) :=
  if kindFirst then [(kindKey, kind), (valueKey, payload)]
  else [(valueKey, payload), (kindKey, kind)]

section Pair

variable {kindFirst : Bool} {kind : String} {x : Value}

@[simp] theorem property_pair_kind : property kindKey (pair kindFirst (.string kind) x) =
    .string kind := by
  cases kindFirst <;> simp [pair, property, Entries.get?, kindKey, valueKey]

@[simp] theorem property_pair_value : property valueKey (pair kindFirst (.string kind) x) = x := by
  cases kindFirst <;> simp [pair, property, Entries.get?, kindKey, valueKey]

theorem eq_of_mem_names_pair {key : String}
    (member : key ∈ Entries.names (pair kindFirst (.string kind) x)) :
    key = kindKey ∨ key = valueKey := by
  cases kindFirst <;> simpa [pair, or_comm] using member

theorem distinct_pair {α : Type} {kind payload : α} :
    Entries.Distinct (pair kindFirst kind payload) := by
  cases kindFirst <;> simp [pair, Entries.Distinct, kindKey, valueKey]

theorem mem_pair {α : Type} {kind payload value : α} {key : String}
    (member : (key, value) ∈ pair kindFirst kind payload) : value = kind ∨ value = payload := by
  cases kindFirst with
  | true => simpa [pair] using (by simpa [pair] using member : _ ∨ _).imp And.right And.right
  | false => simpa [pair] using (by simpa [pair] using member : _ ∨ _).symm.imp And.right And.right

theorem exists_eq_pair {entries : List (String × Value)} (distinct : Entries.Distinct entries)
    (keys : ∀ key ∈ Entries.names entries, key = kindKey ∨ key = valueKey)
    (named : property kindKey entries = .string kind)
    (there : property valueKey entries ≠ .absent) :
    ∃ kindFirst, entries = pair kindFirst (.string kind) (property valueKey entries) := by
  obtain ⟨⟨k₁, x₁⟩, ⟨k₂, x₂⟩, rfl⟩ :=
    List.length_eq_two.mp (length_of_holding distinct keys named there)
  have differ : k₁ ≠ k₂ := by simpa [Entries.Distinct] using distinct
  have other : kindKey ≠ valueKey := by decide
  rcases keys k₁ (by simp) with rfl | rfl
  · rcases keys k₂ (by simp) with rfl | rfl
    · exact absurd rfl differ
    · exact ⟨true, by simp_all [pair, property, Entries.get?]⟩
  · rcases keys k₂ (by simp) with rfl | rfl
    · exact ⟨false, by simp_all [pair, property, Entries.get?, Ne.symm other]⟩
    · exact absurd rfl differ

theorem variantValue_eq (fresh : Origin) (kind : String) (there : x ≠ .absent) :
    variantValue fresh kind x = .object fresh (pair true (.string kind) x) := by
  rw [variantValue, Update.setProperty, if_neg (by simpa using there)]
  rfl

/-- Where the pair stands after its payload `x` was mapped to `y`, and in which order: it is kept if
the payload is, and otherwise the name of the variant goes first. -/
structure Rewrapped (x y : Value) (origin : Origin) (kindFirst : Bool) (p : Origin) (first : Bool) :
    Prop where
  kept : y = x → p = origin ∧ first = kindFirst
  moved : first = false → y = x ∧ kindFirst = false

theorem mapped_pair (fresh origin : Origin) (kindFirst : Bool) (kind : String) {x y : Value}
    (there : y ≠ .absent) (discerning : y.same x = true → y = x) :
    ∃ p first, (if y.same x then .object origin (pair kindFirst (.string kind) x)
        else variantValue fresh kind y) = .object p (pair first (.string kind) y) ∧
      Rewrapped x y origin kindFirst p first := by
  by_cases same : y.same x = true
  · obtain rfl := discerning same
    exact ⟨origin, kindFirst, if_pos same, fun _ => ⟨rfl, rfl⟩, fun last => ⟨rfl, last⟩⟩
  · refine ⟨fresh, true, (if_neg same).trans (variantValue_eq fresh kind there), ?_, by simp⟩
    rintro rfl
    exact absurd (Value.same_refl y) same

theorem ofJson_pair (origin : Origin) (json : Json) :
    Value.ofJson origin (.object (pair kindFirst (.string kind) json)) =
      .object origin (pair kindFirst (.string kind)
        (Value.ofJson (origin.enter (.key valueKey)) json)) := by
  cases kindFirst <;> rfl

theorem toJson_pair {origin : Origin} {json : Json} (there : x ≠ .absent) :
    (Value.object origin (pair kindFirst (.string kind) x)).toJson = .ok json ↔
      ∃ tree, x.toJson = .ok tree ∧ json = .object (pair kindFirst (.string kind) tree) := by
  cases kindFirst <;>
    simp [pair, Value.toJson, Value.entriesJson, there, eq_comm (b := json)]

end Pair

section Held

variable {options : WriteOptions} {variants : List (String × Option Schema)} {kind : String}
  {payload : Schema} (declared : Entries.get? kind variants = some (some payload))
  (object : payload.isObject = false) (origin : Origin) (kindFirst : Bool) {fresh : Origin}
  {x y w : Value}
include declared object

theorem read_pair (old : x.Predates fresh) (there : x ≠ .absent) (present : y ≠ .absent)
    (read : reader payload (fresh.enter (.key valueKey)) x = .ok y) :
    ∃ p first, reader (.choice variants) fresh (.object origin (pair kindFirst (.string kind) x)) =
        .ok (.object p (pair first (.string kind) y)) ∧
      Rewrapped x y origin kindFirst p first := by
  obtain ⟨p, first, shape, placed⟩ := mapped_pair fresh origin kindFirst kind present
    (reader_discerning payload _ x (old.enter _) y read)
  refine ⟨p, first, (reader_choice_eq_ok property_pair_kind declared).mpr ?_, placed⟩
  refine Or.inr ⟨object, fun _ => eq_of_mem_names_pair, ?_⟩
  rw [property_pair_value]
  exact ⟨there, y, read, shape.symm⟩

theorem written_pair (old : x.Predates fresh) (present : y ≠ .absent)
    (written : writer options payload (fresh.enter (.key valueKey)) x = .ok y) :
    ∃ p first, writer options (.choice variants) fresh
        (.object origin (pair kindFirst (.string kind) x)) =
        .ok (.object p (pair first (.string kind) y)) ∧
      Rewrapped x y origin kindFirst p first := by
  obtain ⟨p, first, shape, placed⟩ := mapped_pair fresh origin kindFirst kind present
    (writer_discerning options payload _ x (old.enter _) y written)
  refine ⟨p, first, (writer_choice_eq_ok property_pair_kind).mpr ?_, placed⟩
  rw [declared]
  refine Or.inr ⟨object, ?_⟩
  rw [property_pair_value]
  exact ⟨y, written, shape.symm⟩

variable {origin kindFirst}

theorem exists_written_of_pair
    (written : writer options (.choice variants) fresh
      (.object origin (pair kindFirst (.string kind) x)) = .ok w) :
    ∃ y, writer options payload (fresh.enter (.key valueKey)) x = .ok y := by
  have done := (writer_choice_eq_ok property_pair_kind).mp written
  rw [declared] at done
  rcases done with ⟨fields, rfl, -⟩ | ⟨-, y, written, -⟩
  · simp [isObject] at object
  · rw [property_pair_value] at written
    exact ⟨y, written⟩

end Held

theorem whole_of_leaf {l : Leaf} {fresh : Origin} {v n : Value} (plain : v.Plain)
    (done : l.read fresh v = .ok n) : n.Whole := by
  rcases Leaf.eq_or_text_of_read done with rfl | ⟨text, -⟩
  · exact plain.whole
  · cases plain with
    | string s =>
      obtain ⟨plain, there⟩ := Leaf.scalar_of_read_text done
      exact .scalar plain there
    | _ => simp [Leaf.isText] at text

theorem whole_of_fields {fields : List (String × Schema)} (distinct : Entries.Distinct fields)
    {fresh origin : Origin} {entries : List (String × Value)} {n : Value}
    (plain : (Value.object origin entries).Plain)
    (old : (Value.object origin entries).Predates fresh)
    (ih : ∀ key field, (key, field) ∈ fields → ∀ y, (property key entries).Plain →
      reader field (fresh.enter (.key key)) (property key entries) = .ok y → y.Whole)
    (done : reader (.object fields) fresh (.object origin entries) = .ok n) :
    n.Whole ∧ InPlace (fieldReaders fields) fresh origin entries n := by
  have inPlace := inPlace_readers distinct old plain.whole (fun key field member present y made =>
    (ih key field member y (plain.property_of_ne present) made).ne_absent) done
  refine ⟨?_, inPlace⟩
  obtain ⟨p, results, rfl, unique, each⟩ := inPlace.exists_object plain.distinct fun key within => by
    have present := plain.property within
    by_cases declared : key ∈ Entries.names fields
    · obtain ⟨field, here⟩ := Entries.exists_get?_of_mem_names declared
      have here := Entries.mem_of_get? here
      exact ih key field here _ present (read_field inPlace here).2
    · have outside : key ∉ Entries.names (fieldReaders fields) := by
        rwa [fieldReaders_eq, Entries.names_mapValues]
      rw [inPlace.others key outside]
      exact present.whole
  exact .object unique each

theorem whole_of_variantValue (fresh : Origin) (kind : String) {y : Value} (whole : y.Whole) :
    (variantValue fresh kind y).Whole := by
  rw [variantValue_eq fresh kind whole.ne_absent]
  refine .object distinct_pair fun key value member => ?_
  rcases mem_pair member with rfl | rfl
  · exact .scalar rfl (by simp)
  · exact whole

theorem reader_whole {schema : Schema} (proper : schema.Proper) {fresh : Origin} {v n : Value}
    (plain : v.Plain) (old : v.Predates fresh) (done : reader schema fresh v = .ok n) :
    n.Whole := by
  induction schema using byParts generalizing fresh v n with
  | leaf l => exact whole_of_leaf plain done
  | option inner ih =>
    cases proper with
    | option inside =>
      rw [reader_option plain.whole.ne_absent] at done
      exact ih inside plain old done
  | array item ih =>
    cases proper with
    | array inside =>
      obtain ⟨p, results, rfl, each⟩ := (itemwise_each (reader_discerning item)).exists_array
        (P := Value.Whole) old (fun j x y origin values shape _ found made => by
          subst shape
          have member := List.mem_of_getElem? found
          exact ih inside (plain.item x member) ((old.item member).enter _) made) done
      exact .array each
  | tuple elems ih =>
    cases proper with
    | tuple inside =>
      obtain ⟨p, results, rfl, each⟩ := (itemwise_reader_tuple elems).exists_array
        (P := Value.Whole) old (fun j x y origin values shape length found made => by
          subst shape
          have within : j < elems.length := length ▸ (List.getElem?_eq_some_iff.mp found).1
          have here := List.getElem?_eq_getElem within
          have declared := List.mem_of_getElem? here
          have member := List.mem_of_getElem? found
          rw [atPosition_eq here] at made
          exact ih _ declared (inside _ declared) (plain.item x member) ((old.item member).enter _)
            made) done
      exact .array each
  | object fields ih =>
    obtain ⟨origin, entries, -, rfl, -⟩ := convertProperties_eq_ok_iff.mp done
    exact (whole_of_fields proper.distinct plain old (fun key field member y present made =>
      ih key field member (proper.field member) present ((old.property key).enter _) made) done).1
  | choice variants ih =>
    obtain ⟨origin, entries, kind, payload, rfl, named, declared, landed⟩ :=
      readVariant_eq_ok.mp done
    cases payload with
    | none =>
      obtain ⟨-, rfl⟩ := landed
      exact plain.whole
    | some payload =>
      have member := Entries.mem_of_get? declared
      have inside := proper.payload declared
      rcases landed with ⟨fields, rfl, done⟩ | ⟨-, -, there, mapped, made, rfl⟩
      · exact ih kind _ member inside plain old done
      · split
        · exact plain.whole
        · exact whole_of_variantValue fresh kind (ih kind payload member inside
            (plain.property_of_ne there) ((old.property valueKey).enter _) made)

theorem reader_fields {fields : List (String × Schema)} (proper : (Schema.object fields).Proper)
    {fresh origin : Origin} {entries : List (String × Value)} {n : Value}
    (plain : (Value.object origin entries).Plain)
    (old : (Value.object origin entries).Predates fresh)
    (done : reader (.object fields) fresh (.object origin entries) = .ok n) :
    n.Whole ∧ InPlace (fieldReaders fields) fresh origin entries n :=
  whole_of_fields proper.distinct plain old (fun key _ member _ present made =>
    reader_whole (proper.field member) present ((old.property key).enter _) made) done

end WireSchema.Schema
