import WireSchema.Proofs.Alike
import WireSchema.Proofs.Content
import WireSchema.Proofs.Convert.Engines

/-!
The checking engine against two plainer descriptions: which values a schema admits, as an inductive
predicate, and what they read as, by converting every declared position on its own.
-/

set_option autoImplicit false

namespace WireSchema.Schema

open WireSchema.Convert
open WireSchema.Value (content contentEntries present alike)
open WireSchema.Update (Payload property kindKey valueKey discriminant)

/-- The values on the wire that conform to a schema. -/
inductive Accepts : Schema → Value → Prop where
  | leaf {l : Leaf} {v : Value} (origin : Origin) (n : Value) : l.read origin v = .ok n →
      Accepts (.leaf l) v
  | missing {inner : Schema} : Accepts (.option inner) .absent
  | option {inner : Schema} {v : Value} : Accepts inner v → Accepts (.option inner) v
  | array {item : Schema} {origin : Origin} {values : List Value} :
      (∀ x ∈ values, Accepts item x) → Accepts (.array item) (.array origin values)
  | tuple {elems : List Schema} {origin : Origin} {values : List Value} :
      values.length = elems.length →
      (∀ (i : Nat) (elem : Schema) (x : Value), elems[i]? = some elem → values[i]? = some x →
        Accepts elem x) →
      Accepts (.tuple elems) (.array origin values)
  | object {fields : List (String × Schema)} {origin : Origin}
      {entries : List (String × Value)} :
      (∀ key field, (key, field) ∈ fields → field.isOption = false →
        property key entries ≠ .absent) →
      (∀ key field, (key, field) ∈ fields → Accepts field (property key entries)) →
      Accepts (.object fields) (.object origin entries)
  | bare {variants : List (String × Option Schema)} {origin : Origin}
      {entries : List (String × Value)} {kind : String} :
      property kindKey entries = .string kind → (kind, none) ∈ variants →
      (∀ key ∈ Entries.names entries, key = kindKey) →
      Accepts (.choice variants) (.object origin entries)
  | spread {variants : List (String × Option Schema)} {fields : List (String × Schema)}
      {origin : Origin} {entries : List (String × Value)} {kind : String} :
      property kindKey entries = .string kind → (kind, some (.object fields)) ∈ variants →
      Accepts (.object fields) (.object origin entries) →
      Accepts (.choice variants) (.object origin entries)
  | held {variants : List (String × Option Schema)} {payload : Schema} {origin : Origin}
      {entries : List (String × Value)} {kind : String} :
      property kindKey entries = .string kind → (kind, some payload) ∈ variants →
      payload.isObject = false →
      (∀ key ∈ Entries.names entries, key = kindKey ∨ key = valueKey) →
      property valueKey entries ≠ .absent → Accepts payload (property valueKey entries) →
      Accepts (.choice variants) (.object origin entries)

def leafValue (l : Leaf) (v : Value) : Value :=
  match l.read (.root 0) v with
  | .ok n => n
  | .error _ => v

def rebuiltEntries (fields : List (String × (Value → Value))) (entries : List (String × Value)) :
    List (String × Value) :=
  Entries.mapValues
    (fun key x => match Entries.get? key fields with
      | some field => field x
      | none => x)
    entries

/-- A held payload put in the place of the old one; an object of the variant's name and the new
payload if that differs. -/
def rebuiltHeld (origin : Origin) (kind : String) (payload : Value → Value)
    (entries : List (String × Value)) : Value :=
  let old := property valueKey entries
  let new := payload old
  if new.alike old then .object origin entries
  else .object origin [(kindKey, .string kind), (valueKey, new)]

def rebuiltVariant (variants : List (String × Payload (Value → Value))) (origin : Origin)
    (entries : List (String × Value)) : Value :=
  match property kindKey entries with
  | .string kind =>
    match Entries.get? kind variants with
    | some (.spread fields) => .object origin (rebuiltEntries fields entries)
    | some (.held payload) => rebuiltHeld origin kind payload entries
    | some .none | none => .object origin entries
  | _ => .object origin entries

mutual

/-- The value with every declared position converted on its own and everything else kept. -/
def rebuild : Schema → Value → Value
  | .leaf l => leafValue l
  | .option inner => fun v => if v.isAbsent then .absent else rebuild inner v
  | .array item => fun
    | .array origin values => .array origin (values.map (rebuild item))
    | other => other
  | .tuple elems => fun
    | .array origin values =>
      .array origin (List.zipWith (fun elem x => elem x) (rebuildElems elems) values)
    | other => other
  | .object fields => fun
    | .object origin entries => .object origin (rebuiltEntries (rebuildFields fields) entries)
    | other => other
  | .choice variants => fun
    | .object origin entries => rebuiltVariant (rebuildVariants variants) origin entries
    | other => other

def rebuildElems : List Schema → List (Value → Value)
  | [] => []
  | elem :: rest => rebuild elem :: rebuildElems rest

def rebuildFields : List (String × Schema) → List (String × (Value → Value))
  | [] => []
  | (key, field) :: rest => (key, rebuild field) :: rebuildFields rest

def rebuildVariants : List (String × Option Schema) → List (String × Payload (Value → Value))
  | [] => []
  | (kind, none) :: rest => (kind, .none) :: rebuildVariants rest
  | (kind, some (.object fields)) :: rest =>
    (kind, .spread (rebuildFields fields)) :: rebuildVariants rest
  | (kind, some payload) :: rest => (kind, .held (rebuild payload)) :: rebuildVariants rest

end

theorem rebuildElems_eq_map (elems : List Schema) : rebuildElems elems = elems.map rebuild := by
  induction elems with
  | nil => rfl
  | cons elem rest ih => simp [rebuildElems, ih]

theorem rebuildFields_eq (fields : List (String × Schema)) :
    rebuildFields fields = Entries.mapValues (fun _ field => rebuild field) fields := by
  induction fields with
  | nil => rfl
  | cons field rest ih => simp [rebuildFields, ih]

theorem rebuildVariants_eq (variants : List (String × Option Schema)) :
    rebuildVariants variants =
      Entries.mapValues (fun _ payload => payloadBy rebuildFields rebuild payload) variants := by
  induction variants with
  | nil => rfl
  | cons variant rest ih =>
    obtain ⟨kind, payload⟩ := variant
    cases payload with
    | none => simp [rebuildVariants, payloadBy, ih]
    | some payload => cases payload <;> simp [rebuildVariants, payloadBy, ih]

/-- A result has the content of the rebuilt value, and is the input itself exactly if nothing was
changed in rebuilding it. -/
def Agrees (result rebuilt input : Value) : Prop :=
  result.content = rebuilt.content ∧ (result = input ↔ rebuilt.alike input = true)

private theorem agrees_of_parts {fresh origin : Origin} {values results targets : List Value}
    {r : Value} (old : (Value.array origin values).Predates fresh)
    (made : Rebuilt (.array origin values) fresh values results r)
    (size : results.length = values.length) (length : targets.length = values.length)
    (each : ∀ (j : Nat) (x y t : Value), values[j]? = some x → results[j]? = some y →
      targets[j]? = some t → Agrees y t x) :
    Agrees r (.array origin targets) (.array origin values) := by
  constructor
  · obtain ⟨o, rfl⟩ := made.exists_origin
    simp only [Value.content_array, Value.array.injEq, true_and]
    refine List.ext_getElem (by simp [size, length]) fun j left right => ?_
    simp only [List.length_map] at left right
    simp only [List.getElem_map]
    have within : j < values.length := size ▸ left
    exact (each j values[j] results[j] targets[j] (List.getElem?_eq_getElem within)
      (List.getElem?_eq_getElem left) (List.getElem?_eq_getElem right)).1
  · rw [made.eq_iff old, Value.alike_array]
    constructor
    · rintro rfl
      refine ⟨length, fun j t x here found => ?_⟩
      exact (each j x x t found found here).2.mp rfl
    · rintro ⟨-, alike⟩
      refine List.ext_getElem size fun j left right => ?_
      have here : j < targets.length := length ▸ right
      have found := List.getElem?_eq_getElem right
      have there := List.getElem?_eq_getElem here
      exact (each j values[j] results[j] targets[j] found
        (List.getElem?_eq_getElem left) there).2.mpr (alike j _ _ there found)

structure Described (schema : Schema) (fresh : Origin) (v : Value) : Prop where
  accepted : (∃ n, reader schema fresh v = .ok n) ↔ Accepts schema v
  agrees : ∀ n, reader schema fresh v = .ok n → Agrees n (rebuild schema v) v

private theorem described_leaf (l : Leaf) (fresh : Origin) {v : Value} (proper : v.Proper) :
    Described (.leaf l) fresh v := by
  constructor
  · constructor
    · rintro ⟨n, done⟩
      exact .leaf fresh n done
    · rintro ⟨origin, n, done⟩
      obtain ⟨m, done, -⟩ := Leaf.exists_read_at done fresh
      exact ⟨m, done⟩
  · intro n done
    obtain ⟨m, there, alike⟩ := Leaf.exists_read_at done (.root 0)
    have rebuilt : rebuild (.leaf l) v = m := by rw [rebuild, leafValue, there]
    rw [rebuilt]
    refine ⟨alike.symm, ?_⟩
    rcases Leaf.eq_or_text_of_read done with rfl | ⟨text, made⟩
    · rcases Leaf.eq_or_text_of_read there with rfl | ⟨text, made⟩
      · simp [Value.alike_refl proper]
      · rw [Leaf.isText_eq_of_content alike, text] at made
        simp at made
    · have other : n ≠ v := by
        rintro rfl
        simp [text] at made
      rw [← Leaf.isText_eq_of_content alike] at made
      simp [other, Leaf.alike_eq_false_of_text made text]

private theorem described_option {inner : Schema} {fresh : Origin} {v : Value}
    (ih : Described inner fresh v) : Described (.option inner) fresh v := by
  cases empty : v.isAbsent with
  | true =>
    obtain rfl := Value.isAbsent_eq_true.mp empty
    constructor
    · exact ⟨fun _ => .missing, fun _ => ⟨.absent, rfl⟩⟩
    · intro n done
      obtain rfl : .absent = n := Except.ok.inj done
      simp [Agrees, rebuild, Value.alike, Value.equalBy]
  | false =>
    have reads : reader (.option inner) fresh v = reader inner fresh v := by simp [reader, empty]
    constructor
    · rw [reads, ih.accepted]
      refine ⟨.option, fun accepts => ?_⟩
      cases accepts with
      | missing => simp at empty
      | option accepts => exact accepts
    · intro n done
      simpa [rebuild, empty] using ih.agrees n (reads ▸ done)

private theorem described_array {item : Schema} {fresh : Origin} {v : Value}
    (old : v.Predates fresh)
    (ih : ∀ origin values, v = .array origin values → ∀ j, ∀ x ∈ values,
      Described item (fresh.enter (.index j)) x) : Described (.array item) fresh v := by
  have discerning := reader_discerning item
  constructor
  · constructor
    · rintro ⟨r, done⟩
      obtain ⟨origin, values, _, rfl, -⟩ := (convertEach_eq_ok_iff discerning old).mp done
      have each := (exists_convertEach_iff discerning old).mp ⟨r, done⟩
      refine .array fun x member => ?_
      obtain ⟨j, within, rfl⟩ := List.mem_iff_getElem.mp member
      exact (ih origin values rfl j _ member).accepted.mp
        (each j _ (List.getElem?_eq_getElem within))
    · intro accepts
      cases accepts with
      | array each =>
        refine (exists_convertEach_iff discerning old).mpr fun j x found => ?_
        have member := List.mem_of_getElem? found
        exact (ih _ _ rfl j x member).accepted.mpr (each x member)
  · intro r done
    obtain ⟨origin, values, results, rfl, size, each, made⟩ :=
      (convertEach_eq_ok_iff discerning old).mp done
    refine agrees_of_parts old made size (List.length_map _) fun j x y t found there here => ?_
    obtain ⟨_, again, done⟩ := each j x found
    obtain rfl := Option.some.inj (there.symm.trans again)
    obtain rfl : rebuild item x = t := by simpa [found] using here
    exact (ih origin values rfl j x (List.mem_of_getElem? found)).agrees y done

private theorem described_tuple {elems : List Schema} {fresh : Origin} {v : Value}
    (old : v.Predates fresh)
    (ih : ∀ origin values, v = .array origin values → ∀ (j : Nat) (elem : Schema) (x : Value),
      elems[j]? = some elem → values[j]? = some x →
        Described elem (fresh.enter (.index j)) x) : Described (.tuple elems) fresh v := by
  have discerning : ∀ c ∈ elems.map reader, Discerning c := fun c member =>
    elemReaders_discerning (elemReaders_eq_map elems ▸ member)
  have reads : reader (.tuple elems) = convertPositions (elems.map reader) := by
    rw [reader, elemReaders_eq_map]
  have positions : ∀ (j : Nat) (elem : Schema), elems[j]? = some elem →
      (elems.map reader)[j]? = some (reader elem) := by
    intro j elem here
    simp [here]
  constructor
  · rw [reads]
    constructor
    · rintro ⟨r, done⟩
      obtain ⟨origin, values, _, rfl, -⟩ := (convertPositions_eq_ok_iff discerning old).mp done
      obtain ⟨length, each⟩ := (exists_convertPositions_iff discerning old).mp ⟨r, done⟩
      refine .tuple (by simpa using length) fun j elem x here found => ?_
      exact (ih origin values rfl j elem x here found).accepted.mp
        (each j _ x (positions j elem here) found)
    · intro accepts
      cases accepts with
      | tuple length each =>
        refine (exists_convertPositions_iff discerning old).mpr
          ⟨by simpa using length, fun j c x here found => ?_⟩
        obtain ⟨elem, there, rfl⟩ : ∃ elem, elems[j]? = some elem ∧ reader elem = c := by
          simpa using here
        exact (ih _ _ rfl j elem x there found).accepted.mpr (each j elem x there found)
  · intro r done
    rw [reads] at done
    obtain ⟨origin, values, results, rfl, length, size, each, made⟩ :=
      (convertPositions_eq_ok_iff discerning old).mp done
    rw [rebuild, rebuildElems_eq_map]
    rw [List.length_map] at length
    refine agrees_of_parts old made size (by simp [length]) fun j x y t found there here => ?_
    have within : j < elems.length := length ▸ (List.getElem?_eq_some_iff.mp found).1
    have elem := List.getElem?_eq_getElem within
    obtain ⟨_, again, done⟩ := each j _ x (positions j _ elem) found
    obtain rfl := Option.some.inj (there.symm.trans again)
    obtain rfl : rebuild elems[j] x = t := by
      simpa [List.getElem?_zipWith, elem, found] using here
    exact (ih origin values rfl j _ x elem found).agrees y done

private theorem rebuild_object (fields : List (String × Schema)) (origin : Origin)
    (entries : List (String × Value)) :
    rebuild (.object fields) (.object origin entries) = .object origin (Entries.mapValues
      (fun key x => match Entries.get? key fields with
        | some field => rebuild field x
        | none => x) entries) := by
  simp only [rebuild, rebuiltEntries, rebuildFields_eq, Value.object.injEq, true_and]
  refine Entries.mapValues_congr fun key x _ => ?_
  rw [Entries.get?_mapValues]
  cases Entries.get? key fields <;> rfl

private theorem rebuild_choice {variants : List (String × Option Schema)} (origin : Origin)
    {entries : List (String × Value)} {kind : String}
    (named : property kindKey entries = .string kind) :
    rebuild (.choice variants) (.object origin entries) =
      match Entries.get? kind variants with
      | some (some payload) =>
        if payload.isObject then rebuild payload (.object origin entries)
        else rebuiltHeld origin kind (rebuild payload) entries
      | some none | none => .object origin entries := by
  simp only [rebuild, rebuiltVariant, named, rebuildVariants_eq, Entries.get?_mapValues]
  cases Entries.get? kind variants with
  | none => rfl
  | some payload =>
    cases payload with
    | none => rfl
    | some payload =>
      cases object : payload.isObject with
      | true =>
        obtain ⟨fields, rfl⟩ := isObject_eq_true.mp object
        rfl
      | false =>
        rw [Option.map_some, payloadBy_held _ _ object]
        simp [object]

section Fields

variable {fields : List (String × Schema)} {fresh origin : Origin}
  {entries results : List (String × Value)} {r : Value}

private theorem accepts_object_iff
    (ih : ∀ key field, (key, field) ∈ fields →
      Described field (fresh.enter (.key key)) (property key entries)) :
    (∃ n, reader (.object fields) fresh (.object origin entries) = .ok n) ↔
      Accepts (.object fields) (.object origin entries) := by
  rw [reader, exists_convertProperties_iff, fieldReaders_eq]
  constructor
  · intro each
    have parts : ∀ key field, (key, field) ∈ fields →
        (property key entries = .absent → field.isOption = true) ∧
          Accepts field (property key entries) := by
      intro key field member
      obtain ⟨y, made⟩ := each key _ (Entries.mem_mapValues.mpr ⟨field, member, rfl⟩)
      obtain ⟨optional, made⟩ := readProperty_eq_ok.mp made
      exact ⟨optional, (ih key field member).accepted.mp ⟨y, made⟩⟩
    refine .object (fun key field member required missing => ?_)
      fun key field member => (parts key field member).2
    rw [(parts key field member).1 missing] at required
    simp at required
  · rintro ⟨⟩
    next there each =>
      intro key c member
      obtain ⟨field, declared, rfl⟩ := Entries.mem_mapValues.mp member
      obtain ⟨y, made⟩ := (ih key field declared).accepted.mpr (each key field declared)
      refine ⟨y, readProperty_eq_ok.mpr ⟨fun missing => ?_, made⟩⟩
      cases optional : field.isOption with
      | true => rfl
      | false => exact absurd missing (there key field declared optional)

private theorem agrees_of_fields (proper : (Value.object origin entries).Proper)
    (names : Entries.names results = Entries.names fields)
    (shown : ∃ o es, r = .object o es ∧ present es = present (placed results entries))
    (unchanged : r = .object origin entries ↔
      ∀ key y, Entries.get? key results = some y → y = property key entries)
    (known : ∀ key field, Entries.get? key fields = some field →
      ∃ y, Entries.get? key results = some y ∧ (property key entries = .absent → y = .absent) ∧
        Agrees y (rebuild field (property key entries)) (property key entries)) :
    Agrees r (rebuild (.object fields) (.object origin entries)) (.object origin entries) := by
  have other : ∀ key, Entries.get? key fields = none → Entries.get? key results = none :=
    fun key undeclared => Entries.get?_eq_none (by
      rw [names]
      exact Entries.get?_eq_none_iff.mp undeclared)
  have here : ∀ key x, (key, x) ∈ entries → property key entries = x :=
    fun _ _ member => Value.property_of_mem proper.distinct member
  rw [rebuild_object]
  constructor
  · obtain ⟨o, es, rfl, shown⟩ := shown
    simp only [Value.content_object, Value.object.injEq, true_and]
    rw [Value.contentEntries_of_present_eq shown, placed,
      Value.contentEntries_mapValues proper.distinct]
    intro key x member
    cases declared : Entries.get? key fields with
    | none => simp [other key declared]
    | some field =>
      obtain ⟨y, found, -, same⟩ := known key field declared
      rw [here key x member] at same
      simpa [found] using same.1
  · rw [unchanged, Value.alike_mapValues proper.distinct]
    constructor
    · intro kept key x member
      cases declared : Entries.get? key fields with
      | none => exact Value.alike_refl (proper.entries key x member)
      | some field =>
        obtain ⟨y, found, -, same⟩ := known key field declared
        have kept := kept key y found
        rw [here key x member] at same kept
        exact same.2.mp kept
    · intro alike key y found
      obtain ⟨field, declared⟩ := Entries.exists_get?_of_mem_names
        (names ▸ Entries.mem_names_of_get? found)
      obtain ⟨z, again, nothing, same⟩ := known key field declared
      obtain rfl := Option.some.inj (found.symm.trans again)
      rcases Value.property_mem key entries with missing | member
      · rw [missing, nothing missing]
      · have alike := alike key _ member
        simp only [declared] at alike
        exact same.2.mpr alike

end Fields

private theorem described_object {fields : List (String × Schema)}
    (distinct : Entries.Distinct fields) {fresh : Origin} {v : Value} (proper : v.Proper)
    (old : v.Predates fresh)
    (ih : ∀ origin entries, v = .object origin entries → ∀ key field, (key, field) ∈ fields →
      Described field (fresh.enter (.key key)) (property key entries)) :
    Described (.object fields) fresh v := by
  constructor
  · constructor
    · rintro ⟨r, done⟩
      obtain ⟨origin, entries, _, rfl, -⟩ := convertProperties_eq_ok_iff.mp done
      exact (accepts_object_iff (ih origin entries rfl)).mp ⟨r, done⟩
    · intro accepts
      cases accepts with
      | @object _ origin entries there each =>
        exact (accepts_object_iff (ih origin entries rfl)).mpr (.object there each)
  · intro r done
    have unique : Entries.Distinct (fieldReaders fields) := by
      rw [fieldReaders_eq]
      exact distinct.mapValues _
    obtain ⟨origin, entries, results, rfl, merged⟩ := convertProperties_merged unique
      (fun _ _ => fieldReaders_discerning) (fun _ _ => fieldReaders_fixesAbsent) old proper done
    have names : Entries.names results = Entries.names fields := by
      rw [merged.names, fieldReaders_eq, Entries.names_mapValues]
    refine agrees_of_fields proper names merged.shown merged.unchanged fun key field declared => ?_
    have member := Entries.mem_of_get? declared
    obtain ⟨y, found, made⟩ := merged.each key
      (readProperty key field.isOption (reader field))
      (by rw [fieldReaders_eq]; exact Entries.mem_mapValues.mpr ⟨field, member, rfl⟩)
    refine ⟨y, found, fun missing => ?_, (ih origin entries rfl key field member).agrees y
      (readProperty_eq_ok.mp made).2⟩
    exact readProperty_fixesAbsent key field _ y (missing ▸ made)

private theorem agrees_held {fresh origin : Origin} {entries : List (String × Value)}
    {kind : String} {mapped : Value} {payload : Value → Value}
    (proper : (Value.object origin entries).Proper)
    (old : (Value.object origin entries).Predates fresh)
    (part : Agrees mapped (payload (property valueKey entries)) (property valueKey entries))
    (discerning : mapped.same (property valueKey entries) = true →
      mapped = property valueKey entries) :
    Agrees
      (if mapped.same (property valueKey entries) then .object origin entries
        else Update.variantValue fresh kind mapped)
      (rebuiltHeld origin kind payload entries) (.object origin entries) := by
  rw [rebuiltHeld]
  by_cases kept : mapped = property valueKey entries
  · have alike := part.2.mp kept
    rw [kept] at part ⊢
    simp only [Value.same_refl, if_true, alike]
    exact ⟨rfl, by simp [Value.alike_refl proper]⟩
  · have differ : ¬mapped.same (property valueKey entries) = true := fun same =>
      kept (discerning same)
    have unlike : (payload (property valueKey entries)).alike (property valueKey entries) = false :=
      Bool.eq_false_iff.mpr fun alike => kept (part.2.mpr alike)
    rw [if_neg differ]
    simp only [unlike, Bool.false_eq_true, if_false]
    constructor
    · rw [Update.content_variantValue part.1, Value.content_object]
    · have apart : Update.variantValue fresh kind mapped ≠ .object origin entries := fun same =>
        old.object_origin_ne (Value.object.inj same).1
      simp only [apart, false_iff]
      intro alike
      obtain ⟨b, found, equal⟩ := (Value.alike_object.mp alike).2 valueKey _
        (List.mem_cons_of_mem _ List.mem_cons_self)
      have there : property valueKey entries = b := by rw [property, found, Option.getD_some]
      rw [← there, unlike] at equal
      exact Bool.false_ne_true equal

private theorem described_choice {variants : List (String × Option Schema)}
    (distinct : Entries.Distinct variants) {fresh : Origin} {v : Value} (proper : v.Proper)
    (old : v.Predates fresh)
    (spread : ∀ kind fields, (kind, some (.object fields)) ∈ variants →
      Described (.object fields) fresh v)
    (held : ∀ origin entries, v = .object origin entries →
      ∀ kind payload, (kind, some payload) ∈ variants →
        Described payload (fresh.enter (.key valueKey)) (property valueKey entries)) :
    Described (.choice variants) fresh v := by
  have reads : reader (.choice variants) = readVariant (variantReaders variants) := by rw [reader]
  constructor
  · rw [reads]
    constructor
    · rintro ⟨r, done⟩
      obtain ⟨origin, entries, kind, payload, rfl, named, declared, done⟩ :=
        readVariant_eq_ok.mp done
      have member := Entries.mem_of_get? declared
      cases payload with
      | none => exact .bare named member done.1
      | some payload =>
        rcases done with ⟨fields, rfl, done⟩ | ⟨object, keys, there, mapped, made, -⟩
        · exact .spread named member ((spread kind fields member).accepted.mp ⟨r, done⟩)
        · exact .held named member object keys there
            ((held origin entries rfl kind payload member).accepted.mp ⟨mapped, made⟩)
    · intro accepts
      refine (exists_congr fun _ => readVariant_eq_ok).mpr ?_
      cases accepts with
      | @bare _ origin entries kind named member keys =>
        have declared := Entries.get?_of_mem distinct member
        exact ⟨_, origin, entries, kind, none, rfl, named, declared, keys, rfl⟩
      | @spread _ fields origin entries kind named member inside =>
        have declared := Entries.get?_of_mem distinct member
        obtain ⟨r, done⟩ := (spread kind fields member).accepted.mpr inside
        exact ⟨r, origin, entries, kind, _, rfl, named, declared, Or.inl ⟨fields, rfl, done⟩⟩
      | @held _ payload origin entries kind named member object keys there inside =>
        have declared := Entries.get?_of_mem distinct member
        obtain ⟨mapped, made⟩ := (held origin entries rfl kind payload member).accepted.mpr inside
        exact ⟨_, origin, entries, kind, _, rfl, named, declared,
          Or.inr ⟨object, keys, there, mapped, made, rfl⟩⟩
  · intro r done
    rw [reads] at done
    obtain ⟨origin, entries, kind, payload, rfl, named, declared, done⟩ :=
      readVariant_eq_ok.mp done
    have member := Entries.mem_of_get? declared
    rw [rebuild_choice origin named, declared]
    cases payload with
    | none =>
      obtain rfl := done.2
      exact ⟨rfl, by simp [Value.alike_refl proper]⟩
    | some payload =>
      rcases done with ⟨fields, rfl, done⟩ | ⟨object, -, -, mapped, made, rfl⟩
      · exact (spread kind fields member).agrees r done
      · have part := (held origin entries rfl kind payload member).agrees mapped made
        simp only [object, Bool.false_eq_true, if_false]
        exact agrees_held proper old part
          (reader_discerning payload (fresh.enter (.key valueKey)) _ (old.property valueKey)
            mapped made)

/-- The engine reads what the schema admits, as its plain rebuilding. -/
theorem reader_described {schema : Schema} (proper : schema.Proper) {fresh : Origin} {v : Value}
    (whole : v.Proper) (old : v.Predates fresh) : Described schema fresh v := by
  induction schema using byParts generalizing fresh v with
  | leaf l => exact described_leaf l fresh whole
  | option inner ih =>
    cases proper with
    | option inside => exact described_option (ih inside whole old)
  | array item ih =>
    cases proper with
    | array inside =>
      refine described_array old fun origin values shape j x member => ?_
      subst shape
      exact ih inside (whole.items x member) (old.item member)
  | tuple elems ih =>
    cases proper with
    | tuple inside =>
      refine described_tuple old fun origin values shape j elem x here found => ?_
      subst shape
      have declared := List.mem_of_getElem? here
      have member := List.mem_of_getElem? found
      exact ih elem declared (inside elem declared) (whole.items x member) (old.item member)
  | object fields ih =>
    cases proper with
    | object distinct inside =>
      refine described_object distinct whole old fun origin entries shape key field member => ?_
      subst shape
      exact ih key field member (inside key field member) (whole.property key) (old.property key)
  | choice variants ih =>
    cases proper with
    | choice distinct inside =>
      refine described_choice distinct whole old
        (fun kind fields member => ih kind _ member (inside kind _ member) whole old)
        fun origin entries shape kind payload member => ?_
      subst shape
      exact ih kind payload member (inside kind payload member) (whole.property valueKey)
        (old.property valueKey)

/-- A value reads exactly if the schema admits it, and then as the value with every declared
position converted on its own, but for entries that hold nothing. -/
theorem read_iff_accepts {schema : Schema} (proper : schema.Proper) {input : Value}
    (whole : input.Proper) :
    ((∃ native, schema.read input = .ok native) ↔ Accepts schema input) ∧
      ∀ native, schema.read input = .ok native →
        native.content = (rebuild schema input).content := by
  have described := reader_described proper whole input.predates_freshOrigin
  exact ⟨described.accepted, fun native done => (described.agrees native done).1⟩

theorem read_iff_accepts_held :
    let schema : Schema := .choice [("none", none), ("some", some (.leaf .bigint))]
    let input : Value := .object (.root 0) [("kind", .string "some"), ("value", .string "7")]
    schema.Proper ∧ input.Proper ∧
      ((∃ native, schema.read input = .ok native) ↔ Accepts schema input) ∧
      ∀ native, schema.read input = .ok native →
        native.content = (rebuild schema input).content := by
  intro schema input
  have proper : schema.Proper := by decide +zetaReduce
  have whole : input.Proper := by decide +zetaReduce
  exact ⟨proper, whole, read_iff_accepts proper whole⟩

end WireSchema.Schema
