import WireSchema.Proofs.Convert.HandedBack

/-!
Two schemas under which values are written alike: what shows of both results is the same, and both
are the value itself or neither is. The second half carries the first through payloads that are
held, since an object is made anew exactly if its payload does not come back itself.
-/

set_option autoImplicit false

namespace WireSchema.Schema

open WireSchema.Convert
open WireSchema.Update (property kindKey valueKey)
open WireSchema.Value (present)

structure Twins (v a b : Value) : Prop where
  content : a.content = b.content
  back : a = v ↔ b = v

/-- Values are written alike under two schemas, wherever both succeed and no undeclared variant is
met. -/
def WritesAlike (options : WriteOptions) (s t : Schema) : Prop :=
  ∀ fresh v a b, v.Predates fresh → v.Proper → ¬MeetsUndeclared s v → ¬MeetsUndeclared t v →
    writer options s fresh v = .ok a → writer options t fresh v = .ok b → Twins v a b

variable {options : WriteOptions} {fresh origin : Origin} {v a b : Value}

theorem twins_kept (v : Value) : Twins v v v :=
  ⟨rfl, Iff.rfl⟩

theorem writesAlike_idle {s t : Schema} (proper : s.Proper) (proper' : t.Proper)
    (idle : s.idle options = true) (idle' : t.idle options = true) : WritesAlike options s t := by
  intro fresh v a b old tidy declared declared' done done'
  obtain rfl := (writer_spares options proper fresh v a old tidy declared done).mpr (.idle idle)
  obtain rfl := (writer_spares options proper' fresh a b old tidy declared' done').mpr (.idle idle')
  exact twins_kept b

theorem writesAlike_leaf {l m : Leaf} (same : ∀ v, l.write options v = m.write options v) :
    WritesAlike options (.leaf l) (.leaf m) := by
  intro fresh v a b _ _ _ _ done done'
  have equal : (Except.ok a : Except Fault Value) = .ok b :=
    done.symm.trans ((same v).trans done')
  obtain rfl := Except.ok.inj equal
  exact ⟨rfl, Iff.rfl⟩

theorem writesAlike_option {s t : Schema} (part : WritesAlike options s t) :
    WritesAlike options (.option s) (.option t) := by
  intro fresh v a b old tidy declared declared' done done'
  simp only [writer] at done done'
  split at done
  · next empty =>
    rw [if_pos empty] at done'
    obtain rfl := Except.ok.inj done
    obtain rfl := Except.ok.inj done'
    exact ⟨rfl, Iff.rfl⟩
  · next there =>
    rw [if_neg there] at done'
    exact part fresh v a b old tidy (fun met => declared (.option met))
      (fun met => declared' (.option met)) done done'

theorem twins_rebuilt {values results results' : List Value}
    (old : (Value.array origin values).Predates fresh) (length : results.length = values.length)
    (length' : results'.length = values.length)
    (each : ∀ (j : Nat) (x : Value), values[j]? = some x →
      ∃ y y', results[j]? = some y ∧ results'[j]? = some y' ∧ Twins x y y')
    (made : Rebuilt (.array origin values) fresh values results a)
    (made' : Rebuilt (.array origin values) fresh values results' b) :
    Twins (.array origin values) a b := by
  refine ⟨?_, ?_⟩
  · obtain ⟨o, rfl⟩ := made.exists_origin
    obtain ⟨o', rfl⟩ := made'.exists_origin
    have shown : results.map Value.content = results'.map Value.content := by
      refine List.ext_getElem? fun j => ?_
      rw [List.getElem?_map, List.getElem?_map]
      cases found : values[j]? with
      | none =>
        rw [List.getElem?_eq_none_iff] at found
        rw [List.getElem?_eq_none (by omega), List.getElem?_eq_none (by omega)]
      | some x =>
        obtain ⟨y, y', here, there, twins⟩ := each j x found
        rw [here, there, Option.map_some, Option.map_some, twins.content]
    rw [Value.content_array, Value.content_array, shown]
  · rw [made.eq_iff old, made'.eq_iff old]
    constructor
    · rintro rfl
      refine eq_of_each length' fun j x found => ?_
      obtain ⟨y, y', here, there, twins⟩ := each j x found
      rw [there, twins.back.mp (Option.some.inj (here.symm.trans found))]
    · rintro rfl
      refine eq_of_each length fun j x found => ?_
      obtain ⟨y, y', here, there, twins⟩ := each j x found
      rw [here, twins.back.mpr (Option.some.inj (there.symm.trans found))]

theorem writesAlike_array {s t : Schema} (part : WritesAlike options s t) :
    WritesAlike options (.array s) (.array t) := by
  intro fresh v a b old tidy declared declared' done done'
  obtain ⟨origin, values, results, rfl, length, each, made⟩ :=
    (convertEach_eq_ok_iff (writer_discerning options s) old).mp done
  obtain ⟨_, _, results', shape, length', each', made'⟩ :=
    (convertEach_eq_ok_iff (writer_discerning options t) old).mp done'
  obtain ⟨rfl, rfl⟩ := Value.array.inj shape
  refine twins_rebuilt old length length' (fun j x found => ?_) made made'
  have member := List.mem_of_getElem? found
  obtain ⟨y, here, one⟩ := each j x found
  obtain ⟨y', there, two⟩ := each' j x found
  exact ⟨y, y', here, there, part _ x y y' ((old.item member).enter _) (tidy.items x member)
    (fun met => declared (.array member met)) (fun met => declared' (.array member met)) one two⟩

private theorem writer_tuple_eq_ok {elems : List Schema} {w : Value} (old : v.Predates fresh)
    (done : writer options (.tuple elems) fresh v = .ok w) :
    ∃ origin values results, v = .array origin values ∧ values.length = elems.length ∧
      results.length = values.length ∧
      (∀ (j : Nat) (elem : Schema) (x : Value), elems[j]? = some elem → values[j]? = some x →
        ∃ y, results[j]? = some y ∧ writer options elem (fresh.enter (.index j)) x = .ok y) ∧
      Rebuilt v fresh values results w := by
  rw [writer, elemWriters_eq_map] at done
  obtain ⟨origin, values, results, rfl, size, length, each, made⟩ :=
    (convertPositions_eq_ok_iff (fun c member => by
      obtain ⟨elem, -, rfl⟩ := List.mem_map.mp member
      exact writer_discerning options elem) old).mp done
  rw [List.length_map] at size
  refine ⟨origin, values, results, rfl, size, length, fun j elem x here found => ?_, made⟩
  exact each j (writer options elem) x (by simp [here]) found

theorem writesAlike_tuple {elems others : List Schema}
    (parts : ∀ (j : Nat) (s t : Schema), elems[j]? = some s → others[j]? = some t →
      WritesAlike options s t) : WritesAlike options (.tuple elems) (.tuple others) := by
  intro fresh v a b old tidy declared declared' done done'
  obtain ⟨origin, values, results, rfl, size, length, each, made⟩ := writer_tuple_eq_ok old done
  obtain ⟨_, _, results', shape, size', length', each', made'⟩ := writer_tuple_eq_ok old done'
  obtain ⟨rfl, rfl⟩ := Value.array.inj shape
  refine twins_rebuilt old length length' (fun j x found => ?_) made made'
  have member := List.mem_of_getElem? found
  have within : j < values.length := (List.getElem?_eq_some_iff.mp found).1
  have left := List.getElem?_eq_getElem (l := elems) (i := j) (by omega)
  have right := List.getElem?_eq_getElem (l := others) (i := j) (by omega)
  obtain ⟨y, here, one⟩ := each j _ x left found
  obtain ⟨y', there, two⟩ := each' j _ x right found
  exact ⟨y, y', here, there, parts j _ _ left right _ x y y' ((old.item member).enter _)
    (tidy.items x member) (fun met => declared (.tuple left found met))
    (fun met => declared' (.tuple right found met)) one two⟩

def answer (results entries : List (String × Value)) (key : String) : Value :=
  (Entries.get? key results).getD (property key entries)

theorem twins_merged {fields fields' : List (String × Conversion Fault)}
    {entries results results' : List (String × Value)} (distinct : Entries.Distinct entries)
    (merged : Merged fields fresh origin entries results a)
    (merged' : Merged fields' fresh origin entries results' b)
    (each : ∀ key, Twins (property key entries) (answer results entries key)
      (answer results' entries key)) :
    Twins (.object origin entries) a b := by
  refine ⟨?_, ?_⟩
  · obtain ⟨o, es, rfl, shown⟩ := merged.shown
    obtain ⟨o', es', rfl, shown'⟩ := merged'.shown
    have same : Value.contentEntries (placed results entries) =
        Value.contentEntries (placed results' entries) := by
      refine (Value.contentEntries_mapValues distinct).mpr fun key value member => ?_
      have found := Value.property_of_mem distinct member
      have twins := each key
      rw [answer, answer, found] at twins
      exact twins.content
    rw [Value.content_object, Value.content_object, Value.contentEntries_of_present_eq shown,
      Value.contentEntries_of_present_eq shown', same]
  · have stays : ∀ results : List (String × Value),
        (∀ key y, Entries.get? key results = some y → y = property key entries) ↔
          ∀ key, answer results entries key = property key entries := by
      intro results
      constructor
      · intro each key
        rw [answer]
        cases found : Entries.get? key results with
        | none => rfl
        | some y => exact each key y found
      · intro each key y found
        have same := each key
        rwa [answer, found] at same
    rw [merged.unchanged, merged'.unchanged, stays, stays]
    exact forall_congr' fun key => (each key).back

/-- Fields of which some are converted, as told by a list that has something for each of these and
nothing for the others. -/
structure Told {γ : Type} (options : WriteOptions) (fields : List (String × Schema))
    (parts : List (String × γ)) : Prop where
  declared : ∀ key, key ∈ Entries.names parts → key ∈ Entries.names fields
  idle : ∀ key field, Entries.get? key fields = some field → Entries.get? key parts = none →
    field.idle options = true

section Fields

variable {γ : Type} {fields others : List (String × Schema)} {parts : List (String × γ)}

private theorem answers_written (told : Told options fields parts)
    (proper : (Schema.object fields).Proper) {entries results : List (String × Value)} {w : Value}
    (old : (Value.object origin entries).Predates fresh)
    (tidy : (Value.object origin entries).Proper)
    (declared : ¬MeetsUndeclared (.object fields) (.object origin entries))
    (merged : Merged (fieldWriters options fields) fresh origin entries results w) (key : String) :
    match Entries.get? key parts with
    | none => answer results entries key = property key entries
    | some _ => ∃ field, Entries.get? key fields = some field ∧
        writer options field (fresh.enter (.key key)) (property key entries) =
          .ok (answer results entries key) := by
  have written : ∀ field, Entries.get? key fields = some field →
      writer options field (fresh.enter (.key key)) (property key entries) =
        .ok (answer results entries key) := by
    intro field found
    obtain ⟨y, there, made⟩ := merged.each key _ (mem_fieldWriters (Entries.mem_of_get? found))
    rw [answer, there]
    exact located_eq_ok.mp made
  cases part : Entries.get? key parts with
  | none =>
    cases found : Entries.get? key fields with
    | none =>
      have missing : key ∉ Entries.names results := by
        rw [merged.names, fieldWriters_eq, Entries.names_mapValues]
        exact Entries.get?_eq_none_iff.mp found
      dsimp only
      rw [answer, Entries.get?_eq_none missing, Option.getD_none]
    | some field =>
      have member := Entries.mem_of_get? found
      exact (writer_spares options (proper.field member) _ _ _
        ((old.property key).enter (.key key)) (tidy.property key)
        (fun met => declared (.object member met)) (written field found)).mpr
          (.idle (told.idle key field found part))
  | some part' =>
    have named := told.declared key (Entries.mem_names_of_get? part)
    obtain ⟨field, found⟩ := Entries.exists_get?_of_mem_names named
    exact ⟨field, found, written field found⟩

theorem writesAlike_object (told : Told options fields parts) (told' : Told options others parts)
    (proper : (Schema.object fields).Proper) (proper' : (Schema.object others).Proper)
    (each : ∀ key part s t, Entries.get? key parts = some part → Entries.get? key fields = some s →
      Entries.get? key others = some t → WritesAlike options s t) :
    WritesAlike options (.object fields) (.object others) := by
  intro fresh v a b old tidy declared declared' done done'
  obtain ⟨origin, entries, results, rfl, merged⟩ :=
    writer_object_merged proper.distinct old tidy done
  obtain ⟨_, _, results', shape, merged'⟩ := writer_object_merged proper'.distinct old tidy done'
  obtain ⟨rfl, rfl⟩ := Value.object.inj shape
  refine twins_merged tidy.distinct merged merged' fun key => ?_
  have left := answers_written told proper old tidy declared merged key
  have right := answers_written told' proper' old tidy declared' merged' key
  cases part : Entries.get? key parts with
  | none =>
    rw [part] at left right
    rw [left, right]
    exact twins_kept _
  | some here =>
    rw [part] at left right
    obtain ⟨s, found, made⟩ := left
    obtain ⟨t, found', made'⟩ := right
    exact each key here s t part found found' _ _ _ _ ((old.property key).enter _)
      (tidy.property key) (fun met => declared (.object (Entries.mem_of_get? found) met))
      (fun met => declared' (.object (Entries.mem_of_get? found') met)) made made'

end Fields

def idlePayload (options : WriteOptions) : Option Schema → Prop
  | none => True
  | some payload => payload.idle options = true

/-- What is written of two variants is alike: nothing under their payloads is converted, or both
spread their payloads, or both hold them. -/
inductive PayloadsAlike (options : WriteOptions) : Option Schema → Option Schema → Prop where
  | idle {left right : Option Schema} : idlePayload options left → idlePayload options right →
      PayloadsAlike options left right
  | spread {fields others : List (String × Schema)} :
      WritesAlike options (.object fields) (.object others) →
      PayloadsAlike options (some (.object fields)) (some (.object others))
  | held {s t : Schema} : s.isObject = false → t.isObject = false → WritesAlike options s t →
      PayloadsAlike options (some s) (some t)

section Variants

variable {variants others : List (String × Option Schema)}

-- A variant without a payload keeps its object, and so does one whose payload is not converted.
private theorem written_idle {payload : Option Schema} {entries : List (String × Value)}
    {kind : String} {w : Value} (proper : (Schema.choice variants).Proper)
    (old : (Value.object origin entries).Predates fresh)
    (tidy : (Value.object origin entries).Proper)
    (declared : ¬MeetsUndeclared (.choice variants) (.object origin entries))
    (done : writer options (.choice variants) fresh (.object origin entries) = .ok w)
    (named : property kindKey entries = .string kind)
    (found : Entries.get? kind variants = some payload) (idle : idlePayload options payload) :
    w = .object origin entries := by
  refine (writer_spares options proper fresh _ w old tidy declared done).mpr ?_
  refine (handedBack_choice named found).mpr fun inner same => ?_
  subst same
  exact .idle idle

private theorem twins_held {entries : List (String × Value)} {kind : String} {x y : Value}
    (old : (Value.object origin entries).Predates fresh)
    (twins : Twins (property valueKey entries) x y)
    (discerns : x.same (property valueKey entries) = true ↔ x = property valueKey entries)
    (discerns' : y.same (property valueKey entries) = true ↔ y = property valueKey entries) :
    Twins (.object origin entries)
      (if x.same (property valueKey entries) then .object origin entries
        else Update.variantValue fresh kind x)
      (if y.same (property valueKey entries) then .object origin entries
        else Update.variantValue fresh kind y) := by
  have anew : ∀ z, Update.variantValue fresh kind z ≠ .object origin entries :=
    fun z same => old.object_origin_ne (Value.object.inj same).1
  by_cases back : x = property valueKey entries
  · rw [if_pos (discerns.mpr back), if_pos (discerns'.mpr (twins.back.mp back))]
    exact twins_kept _
  · have other : y ≠ property valueKey entries := fun same => back (twins.back.mpr same)
    rw [if_neg (mt discerns.mp back), if_neg (mt discerns'.mp other)]
    exact ⟨Update.content_variantValue_inj.mpr twins.content, iff_of_false (anew x) (anew y)⟩

theorem writesAlike_choice (proper : (Schema.choice variants).Proper)
    (proper' : (Schema.choice others).Proper)
    (each : ∀ kind left right, Entries.get? kind variants = some left →
      Entries.get? kind others = some right → PayloadsAlike options left right) :
    WritesAlike options (.choice variants) (.choice others) := by
  intro fresh v a b old tidy declared declared' done done'
  obtain ⟨origin, entries, kind, left, rfl, named, found, made⟩ :=
    writer_choice_declared declared done
  obtain ⟨_, _, _, right, shape, again, found', made'⟩ := writer_choice_declared declared' done'
  obtain ⟨rfl, rfl⟩ := Value.object.inj shape
  obtain rfl := Value.string.inj (named.symm.trans again)
  cases each kind left right found found' with
  | idle idle idle' =>
    obtain rfl := written_idle proper old tidy declared done named found idle
    obtain rfl := written_idle proper' old tidy declared' done' named found' idle'
    exact twins_kept _
  | spread alike =>
    rcases made with ⟨_, same, made⟩ | ⟨solid, -⟩
    · obtain rfl := Schema.object.inj same
      rcases made' with ⟨_, same', made'⟩ | ⟨solid', -⟩
      · obtain rfl := Schema.object.inj same'
        exact alike fresh _ a b old tidy (fun met => declared (.spread named found met))
          (fun met => declared' (.spread named found' met)) made made'
      · simp [isObject] at solid'
    · simp [isObject] at solid
  | held solid solid' alike =>
    rcases made with ⟨_, rfl, -⟩ | ⟨-, x, one, rfl⟩
    · simp [isObject] at solid
    · rcases made' with ⟨_, rfl, -⟩ | ⟨-, y, two, rfl⟩
      · simp [isObject] at solid'
      · have before := (old.property valueKey).enter (.key valueKey)
        have twins := alike _ _ x y before (tidy.property valueKey)
          (fun met => declared (.held named found solid met))
          (fun met => declared' (.held named found' solid' met)) one two
        exact twins_held old twins
          ⟨writer_discerning options _ _ _ before x one, fun same => same ▸ Value.same_refl _⟩
          ⟨writer_discerning options _ _ _ before y two, fun same => same ▸ Value.same_refl _⟩

end Variants

end WireSchema.Schema
