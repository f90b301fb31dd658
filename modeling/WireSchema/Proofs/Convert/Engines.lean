import WireSchema.Proofs.Convert.Identity
import WireSchema.Proofs.Leaf.Results

/-!
The engines, part by part: what each makes of elements, fields and variants as one function of the
part, and that none of them mistakes what it makes for what it was given.
-/

set_option autoImplicit false

namespace WireSchema.Schema

open WireSchema.Convert
open WireSchema.Update (Payload discriminant kindKey valueKey property)

def payloadBy {γ : Type} (fields : List (String × Schema) → List (String × γ))
    (whole : Schema → γ) : Option Schema → Payload γ
  | none => .none
  | some (.object declared) => .spread (fields declared)
  | some payload => .held (whole payload)

/-- Objects, whose fields stand beside the name of a variant; other payloads are held. -/
def isObject : Schema → Bool
  | .object _ => true
  | _ => false

theorem payloadBy_held {γ : Type} (fields : List (String × Schema) → List (String × γ))
    (whole : Schema → γ) {payload : Schema} (held : payload.isObject = false) :
    payloadBy fields whole (some payload) = .held (whole payload) := by
  cases payload with
  | object fields => simp [isObject] at held
  | _ => rfl

theorem isObject_eq_true {payload : Schema} :
    payload.isObject = true ↔ ∃ fields, payload = .object fields := by
  cases payload <;> simp [isObject]

theorem elemReaders_eq_map (elems : List Schema) : elemReaders elems = elems.map reader := by
  induction elems with
  | nil => rfl
  | cons elem rest ih => simp [elemReaders, ih]

theorem fieldReaders_eq (fields : List (String × Schema)) :
    fieldReaders fields =
      Entries.mapValues (fun key field => readProperty key field.isOption (reader field)) fields := by
  induction fields with
  | nil => rfl
  | cons field rest ih => simp [fieldReaders, ih]

theorem variantReaders_eq (variants : List (String × Option Schema)) :
    variantReaders variants =
      Entries.mapValues (fun _ payload => payloadBy fieldReaders reader payload) variants := by
  induction variants with
  | nil => rfl
  | cons variant rest ih =>
    obtain ⟨kind, payload⟩ := variant
    cases payload with
    | none => simp [variantReaders, payloadBy, ih]
    | some payload => cases payload <;> simp [variantReaders, payloadBy, ih]

theorem elemTrusters_eq_map (elems : List Schema) : elemTrusters elems = elems.map truster := by
  induction elems with
  | nil => rfl
  | cons elem rest ih => simp [elemTrusters, ih]

theorem fieldTrusters_eq (fields : List (String × Schema)) :
    fieldTrusters fields = Entries.mapValues (fun _ field => truster field) fields := by
  induction fields with
  | nil => rfl
  | cons field rest ih => simp [fieldTrusters, ih]

theorem variantTrusters_eq (variants : List (String × Option Schema)) :
    variantTrusters variants =
      Entries.mapValues (fun _ payload => payloadBy fieldTrusters truster payload) variants := by
  induction variants with
  | nil => rfl
  | cons variant rest ih =>
    obtain ⟨kind, payload⟩ := variant
    cases payload with
    | none => simp [variantTrusters, payloadBy, ih]
    | some payload => cases payload <;> simp [variantTrusters, payloadBy, ih]

theorem elemWriters_eq_map (options : WriteOptions) (elems : List Schema) :
    elemWriters options elems = elems.map (writer options) := by
  induction elems with
  | nil => rfl
  | cons elem rest ih => simp [elemWriters, ih]

theorem fieldWriters_eq (options : WriteOptions) (fields : List (String × Schema)) :
    fieldWriters options fields = Entries.mapValues
      (fun key field fresh v => located (.key key) (writer options field fresh v)) fields := by
  induction fields with
  | nil => rfl
  | cons field rest ih => simp [fieldWriters, ih]

theorem variantWriters_eq (options : WriteOptions) (variants : List (String × Option Schema)) :
    variantWriters options variants = Entries.mapValues
      (fun _ payload => payloadBy (fieldWriters options) (writer options) payload) variants := by
  induction variants with
  | nil => rfl
  | cons variant rest ih =>
    obtain ⟨kind, payload⟩ := variant
    cases payload with
    | none => simp [variantWriters, payloadBy, ih]
    | some payload => cases payload <;> simp [variantWriters, payloadBy, ih]

theorem discriminant_eq_ok {v : Value} {kind : String} :
    discriminant v = .ok kind ↔ ∃ origin entries, v = .object origin entries ∧
      property kindKey entries = .string kind := by
  simp only [discriminant, bind_eq_ok, Prod.exists, asObject_eq_ok, property]
  constructor
  · rintro ⟨origin, entries, rfl, named⟩
    refine ⟨origin, entries, rfl, ?_⟩
    split at named
    · simp at named
    · simp at named
    · next found => rw [found, Except.ok.inj named, Option.getD_some]
    · simp [Value.mistyped] at named
  · rintro ⟨origin, entries, rfl, named⟩
    refine ⟨origin, entries, rfl, ?_⟩
    cases found : Entries.get? kindKey entries with
    | none => simp [found] at named
    | some value =>
      obtain rfl : value = .string kind := by simpa [found] using named
      rfl

theorem expectKeys_eq_ok {kind : String} {expected : List String}
    {entries : List (String × Value)} {done : Unit} :
    expectKeys kind expected entries = .ok done ↔ ∀ key ∈ Entries.names entries, key ∈ expected := by
  unfold expectKeys unexpectedKey?
  cases stray : (Entries.names entries).find? fun key => !expected.contains key with
  | none =>
    simp only [List.find?_eq_none] at stray
    simpa using stray
  | some key =>
    have outside := List.find?_some stray
    have there := List.mem_of_find?_eq_some stray
    simp only [reduceCtorEq, false_iff]
    intro every
    simp [every key there] at outside

theorem mappedPayload_eq_ok {fresh : Origin} {kind : String} {f : Value → Except Fault Value}
    {origin : Origin} {entries : List (String × Value)} {r : Value} :
    Update.mappedPayload fresh kind f (.object origin entries) = .ok r ↔
      ∃ mapped, f (property valueKey entries) = .ok mapped ∧
        r = if mapped.same (property valueKey entries) then .object origin entries
          else Update.variantValue fresh kind mapped := by
  simp only [Update.mappedPayload, bind_eq_ok]
  refine exists_congr fun mapped => and_congr_right fun _ => ?_
  change (if mapped.same (property valueKey entries) then _ else _) = _ ↔ _
  split
  · exact pure_eq_ok.trans eq_comm
  · exact pure_eq_ok.trans eq_comm

def VariantRead (payload : Option Schema) (fresh origin : Origin)
    (entries : List (String × Value)) (kind : String) (n : Value) : Prop :=
  match payload with
  | none => (∀ key ∈ Entries.names entries, key = kindKey) ∧ n = .object origin entries
  | some payload =>
    (∃ fields, payload = .object fields ∧
      convertProperties (fieldReaders fields) fresh (.object origin entries) = .ok n) ∨
    payload.isObject = false ∧
      (∀ key ∈ Entries.names entries, key = kindKey ∨ key = valueKey) ∧
      property valueKey entries ≠ .absent ∧
      ∃ mapped, reader payload (fresh.enter (.key valueKey)) (property valueKey entries) =
          .ok mapped ∧
        n = if mapped.same (property valueKey entries) then .object origin entries
          else Update.variantValue fresh kind mapped

theorem readVariant_eq_ok {variants : List (String × Option Schema)} {fresh : Origin}
    {v r : Value} :
    readVariant (variantReaders variants) fresh v = .ok r ↔
      ∃ origin entries kind payload, v = .object origin entries ∧
        property kindKey entries = .string kind ∧ Entries.get? kind variants = some payload ∧
        VariantRead payload fresh origin entries kind r := by
  simp only [readVariant, bind_eq_ok, Prod.exists, asObject_eq_ok]
  constructor
  · rintro ⟨origin, entries, rfl, kind, named, done⟩
    obtain ⟨_, _, shape, named⟩ := discriminant_eq_ok.mp named
    obtain ⟨rfl, rfl⟩ := Value.object.inj shape
    rw [variantReaders_eq, Entries.get?_mapValues] at done
    cases declared : Entries.get? kind variants with
    | none => simp [declared] at done
    | some payload =>
      refine ⟨origin, entries, kind, payload, rfl, named, declared, ?_⟩
      simp only [declared, Option.map_some] at done
      cases payload with
      | none =>
        obtain ⟨_, keys, same⟩ := bind_eq_ok.mp done
        exact ⟨by simpa using expectKeys_eq_ok.mp keys, (pure_eq_ok.mp same).symm⟩
      | some payload =>
        cases object : payload.isObject with
        | true =>
          obtain ⟨fields, rfl⟩ := isObject_eq_true.mp object
          exact Or.inl ⟨fields, rfl, done⟩
        | false =>
          rw [payloadBy_held _ _ object] at done
          obtain ⟨_, keys, done⟩ := bind_eq_ok.mp done
          refine Or.inr ⟨object, by simpa using expectKeys_eq_ok.mp keys, ?_⟩
          split at done
          · simp at done
          · next there =>
            obtain ⟨mapped, made, built⟩ := mappedPayload_eq_ok.mp done
            exact ⟨fun gone => there (Value.isAbsent_eq_true.mpr gone), mapped,
              located_eq_ok.mp made, built⟩
  · rintro ⟨origin, entries, kind, payload, rfl, named, declared, done⟩
    refine ⟨origin, entries, rfl, kind, discriminant_eq_ok.mpr ⟨_, _, rfl, named⟩, ?_⟩
    rw [variantReaders_eq, Entries.get?_mapValues, declared, Option.map_some]
    cases payload with
    | none =>
      have keys : expectKeys kind [kindKey] entries = .ok () :=
        expectKeys_eq_ok.mpr (by simpa using done.1)
      rw [done.2]
      exact bind_eq_ok.mpr ⟨(), keys, rfl⟩
    | some payload =>
      rcases done with ⟨fields, rfl, done⟩ | ⟨object, keys, there, mapped, made, built⟩
      · exact done
      · have keys : expectKeys kind [kindKey, valueKey] entries = .ok () :=
          expectKeys_eq_ok.mpr (by simpa using keys)
        have there : ¬((Value.object origin entries).get valueKey).isAbsent = true :=
          fun gone => there (Value.isAbsent_eq_true.mp gone)
        rw [payloadBy_held _ _ object]
        simp only [keys, ok_bind, if_neg there]
        exact mappedPayload_eq_ok.mpr ⟨mapped, located_eq_ok.mpr made, built⟩

theorem reader_choice_eq_ok {variants : List (String × Option Schema)} {fresh origin : Origin}
    {entries : List (String × Value)} {kind : String} {payload : Option Schema} {n : Value}
    (named : property kindKey entries = .string kind)
    (declared : Entries.get? kind variants = some payload) :
    reader (.choice variants) fresh (.object origin entries) = .ok n ↔
      VariantRead payload fresh origin entries kind n := by
  rw [reader, readVariant_eq_ok]
  constructor
  · rintro ⟨_, _, _, _, shape, again, found, done⟩
    obtain ⟨rfl, rfl⟩ := Value.object.inj shape
    obtain rfl := Value.string.inj (named.symm.trans again)
    obtain rfl := Option.some.inj (declared.symm.trans found)
    exact done
  · intro done
    exact ⟨_, _, kind, payload, rfl, named, declared, done⟩

def VariantWritten (options : WriteOptions) (payload : Option (Option Schema)) (fresh : Origin)
    (origin : Origin) (entries : List (String × Value)) (kind : String) (w : Value) : Prop :=
  match payload with
  | none => options.choiceFallthrough = true ∧ w = .absent
  | some none => w = .object origin entries
  | some (some payload) =>
    (∃ fields, payload = .object fields ∧
      convertProperties (fieldWriters options fields) fresh (.object origin entries) = .ok w) ∨
    payload.isObject = false ∧
      ∃ mapped, writer options payload (fresh.enter (.key valueKey)) (property valueKey entries) =
          .ok mapped ∧
        w = if mapped.same (property valueKey entries) then .object origin entries
          else Update.variantValue fresh kind mapped

theorem writeVariant_eq_ok {options : WriteOptions} {variants : List (String × Option Schema)}
    {fresh : Origin} {v w : Value} :
    writeVariant options (variantWriters options variants) fresh v = .ok w ↔
      ∃ origin entries kind, v = .object origin entries ∧ property kindKey entries = .string kind ∧
        VariantWritten options (Entries.get? kind variants) fresh origin entries kind w := by
  have layout : ∀ origin entries kind, v = .object origin entries →
      property kindKey entries = .string kind →
      (writeVariant options (variantWriters options variants) fresh v = .ok w ↔
        VariantWritten options (Entries.get? kind variants) fresh origin entries kind w) := by
    rintro origin entries kind rfl named
    have found : discriminant (.object origin entries) = .ok kind :=
      discriminant_eq_ok.mpr ⟨origin, entries, rfl, named⟩
    rw [writeVariant, found, ok_bind, variantWriters_eq, Entries.get?_mapValues]
    cases Entries.get? kind variants with
    | none =>
      cases through : options.choiceFallthrough with
      | true => exact pure_eq_ok.trans (by simp [VariantWritten, through, eq_comm])
      | false => simp [VariantWritten, through]
    | some payload =>
      cases payload with
      | none => exact pure_eq_ok.trans eq_comm
      | some payload =>
        cases object : payload.isObject with
        | true =>
          obtain ⟨fields, rfl⟩ := isObject_eq_true.mp object
          simp [payloadBy, VariantWritten, isObject]
        | false =>
          have other : ∀ fields, payload ≠ .object fields := by
            rintro fields rfl
            simp [isObject] at object
          rw [Option.map_some, payloadBy_held _ _ object]
          simp only [mappedPayload_eq_ok, located_eq_ok, VariantWritten]
          simp [other, object]
  constructor
  · intro done
    obtain ⟨kind, found, -⟩ := bind_eq_ok.mp done
    obtain ⟨origin, entries, shape, named⟩ := discriminant_eq_ok.mp found
    exact ⟨origin, entries, kind, shape, named, (layout origin entries kind shape named).mp done⟩
  · rintro ⟨origin, entries, kind, shape, named, done⟩
    exact (layout origin entries kind shape named).mpr done

theorem writer_choice_eq_ok {options : WriteOptions} {variants : List (String × Option Schema)}
    {fresh origin : Origin} {entries : List (String × Value)} {kind : String} {w : Value}
    (named : property kindKey entries = .string kind) :
    writer options (.choice variants) fresh (.object origin entries) = .ok w ↔
      VariantWritten options (Entries.get? kind variants) fresh origin entries kind w := by
  rw [writer, writeVariant_eq_ok]
  constructor
  · rintro ⟨_, _, _, shape, again, done⟩
    obtain ⟨rfl, rfl⟩ := Value.object.inj shape
    obtain rfl := Value.string.inj (named.symm.trans again)
    exact done
  · intro done
    exact ⟨_, _, kind, rfl, named, done⟩

private theorem readVariant_discerning (variants : List (String × Payload (Conversion Fault))) :
    Discerning (readVariant variants) := by
  intro fresh v old r done same
  simp only [readVariant, bind_eq_ok, Prod.exists] at done
  obtain ⟨origin, entries, -, kind, -, done⟩ := done
  split at done
  · simp at done
  · obtain ⟨-, -, done⟩ := bind_eq_ok.mp done
    exact (pure_eq_ok.mp done).symm
  · next fields _ => exact convertProperties_discerning fields fresh v old r done same
  · obtain ⟨-, -, done⟩ := bind_eq_ok.mp done
    split at done
    · simp at done
    · exact mappedPayload_discerning old r done same

theorem reader_discerning (schema : Schema) : Discerning (reader schema) := by
  induction schema using byParts with
  | leaf l =>
    intro fresh v old r done same
    rcases Leaf.eq_or_text_of_read done with kept | ⟨text, made⟩
    · exact kept
    · simp [(Leaf.same_eq_false_of_text text made).2] at same
  | option inner ih =>
    intro fresh v old r done same
    simp only [reader] at done
    split at done
    · next empty => rw [Value.isAbsent_eq_true.mp empty, Except.ok.inj done]
    · exact ih fresh v old r done same
  | array item _ => exact convertEach_discerning _
  | tuple elems _ => exact convertPositions_discerning _
  | object fields _ => exact convertProperties_discerning _
  | choice variants _ => exact readVariant_discerning _

theorem readProperty_eq_ok {key : String} {optional : Bool} {field : Conversion Fault}
    {fresh : Origin} {v n : Value} :
    readProperty key optional field fresh v = .ok n ↔
      (v = .absent → optional = true) ∧ field fresh v = .ok n := by
  rw [readProperty]
  split
  · next missing =>
    simp only [Bool.and_eq_true, Value.isAbsent_eq_true, Bool.not_eq_true'] at missing
    simp [missing.1, missing.2]
  · next fine =>
    simp only [Bool.and_eq_true, Value.isAbsent_eq_true, Bool.not_eq_true', not_and,
      Bool.not_eq_false] at fine
    simp only [located_eq_ok, iff_and_self]
    exact fun _ => fine

theorem readProperty_discerning {key : String} {optional : Bool} {field : Conversion Fault}
    (discerning : Discerning field) : Discerning (readProperty key optional field) :=
  fun fresh v old r done same => discerning fresh v old r (readProperty_eq_ok.mp done).2 same

theorem readProperty_fixesAbsent (key : String) (schema : Schema) :
    FixesAbsent (readProperty key schema.isOption (reader schema)) := by
  intro fresh r done
  obtain ⟨optional, done⟩ := readProperty_eq_ok.mp done
  cases schema with
  | option inner => exact (Except.ok.inj done).symm
  | _ => simp [isOption] at optional

private theorem writeVariant_discerning (options : WriteOptions)
    (variants : List (String × Payload (Conversion Fault))) :
    Discerning (writeVariant options variants) := by
  intro fresh v old r done same
  simp only [writeVariant, bind_eq_ok] at done
  obtain ⟨kind, named, done⟩ := done
  split at done
  · split at done
    · obtain ⟨_, _, rfl, -⟩ := discriminant_eq_ok.mp named
      simp [← pure_eq_ok.mp done, Value.same] at same
    · simp at done
  · exact (pure_eq_ok.mp done).symm
  · next fields _ => exact convertProperties_discerning fields fresh v old r done same
  · exact mappedPayload_discerning old r done same

theorem writer_discerning (options : WriteOptions) (schema : Schema) :
    Discerning (writer options schema) := by
  induction schema using byParts with
  | leaf l =>
    intro fresh v old r done same
    rcases Leaf.eq_or_text_of_write done with kept | ⟨-, made, text⟩
    · exact kept
    · simp [(Leaf.same_eq_false_of_text text made).1] at same
  | option inner ih =>
    intro fresh v old r done same
    simp only [writer] at done
    split at done
    · next empty => rw [Value.isAbsent_eq_true.mp empty, Except.ok.inj done]
    · exact ih fresh v old r done same
  | array item _ => exact convertEach_discerning _
  | tuple elems _ => exact convertPositions_discerning _
  | object fields _ => exact convertProperties_discerning _
  | choice variants _ => exact writeVariant_discerning options _

theorem writer_fixesAbsent (options : WriteOptions) (schema : Schema) :
    FixesAbsent (writer options schema) := by
  intro fresh r done
  cases schema with
  | leaf l =>
    rcases Leaf.eq_or_text_of_write done with kept | ⟨there, -⟩
    · exact kept
    · exact absurd rfl there
  | option inner => exact (Except.ok.inj done).symm
  | array item => simp [writer, convertEach, Value.asArray, Value.mistyped] at done
  | tuple elems => simp [writer, convertPositions, Value.asArray, Value.mistyped] at done
  | object fields => simp [writer, convertProperties, Value.asObject, Value.mistyped] at done
  | choice variants =>
    simp [writer, writeVariant, discriminant, Value.asObject, Value.mistyped] at done

theorem elemReaders_discerning {elems : List Schema} {c : Conversion Fault}
    (member : c ∈ elemReaders elems) : Discerning c := by
  rw [elemReaders_eq_map] at member
  obtain ⟨elem, -, rfl⟩ := List.mem_map.mp member
  exact reader_discerning elem

theorem elemWriters_discerning {options : WriteOptions} {elems : List Schema} {c : Conversion Fault}
    (member : c ∈ elemWriters options elems) : Discerning c := by
  rw [elemWriters_eq_map] at member
  obtain ⟨elem, -, rfl⟩ := List.mem_map.mp member
  exact writer_discerning options elem

theorem fieldReaders_discerning {fields : List (String × Schema)} {key : String}
    {c : Conversion Fault} (member : (key, c) ∈ fieldReaders fields) : Discerning c := by
  rw [fieldReaders_eq] at member
  obtain ⟨field, -, rfl⟩ := Entries.mem_mapValues.mp member
  exact readProperty_discerning (reader_discerning field)

theorem fieldReaders_fixesAbsent {fields : List (String × Schema)} {key : String}
    {c : Conversion Fault} (member : (key, c) ∈ fieldReaders fields) : FixesAbsent c := by
  rw [fieldReaders_eq] at member
  obtain ⟨field, -, rfl⟩ := Entries.mem_mapValues.mp member
  exact readProperty_fixesAbsent key field

theorem fieldWriters_discerning {options : WriteOptions} {fields : List (String × Schema)}
    {key : String} {c : Conversion Fault} (member : (key, c) ∈ fieldWriters options fields) :
    Discerning c := by
  rw [fieldWriters_eq] at member
  obtain ⟨field, -, rfl⟩ := Entries.mem_mapValues.mp member
  intro fresh v old r done same
  exact writer_discerning options field fresh v old r (located_eq_ok.mp done) same

theorem fieldWriters_fixesAbsent {options : WriteOptions} {fields : List (String × Schema)}
    {key : String} {c : Conversion Fault} (member : (key, c) ∈ fieldWriters options fields) :
    FixesAbsent c := by
  rw [fieldWriters_eq] at member
  obtain ⟨field, -, rfl⟩ := Entries.mem_mapValues.mp member
  exact fun fresh r done => writer_fixesAbsent options field fresh r (located_eq_ok.mp done)

theorem mem_fieldWriters {options : WriteOptions} {fields : List (String × Schema)} {key : String}
    {field : Schema} (member : (key, field) ∈ fields) :
    (key, fun fresh v => located (.key key) (writer options field fresh v)) ∈
      fieldWriters options fields := by
  rw [fieldWriters_eq]
  exact Entries.mem_mapValues.mpr ⟨field, member, rfl⟩

theorem mem_fieldReaders {fields : List (String × Schema)} {key : String} {field : Schema}
    (member : (key, field) ∈ fields) :
    (key, readProperty key field.isOption (reader field)) ∈ fieldReaders fields := by
  rw [fieldReaders_eq]
  exact Entries.mem_mapValues.mpr ⟨field, member, rfl⟩

end WireSchema.Schema
