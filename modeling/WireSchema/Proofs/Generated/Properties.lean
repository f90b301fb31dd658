import WireSchema.Proofs.Generated.Tracking

/-!
Objects in generated code. Fields under which nothing is converted are left out of it, so what stands
in their places is what the interpreter hands back.
-/

set_option autoImplicit false

namespace WireSchema.Generated

open WireSchema.Convert
open WireSchema.Schema (MeetsUndeclared writer_spares)
open WireSchema.Update (property)
open WireSchema.Value (present)

variable {options : WriteOptions}

def locatedParts (parts : List (String × Conversion Fault)) : List (String × Conversion Fault) :=
  Entries.mapValues (fun key c fresh v => located (.key key) (c fresh v)) parts

def copyProperties (fields : List (String × Conversion Fault)) : Conversion Fault :=
  fun fresh v => do
    let (_, entries) ← v.asObject
    let entries ← Update.copiedProperties (placedFields fresh fields) entries
    return .object fresh entries

structure Covers (options : WriteOptions) (fields : List (String × Schema))
    (parts : List (String × Conversion Fault)) : Prop where
  distinct : Entries.Distinct parts
  tracked : ∀ key c, (key, c) ∈ parts → ∃ field, (key, field) ∈ fields ∧ Tracks options field c
  idle : ∀ key field, (key, field) ∈ fields → field.idle options = true →
    Entries.get? key parts = none
  busy : ∀ key field, (key, field) ∈ fields → field.idle options = false →
    ∃ c, Entries.get? key parts = some c ∧ Tracks options field c

theorem mem_locatedParts {parts : List (String × Conversion Fault)} {key : String}
    {c : Conversion Fault} (member : (key, c) ∈ locatedParts parts) :
    ∃ raw, (key, raw) ∈ parts ∧ c = fun fresh v => located (.key key) (raw fresh v) := by
  obtain ⟨raw, there, rfl⟩ := Entries.mem_mapValues.mp member
  exact ⟨raw, there, rfl⟩

private theorem object_content_iff (differs : String → Prop) {o o' : Origin}
    {entries results results' es es' : List (String × Value)}
    (distinct : Entries.Distinct entries) (shown : present es = present (placed results entries))
    (shown' : present es' = present (placed results' entries))
    (each : ∀ key value, (key, value) ∈ entries →
      (((Entries.get? key results').getD value).content =
        ((Entries.get? key results).getD value).content ↔ ¬differs key)) :
    (Value.object o' es').content = (Value.object o es).content ↔
      ∀ key ∈ Entries.names entries, ¬differs key := by
  rw [Value.content_object, Value.content_object, Value.contentEntries_of_present_eq shown,
    Value.contentEntries_of_present_eq shown', Value.object.injEq, placed, placed,
    Value.contentEntries_mapValues distinct]
  simp only [true_and]
  constructor
  · intro alike key member
    obtain ⟨value, found⟩ := Entries.exists_get?_of_mem_names member
    have there := Entries.mem_of_get? found
    exact (each key value there).mp (alike key value there)
  · intro none key value member
    exact (each key value member).mpr (none key (Entries.mem_names_of_mem member))

private theorem recast_object_iff {fields : List (String × Schema)} {origin : Origin}
    {entries : List (String × Value)} :
    Recast options (.object fields) (.object origin entries) ↔
      ∃ key ∈ Entries.names entries, ∃ field, (key, field) ∈ fields ∧
        Recast options field (property key entries) := by
  constructor
  · intro recast
    cases recast with
    | @object _ _ _ key field member recast =>
      refine ⟨key, ?_, field, member, recast⟩
      by_contra missing
      rw [property, Entries.get?_eq_none missing] at recast
      exact not_recast_absent recast
  · rintro ⟨key, -, field, member, recast⟩
    exact .object member recast

section Fields

variable {fields : List (String × Schema)} {parts : List (String × Conversion Fault)}
  {fresh origin : Origin} {entries : List (String × Value)} {w : Value}

private structure Answered (options : WriteOptions) (fields : List (String × Schema))
    (parts : List (String × Conversion Fault)) (fresh : Origin) (entries : List (String × Value))
    (results : List (String × Value)) : Prop where
  busy : ∀ key field c, (key, field) ∈ fields → Entries.get? key parts = some c →
    ∃ y y', Entries.get? key results = some y ∧ c (fresh.enter (.key key)) (property key entries) =
      .ok y' ∧ Answer options field (property key entries) y y'
  idle : ∀ key field, (key, field) ∈ fields → field.idle options = true →
    Entries.get? key results = some (property key entries)
  other : ∀ key, key ∉ Entries.names fields → Entries.get? key results = none

private theorem answered_fields (covers : Covers options fields parts)
    (distinct : Entries.Distinct fields)
    (proper : ∀ key field, (key, field) ∈ fields → field.Proper)
    (old : (Value.object origin entries).Predates fresh)
    (tidy : (Value.object origin entries).Proper)
    (declared : ¬MeetsUndeclared (.object fields) (.object origin entries))
    (done : Schema.writer options (.object fields) fresh (.object origin entries) = .ok w) :
    ∃ results o es, w = .object o es ∧ present es = present (placed results entries) ∧
      Answered options fields parts fresh entries results := by
  obtain ⟨_, _, results, shape, merged⟩ := Schema.writer_object_merged distinct old tidy done
  obtain ⟨rfl, rfl⟩ := Value.object.inj shape
  obtain ⟨o, es, rfl, shown⟩ := merged.shown
  refine ⟨results, o, es, rfl, shown, ?_, ?_, ?_⟩
  · intro key field c member found
    obtain ⟨y, there, written⟩ := merged.each key _ (Schema.mem_fieldWriters member)
    obtain ⟨field', member', part⟩ := covers.tracked key c (Entries.mem_of_get? found)
    obtain rfl : field = field' := Option.some.inj
      ((Entries.get?_of_mem distinct member).symm.trans (Entries.get?_of_mem distinct member'))
    obtain ⟨y', run, answer⟩ := part.answers (proper key field member) _ _ y
      ((old.property key).enter _) (tidy.property key) (fun met => declared (.object member met))
      (located_eq_ok.mp written)
    exact ⟨y, y', there, run, answer⟩
  · intro key field member idle
    obtain ⟨y, there, written⟩ := merged.each key _ (Schema.mem_fieldWriters member)
    have same := (writer_spares options (proper key field member) _ _ y
      ((old.property key).enter (.key key)) (tidy.property key)
      (fun met => declared (.object member met)) (located_eq_ok.mp written)).mpr (.idle idle)
    rw [there, same]
  · intro key missing
    apply Entries.get?_eq_none
    rwa [merged.names, Schema.fieldWriters_eq, Entries.names_mapValues]

private structure Gathered (parts : List (String × Conversion Fault)) (fresh : Origin)
    (entries results : List (String × Value)) : Prop where
  names : Entries.names results = Entries.names parts
  each : ∀ key c, Entries.get? key parts = some c → ∃ y, Entries.get? key results = some y ∧
    c (fresh.enter (.key key)) (property key entries) = .ok y

private theorem fields_content {results results' : List (String × Value)} {o o' : Origin}
    {es es' : List (String × Value)} (covers : Covers options fields parts)
    (distinct : Entries.Distinct fields) (tidy : (Value.object origin entries).Proper)
    (answered : Answered options fields parts fresh entries results)
    (gathered : Gathered parts fresh entries results')
    (shown : present es = present (placed results entries))
    (shown' : present es' = present (placed results' entries)) :
    (Value.object o' es').content = (Value.object o es).content ↔
      ¬Recast options (.object fields) (.object origin entries) := by
  rw [recast_object_iff, object_content_iff (fun key =>
    ∃ field, (key, field) ∈ fields ∧ Recast options field (property key entries)) tidy.distinct
    shown shown' ?_]
  · simp
  intro key value member
  have found := Value.property_of_mem tidy.distinct member
  by_cases named : key ∈ Entries.names fields
  · obtain ⟨field, there⟩ := Entries.exists_get?_of_mem_names named
    have member' := Entries.mem_of_get? there
    have unique : (∃ field, (key, field) ∈ fields ∧ Recast options field (property key entries)) ↔
        Recast options field (property key entries) := by
      constructor
      · rintro ⟨other, member, recast⟩
        rwa [Option.some.inj (there.symm.trans (Entries.get?_of_mem distinct member))]
      · exact fun recast => ⟨field, member', recast⟩
    rw [unique]
    cases idle : field.idle options with
    | true =>
      have none : Entries.get? key results' = none := by
        rw [Entries.get?_eq_none_iff, gathered.names, ← Entries.get?_eq_none_iff]
        exact covers.idle key field member' idle
      rw [answered.idle key field member' idle, none, found]
      exact iff_of_true rfl (not_recast_of_idle idle)
    | false =>
      obtain ⟨c, code, -⟩ := covers.busy key field member' idle
      obtain ⟨y, y', one, run, answer⟩ := answered.busy key field c member' code
      obtain ⟨z, two, run'⟩ := gathered.each key c code
      obtain rfl := Except.ok.inj (run.symm.trans run')
      rw [one, two]
      exact answer.content
  · have none : Entries.get? key results' = none := by
      rw [Entries.get?_eq_none_iff, gathered.names]
      intro converted
      obtain ⟨c, code⟩ := Entries.exists_get?_of_mem_names converted
      obtain ⟨field, member', -⟩ := covers.tracked key c (Entries.mem_of_get? code)
      exact named (Entries.mem_names_of_mem member')
    rw [answered.other key named, none]
    refine iff_of_true rfl ?_
    rintro ⟨field, member', -⟩
    exact named (Entries.mem_names_of_mem member')

theorem tracks_sparing (covers : Entries.Distinct fields → Covers options fields parts)
    (busy : (Schema.object fields).idle options = false) (sparing : Sparing options (.object fields)) :
    Tracks options (.object fields) (convertProperties (locatedParts parts)) where
  discerning := convertProperties_discerning _
  fixes := by
    intro fresh r done
    simp [convertProperties, Value.asObject, Value.mistyped] at done
  answers := by
    rintro (_ | _ | _ | _ | ⟨distinct, proper⟩) fresh v w old tidy declared done
    have covers := covers distinct
    obtain ⟨origin, entries, -, rfl, -⟩ := Schema.writer_object_merged distinct old tidy done
    obtain ⟨results, o, es, rfl, shown, answered⟩ :=
      answered_fields covers distinct proper old tidy declared done
    have unique : Entries.Distinct (locatedParts parts) := covers.distinct.mapValues _
    obtain ⟨w', run⟩ := exists_convertProperties_iff.mpr fun key c member => by
      obtain ⟨raw, there, rfl⟩ := mem_locatedParts member
      obtain ⟨field, member', -⟩ := covers.tracked key raw there
      obtain ⟨_, y', -, run, -⟩ := answered.busy key field raw member'
        (Entries.get?_of_mem covers.distinct there)
      exact ⟨y', located_eq_ok.mpr run⟩
    obtain ⟨_, _, results', shape, merged⟩ := convertProperties_merged unique
      (fun key c member => by
        obtain ⟨raw, there, rfl⟩ := mem_locatedParts member
        obtain ⟨field, -, part⟩ := covers.tracked key raw there
        intro fresh v old r done same
        exact part.discerning fresh v old r (located_eq_ok.mp done) same)
      (fun key c member => by
        obtain ⟨raw, there, rfl⟩ := mem_locatedParts member
        obtain ⟨field, -, part⟩ := covers.tracked key raw there
        exact fun fresh r done => part.fixes fresh r (located_eq_ok.mp done)) old tidy run
    obtain ⟨rfl, rfl⟩ := Value.object.inj shape
    have gathered : Gathered parts fresh entries results' := by
      refine ⟨by rw [merged.names, locatedParts, Entries.names_mapValues], fun key c code => ?_⟩
      obtain ⟨y, there, made⟩ := merged.each key _
        (Entries.mem_mapValues.mpr ⟨c, Entries.mem_of_get? code, rfl⟩)
      exact ⟨y, there, located_eq_ok.mp made⟩
    refine ⟨w', run, ?_, ?_⟩
    · rw [merged.unchanged, Schema.handedBack_object]
      have never : ¬∀ key field, (key, field) ∈ fields → field.idle options = true := by
        intro idle
        rw [Schema.idle, Schema.idleFields_iff.mpr idle] at busy
        simp at busy
      simp only [never, false_or, sparing, true_and]
      constructor
      · intro same key field member
        cases idle : field.idle options with
        | true => exact .idle idle
        | false =>
          obtain ⟨c, code, -⟩ := covers.busy key field member idle
          obtain ⟨y, y', -, run, answer⟩ := answered.busy key field c member code
          obtain ⟨z, two, run'⟩ := gathered.each key c code
          obtain rfl := Except.ok.inj (run.symm.trans run')
          exact answer.back.mp (same key y' two)
      · intro back key z found
        have converted : key ∈ Entries.names parts := by
          rw [← gathered.names]
          exact Entries.mem_names_of_get? found
        obtain ⟨c, code⟩ := Entries.exists_get?_of_mem_names converted
        obtain ⟨field, member, -⟩ := covers.tracked key c (Entries.mem_of_get? code)
        obtain ⟨y, y', -, run, answer⟩ := answered.busy key field c member code
        obtain ⟨z', two, run'⟩ := gathered.each key c code
        obtain rfl := Option.some.inj (found.symm.trans two)
        obtain rfl := Except.ok.inj (run.symm.trans run')
        exact answer.back.mpr (back key field member)
    · obtain ⟨o', es', rfl, shown'⟩ := merged.shown
      exact fields_content covers distinct tidy answered gathered shown shown'

theorem copyProperties_eq_ok_iff {fields : List (String × Conversion Fault)}
    (distinct : Entries.Distinct fields) {v r : Value} :
    copyProperties fields fresh v = .ok r ↔
      ∃ origin entries results, v = .object origin entries ∧
        Update.answers entries (placedFields fresh fields) = .ok results ∧
        r = .object fresh (Update.setAll results entries) := by
  have unique : Entries.Distinct (placedFields fresh fields) := by
    rwa [Entries.Distinct, names_placedFields]
  simp only [copyProperties, bind_eq_ok, pure_eq_ok, Prod.exists, asObject_eq_ok,
    Update.copiedProperties_eq unique fun _ _ => rfl, map_eq_ok]
  constructor
  · rintro ⟨origin, entries, rfl, _, ⟨results, done, rfl⟩, rfl⟩
    exact ⟨origin, entries, results, rfl, done, rfl⟩
  · rintro ⟨origin, entries, results, rfl, done, rfl⟩
    exact ⟨origin, entries, rfl, _, ⟨results, done, rfl⟩, rfl⟩

theorem tracks_copying (covers : Entries.Distinct fields → Covers options fields parts)
    (busy : (Schema.object fields).idle options = false)
    (copying : ¬Sparing options (.object fields)) :
    Tracks options (.object fields) (copyProperties (locatedParts parts)) where
  discerning := by
    intro fresh v old r done same
    simp only [copyProperties, bind_eq_ok, pure_eq_ok] at done
    obtain ⟨_, -, es, -, rfl⟩ := done
    exact keeps_of_object_shape old (Or.inr ⟨es, rfl⟩) same
  fixes := by
    intro fresh r done
    simp [copyProperties, Value.asObject, Value.mistyped] at done
  answers := by
    rintro (_ | _ | _ | _ | ⟨distinct, proper⟩) fresh v w old tidy declared done
    have covers := covers distinct
    obtain ⟨origin, entries, -, rfl, -⟩ := Schema.writer_object_merged distinct old tidy done
    obtain ⟨results, o, es, rfl, shown, answered⟩ :=
      answered_fields covers distinct proper old tidy declared done
    have unique : Entries.Distinct (locatedParts parts) := covers.distinct.mapValues _
    obtain ⟨results', run⟩ : ∃ results', Update.answers entries
        (placedFields fresh (locatedParts parts)) = .ok results' := by
      refine Update.exists_answers fun key f member => ?_
      obtain ⟨c, placed, rfl⟩ := mem_placedFields.mp member
      obtain ⟨raw, there, rfl⟩ := mem_locatedParts placed
      obtain ⟨field, member', -⟩ := covers.tracked key raw there
      obtain ⟨_, y', -, run, -⟩ := answered.busy key field raw member'
        (Entries.get?_of_mem covers.distinct there)
      exact ⟨y', located_eq_ok.mpr run⟩
    have names : Entries.names results' = Entries.names parts := by
      rw [Update.names_answers run, names_placedFields, locatedParts, Entries.names_mapValues]
    have distinct' : Entries.Distinct results' := by
      rw [Entries.Distinct, names]
      exact covers.distinct
    have gathered : Gathered parts fresh entries results' := by
      refine ⟨names, fun key c code => ?_⟩
      obtain ⟨y, there, made⟩ := Update.exists_mem_answers run (mem_placedFields.mpr
        ⟨_, Entries.mem_mapValues.mpr ⟨c, Entries.mem_of_get? code, rfl⟩, rfl⟩)
      exact ⟨y, Entries.get?_of_mem distinct' there, located_eq_ok.mp made⟩
    have missing : ∀ key y, (key, y) ∈ results' → key ∉ Entries.names entries → y = .absent := by
      intro key y member outside
      obtain ⟨f, asked, made⟩ := Update.mem_answers run member
      obtain ⟨c, placed, rfl⟩ := mem_placedFields.mp asked
      obtain ⟨raw, there, rfl⟩ := mem_locatedParts placed
      obtain ⟨field, -, part⟩ := covers.tracked key raw there
      rw [property, Entries.get?_eq_none outside] at made
      exact part.fixes _ y (located_eq_ok.mp made)
    have shown' : present (Update.setAll results' entries) = present (placed results' entries) := by
      rw [Update.present_setAll tidy.distinct distinct', present_revised_of_missing missing]
    refine ⟨_, (copyProperties_eq_ok_iff unique).mpr ⟨origin, entries, results', rfl, run, rfl⟩,
      ?_, ?_⟩
    · refine iff_of_false (fun same => old.object_origin_ne (Value.object.inj same).1) fun back => ?_
      rcases Schema.handedBack_object.mp back with idle | ⟨sparing, -⟩
      · rw [Schema.idle, Schema.idleFields_iff.mpr idle] at busy
        simp at busy
      · exact copying sparing
    · exact fields_content covers distinct tidy answered gathered shown shown'

end Fields

end WireSchema.Generated
