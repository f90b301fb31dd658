import WireSchema.Proofs.Convert.Steady

/-!
An entry that holds nothing against no entry at all. No engine can tell them apart, save that the
checking one takes the key of such an entry for a property that its variant does not have. The fault
itself shows where that happens, since no fault names a key that is not there.
-/

set_option autoImplicit false

namespace WireSchema

open WireSchema.Convert
open WireSchema.Update (Payload property kindKey valueKey discriminant)
open WireSchema.Value (present)

variable {fresh origin : Origin} {v : Value} {fault : Fault}

namespace Value

theorem Proper.part {v : Value} (proper : v.Proper) (step : Step) : (v.part step).Proper := by
  rcases v.part_cases step with gone | ⟨origin, items, rfl, member⟩ | ⟨origin, es, key, rfl, member⟩
  · rw [gone]
    exact .scalar rfl
  · exact proper.items _ member
  · exact proper.entries key _ member

theorem Proper.walk {v : Value} (proper : v.Proper) (p : Path) : (v.walk p).Proper := by
  induction p generalizing v with
  | nil => exact proper
  | cons step rest ih => exact ih (proper.part step)

theorem part_stripped {v : Value} (proper : v.Proper) (step : Step) :
    v.stripped.part step = (v.part step).stripped := by
  cases v with
  | object origin entries =>
    rw [stripped_object]
    cases step with
    | key name => exact property_stripped proper.distinct name
    | index i => rfl
  | array origin items =>
    rw [stripped_array]
    cases step with
    | key name => rfl
    | index i =>
      cases found : items[i]? with
      | none => simp [Value.part, found, stripped]
      | some x => simp [Value.part, found]
  | _ => cases step <;> rfl

theorem walk_stripped {v : Value} (proper : v.Proper) (p : Path) :
    v.stripped.walk p = (v.walk p).stripped := by
  induction p generalizing v with
  | nil => rfl
  | cons step rest ih => rw [walk, part_stripped proper, ih (proper.part step), walk]

/-- A fault that is about an unexpected key points at an object that has it. -/
def NamesKey (v : Value) (fault : Fault) : Prop :=
  ∀ kind key, fault.cause = .unexpectedProperty kind key →
    ∃ origin entries, v.walk fault.path = .object origin entries ∧ key ∈ Entries.names entries

theorem NamesKey.inside {step : Step} (names : (v.part step).NamesKey fault) :
    v.NamesKey (fault.inside step) :=
  names

theorem namesKey_of_ne (other : ∀ kind key, fault.cause ≠ .unexpectedProperty kind key) :
    v.NamesKey fault :=
  fun kind key same => absurd same (other kind key)

theorem namesKey_of_error {α : Type} {cause : Cause}
    (other : ∀ kind key, cause ≠ .unexpectedProperty kind key)
    (failed : (.error (.of cause) : Except Fault α) = .error fault) : v.NamesKey fault :=
  namesKey_of_ne (Except.error.inj failed ▸ other)

theorem namesKey_of_unfit (unfit : Leaf.Unfit fault) : v.NamesKey fault :=
  namesKey_of_ne fun kind key => by cases unfit <;> simp [Fault.of]

theorem NamesKey.not_blamesAbsent (proper : v.Proper) (names : v.stripped.NamesKey fault) :
    ¬v.BlamesAbsent fault := by
  rintro ⟨kind, key, origin, entries, cause, place, member⟩
  obtain ⟨o, es, found, named⟩ := names kind key cause
  have distinct : Entries.Distinct entries := by
    have inner : (v.walk fault.path).Proper := proper.walk fault.path
    rw [place] at inner
    exact inner.distinct
  rw [walk_stripped proper, place, stripped_object] at found
  obtain ⟨-, rfl⟩ := Value.object.inj found
  rw [Entries.names_mapValues] at named
  refine (mem_names_present distinct).mp named ?_
  exact property_of_mem distinct member

end Value

def Convert.NamesKeys (c : Conversion Fault) : Prop :=
  ∀ fresh v fault, c fresh v = .error fault → v.NamesKey fault

open WireSchema.Convert (NamesKeys)

namespace Schema

theorem namesKey_located {step : Step} {c : Conversion Fault} (names : NamesKeys c)
    (failed : located step (c fresh (v.part step)) = .error fault) : v.NamesKey fault := by
  obtain ⟨inner, broken, rfl⟩ := located_eq_error.mp failed
  exact (names _ _ inner broken).inside

private theorem namesKey_payload {c : Conversion Fault} (names : NamesKeys c)
    (failed : located (.key valueKey) (c fresh (Update.payload v)) = .error fault) :
    v.NamesKey fault :=
  namesKey_located names failed

private theorem namesKey_asArray (failed : v.asArray = .error fault) : v.NamesKey fault := by
  cases v with
  | array => simp [Value.asArray] at failed
  | _ => exact Value.namesKey_of_unfit (Leaf.unfit_of_mistyped failed)

private theorem namesKey_asObject (failed : v.asObject = .error fault) : v.NamesKey fault := by
  cases v with
  | object => simp [Value.asObject] at failed
  | _ => exact Value.namesKey_of_unfit (Leaf.unfit_of_mistyped failed)

theorem convertEach_namesKeys {item : Conversion Fault} (names : NamesKeys item) :
    NamesKeys (convertEach item) := by
  intro fresh v fault failed
  rcases bind_eq_error.mp failed with early | ⟨⟨origin, values⟩, shape, late⟩
  · exact namesKey_asArray early
  · obtain rfl := asArray_eq_ok.mp shape
    obtain ⟨j, x, found, broken⟩ := Update.items_eq_error late
    rw [← Value.part_index found origin] at broken
    exact namesKey_located names broken

theorem convertPositions_namesKeys {elems : List (Conversion Fault)}
    (names : ∀ elem ∈ elems, NamesKeys elem) : NamesKeys (convertPositions elems) := by
  intro fresh v fault failed
  rcases bind_eq_error.mp failed with early | ⟨⟨origin, values⟩, shape, late⟩
  · exact namesKey_asArray early
  · obtain rfl := asArray_eq_ok.mp shape
    dsimp only at late
    split at late
    · obtain ⟨j, x, found, broken⟩ := Update.items_eq_error late
      split at broken
      · next elem here =>
        rw [← Value.part_index found origin] at broken
        exact namesKey_located (names elem (List.mem_of_getElem? here)) broken
      · simp at broken
    · exact Value.namesKey_of_error (by simp) late

theorem convertProperties_namesKeys {fields : List (String × Conversion Fault)}
    (names : ∀ key c, (key, c) ∈ fields → ∀ (fresh : Origin) (v : Value) (fault : Fault),
      c fresh (v.part (.key key)) = .error fault → v.NamesKey fault) :
    NamesKeys (convertProperties fields) := by
  intro fresh v fault failed
  rcases bind_eq_error.mp failed with early | ⟨⟨origin, entries⟩, shape, late⟩
  · exact namesKey_asObject early
  · obtain rfl := asObject_eq_ok.mp shape
    obtain ⟨key, f, member, broken⟩ := Update.properties_eq_error late
    obtain ⟨c, declared, rfl⟩ := mem_placedFields.mp member
    exact names key c declared _ (.object origin entries) fault broken

theorem readProperty_namesKeys {key : String} {optional : Bool} {field : Conversion Fault}
    (names : NamesKeys field)
    (failed : readProperty key optional field fresh (v.part (.key key)) = .error fault) :
    v.NamesKey fault := by
  unfold readProperty at failed
  split at failed
  · exact Value.namesKey_of_error (by simp) failed
  · exact namesKey_located names failed

private theorem namesKey_discriminant (failed : discriminant v = .error fault) :
    v.NamesKey fault := by
  cases v with
  | object origin entries =>
    rw [discriminant_object] at failed
    split at failed
    · exact Value.namesKey_of_error (by simp) failed
    · simp at failed
    · rw [← Except.error.inj failed]
      exact Value.namesKey_of_ne (by simp [Fault.of, Fault.inside])
  | _ => exact Value.namesKey_of_unfit (Leaf.unfit_of_mistyped failed)

private theorem namesKey_expectKeys {kind : String} {expected : List String}
    {entries : List (String × Value)} (failed : expectKeys kind expected entries = .error fault) :
    (Value.object origin entries).NamesKey fault := by
  unfold expectKeys unexpectedKey? at failed
  split at failed
  · next key stray =>
    rintro _ _ cause
    rw [← Except.error.inj failed] at cause ⊢
    obtain ⟨-, rfl⟩ := Cause.unexpectedProperty.inj cause
    exact ⟨origin, entries, rfl, List.mem_of_find?_eq_some stray⟩
  · simp at failed

theorem readVariant_namesKeys {payloads : List (String × Payload (Conversion Fault))}
    (spread : ∀ kind fields, Entries.get? kind payloads = some (.spread fields) →
      NamesKeys (convertProperties fields))
    (held : ∀ kind c, Entries.get? kind payloads = some (.held c) → NamesKeys c) :
    NamesKeys (readVariant payloads) := by
  intro fresh v fault failed
  rcases bind_eq_error.mp failed with early | ⟨⟨origin, entries⟩, shape, late⟩
  · exact namesKey_asObject early
  · obtain rfl := asObject_eq_ok.mp shape
    rcases bind_eq_error.mp late with unnamed | ⟨kind, -, later⟩
    · exact namesKey_discriminant unnamed
    · split at later
      · exact Value.namesKey_of_error (by simp) later
      · rcases bind_eq_error.mp later with stray | ⟨_, -, done⟩
        · exact namesKey_expectKeys stray
        · simp at done
      · next fields declared => exact spread kind fields declared _ _ fault later
      · next c declared =>
        rcases bind_eq_error.mp later with stray | ⟨_, -, last⟩
        · exact namesKey_expectKeys stray
        · split at last
          · exact Value.namesKey_of_error (by simp) last
          · exact namesKey_payload (held kind c declared) (Update.mappedPayload_eq_error last)

theorem reader_namesKeys (schema : Schema) : NamesKeys (reader schema) := by
  have declared : ∀ fields : List (String × Schema),
      (∀ name field, (name, field) ∈ fields → NamesKeys (reader field)) →
      NamesKeys (convertProperties (fieldReaders fields)) := by
    intro fields names
    refine convertProperties_namesKeys fun key c member fresh v fault failed => ?_
    rw [fieldReaders_eq] at member
    obtain ⟨field, there, rfl⟩ := Entries.mem_mapValues.mp member
    exact readProperty_namesKeys (names key field there) failed
  induction schema using byLayout with
  | leaf l => exact fun fresh v fault failed => Value.namesKey_of_unfit (Leaf.unfit_of_read failed)
  | option inner ih =>
    intro fresh v fault failed
    simp only [reader] at failed
    split at failed
    · simp at failed
    · exact ih fresh v fault failed
  | array item ih => exact convertEach_namesKeys ih
  | tuple elems ih =>
    rw [reader, elemReaders_eq_map]
    refine convertPositions_namesKeys fun c member => ?_
    obtain ⟨elem, there, rfl⟩ := List.mem_map.mp member
    exact ih elem there
  | object fields ih => exact declared fields ih
  | choice variants held spread =>
    refine readVariant_namesKeys (fun kind converted found => ?_) fun kind c found => ?_
    · rw [variantReaders_eq] at found
      obtain ⟨fields, member, rfl⟩ := exists_spread found
      exact declared fields (spread kind fields member)
    · rw [variantReaders_eq] at found
      obtain ⟨payload, member, rfl⟩ := exists_held found
      exact held kind payload member

/-- Two runs that cannot be told apart: both succeed, with results that are equal once the entries
that hold nothing are taken out, or both fail in the same way. -/
inductive Indistinct : Except Fault Value → Except Fault Value → Prop where
  | ok {r s : Value} : r.stripped.alike s.stripped = true → Indistinct (.ok r) (.ok s)
  | failed (fault : Fault) : Indistinct (.error fault) (.error fault)

/-- Entries that hold nothing make no difference to an engine, unless it is the checking one and
fails with the key of such an entry. -/
theorem run_stripped_iff (engine : Engine) (schema : Schema) {v : Value} (proper : v.Proper) :
    Indistinct (engine.run schema v) (engine.run schema v.stripped) ↔
      ¬(engine = .read ∧ ∃ fault, engine.run schema v = .error fault ∧ v.BlamesAbsent fault) := by
  constructor
  · rintro indistinct ⟨rfl, fault, failed, blames⟩
    rw [failed] at indistinct
    cases outcome : Engine.read.run schema v.stripped with
    | ok s =>
      rw [outcome] at indistinct
      cases indistinct
    | error other =>
      rw [outcome] at indistinct
      cases indistinct with
      | failed =>
        have names := reader_namesKeys schema _ v.stripped fault outcome
        exact names.not_blamesAbsent proper blames
  · intro fair
    have steady := engine.steady schema (Value.resembles_stripped proper)
      v.predates_freshOrigin v.stripped.predates_freshOrigin
    rw [← Engine.run_eq, ← Engine.run_eq] at steady
    generalize engine.run schema v = x at steady fair ⊢
    generalize engine.run schema v.stripped = y at steady ⊢
    cases steady with
    | ok paired => exact .ok paired.alike.alike_stripped
    | failed fault => exact .failed fault
    | excused excuse =>
      cases engine with
      | read => exact absurd ⟨rfl, _, rfl, excuse⟩ fair
      | trust | write => exact excuse.elim

theorem run_stripped_iff_optional :
    let schema : Schema := .object [("a", .option (.leaf .u64)), ("n", .leaf .bigint)]
    let v : Value := .object (.root 0) [("a", .absent), ("n", .string "7")]
    v.Proper ∧ v.stripped = .object (.root 0) [("n", .string "7")] ∧
      Indistinct (Engine.read.run schema v) (Engine.read.run schema v.stripped) := by
  intro schema v
  have proper : v.Proper := by decide +zetaReduce
  have done : Engine.read.run schema v = .ok (.object (.root 1)
    [("a", .absent), ("n", .bigint ((Origin.root 1).enter (.key "n")) 7)]) := rfl
  refine ⟨proper, rfl, (run_stripped_iff .read schema proper).mpr ?_⟩
  rintro ⟨-, fault, failed, -⟩
  rw [done] at failed
  cases failed

/-- A variant without a payload refuses a key that holds nothing, and accepts the same object without
that key. -/
theorem run_refuses_absent :
    let schema : Schema := .choice [("b", none)]
    let v : Value := .object (.root 0) [("kind", .string "b"), ("x", .absent)]
    Engine.read.run schema v = .error (.of (.unexpectedProperty "b" "x")) ∧
      Engine.read.run schema v.stripped = .ok v.stripped ∧
      ¬Indistinct (Engine.read.run schema v) (Engine.read.run schema v.stripped) := by
  intro schema v
  have failed : Engine.read.run schema v = .error (.of (.unexpectedProperty "b" "x")) := rfl
  have done : Engine.read.run schema v.stripped = .ok v.stripped := rfl
  refine ⟨failed, done, fun indistinct => ?_⟩
  rw [failed, done] at indistinct
  cases indistinct

end Schema

end WireSchema
