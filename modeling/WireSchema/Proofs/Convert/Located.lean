import WireSchema.Proofs.Convert.Faults
import WireSchema.Proofs.Convert.Layouts

/-!
Faults point at what is to blame. A fault is raised by a value without a place and is given one step
by every container on its way out, so its path leads back, schema and value side by side, to a place
where the same engine fails with the cause alone. Only a discriminant that is not a string has no
schema of its own at the end of the path.
-/

set_option autoImplicit false

namespace WireSchema

open WireSchema.Convert
open WireSchema.Update (property kindKey valueKey discriminant)

/-- An error as it is passed on: a cause, or an error with a location around it. -/
inductive Layered where
  | bare (cause : Cause)
  | placed (path : Path) (inner : Layered)

namespace Layered

/-- The error seen from the container around it; the step goes into the location that is there. -/
def under (step : Step) : Layered → Layered
  | .placed path inner => .placed (step :: path) inner
  | .bare cause => .placed [step] (.bare cause)

def root : Layered → Layered
  | .placed _ inner => inner.root
  | .bare cause => .bare cause

def layers : Layered → Nat
  | .placed _ inner => inner.layers + 1
  | .bare _ => 0

theorem root_under (step : Step) (error : Layered) : (error.under step).root = error.root := by
  cases error <;> rfl

theorem layers_under (step : Step) (error : Layered) :
    (error.under step).layers = max 1 error.layers := by
  cases error with
  | bare cause => rfl
  | placed path inner => simp only [under, layers]; omega

end Layered

/-- A fault as the containers around it have passed it on, from the innermost one outwards. -/
def Fault.layered (fault : Fault) : Layered :=
  fault.path.foldr Layered.under (.bare fault.cause)

namespace Fault

variable {fault : Fault}

theorem layered_inside (step : Step) (fault : Fault) :
    (fault.inside step).layered = fault.layered.under step := rfl

theorem root_layered (fault : Fault) : fault.layered.root = .bare fault.cause := by
  obtain ⟨cause, path⟩ := fault
  induction path with
  | nil => rfl
  | cons step rest ih => exact (Layered.root_under step _).trans ih

theorem layers_layered (fault : Fault) : fault.layered.layers ≤ 1 := by
  obtain ⟨cause, path⟩ := fault
  induction path with
  | nil => exact Nat.zero_le 1
  | cons step rest ih =>
    have around := Layered.layers_under step (Fault.layered ⟨cause, rest⟩)
    rw [show (⟨cause, step :: rest⟩ : Fault) = Fault.inside step ⟨cause, rest⟩ from rfl,
      layered_inside, around]
    exact Nat.max_le.mpr ⟨Nat.le_refl 1, ih⟩

theorem eq_of_path_nil (bare : fault.path = []) : fault = .of fault.cause := by
  obtain ⟨cause, path⟩ := fault
  obtain rfl : path = [] := bare
  rfl

end Fault

section Containers

variable {fresh : Origin} {v : Value} {fault : Fault}

theorem Leaf.Unfit.path_eq (unfit : Leaf.Unfit fault) : fault.path = [] := by
  cases unfit <;> rfl

private theorem path_of_mistyped {α : Type} {expected : String}
    (failed : (v.mistyped expected : Except Fault α) = .error fault) : fault.path = [] :=
  (Leaf.unfit_of_mistyped failed).path_eq

private theorem path_of_raised {α : Type} {cause : Cause}
    (failed : (.error (.of cause) : Except Fault α) = .error fault) : fault.path = [] :=
  Except.error.inj failed ▸ rfl

private theorem path_of_asArray (failed : v.asArray = .error fault) : fault.path = [] := by
  cases v with
  | array => simp [Value.asArray] at failed
  | _ => exact path_of_mistyped failed

private theorem path_of_asObject (failed : v.asObject = .error fault) : fault.path = [] := by
  cases v with
  | object => simp [Value.asObject] at failed
  | _ => exact path_of_mistyped failed

theorem Leaf.path_of_write {options : WriteOptions} {l : Leaf}
    (failed : l.write options v = .error fault) : fault.path = [] := by
  have bigint : ∀ {v : Value}, Leaf.writeBigint v = .error fault → fault.path = [] := by
    intro v failed
    cases v with
    | bigint => simp [Leaf.writeBigint, Value.asBigint] at failed
    | _ => exact path_of_mistyped failed
  cases l with
  | bool | string | int | u32 | i32 | json => simp [Leaf.write] at failed
  | bigint | u64 | i64 => exact bigint failed
  | number =>
    rw [Leaf.write] at failed
    split at failed
    · simp at failed
    · cases v with
      | number => simp [Leaf.writeNumber] at failed
      | _ => exact path_of_mistyped failed
  | date =>
    rw [Leaf.write] at failed
    split at failed
    · simp at failed
    · cases v with
      | date => simp [Leaf.writeDate, Value.asDate] at failed
      | _ => exact path_of_mistyped failed
  | temporal kind =>
    rw [Leaf.write] at failed
    split at failed
    · simp at failed
    · rcases bind_eq_error.mp failed with early | ⟨_, -, done⟩
      · cases v with
        | temporal t =>
          rw [Value.asTemporal] at early
          split at early
          · simp at early
          · exact path_of_mistyped early
        | _ => exact path_of_mistyped early
      · simp at done

theorem convertEach_eq_error {item : Conversion Fault}
    (failed : convertEach item fresh v = .error fault) :
    fault.path = [] ∨ ∃ origin values i x inner, v = .array origin values ∧
      values[i]? = some x ∧ item (fresh.enter (.index i)) x = .error inner ∧
      fault = inner.inside (.index i) := by
  rcases bind_eq_error.mp failed with early | ⟨⟨origin, values⟩, shape, late⟩
  · exact Or.inl (path_of_asArray early)
  · obtain ⟨i, x, found, broken⟩ := Update.items_eq_error late
    obtain ⟨inner, there, same⟩ := located_eq_error.mp broken
    exact Or.inr ⟨origin, values, i, x, inner, asArray_eq_ok.mp shape, found, there, same⟩

theorem convertPositions_eq_error {elems : List (Conversion Fault)}
    (failed : convertPositions elems fresh v = .error fault) :
    fault.path = [] ∨ ∃ origin values i x inner, ∃ c : Conversion Fault,
      v = .array origin values ∧ values[i]? = some x ∧ elems[i]? = some c ∧
      c (fresh.enter (.index i)) x = .error inner ∧ fault = inner.inside (.index i) := by
  rcases bind_eq_error.mp failed with early | ⟨⟨origin, values⟩, shape, late⟩
  · exact Or.inl (path_of_asArray early)
  · dsimp only at late
    split at late
    · obtain ⟨i, x, found, broken⟩ := Update.items_eq_error late
      cases here : elems[i]? with
      | none => simp [here] at broken
      | some c =>
        simp only [here] at broken
        obtain ⟨inner, there, same⟩ := located_eq_error.mp broken
        exact Or.inr
          ⟨origin, values, i, x, inner, c, asArray_eq_ok.mp shape, found, here, there, same⟩
    · exact Or.inl (path_of_raised late)

theorem convertProperties_eq_error {fields : List (String × Conversion Fault)}
    (failed : convertProperties fields fresh v = .error fault) :
    fault.path = [] ∨ ∃ origin entries key c, v = .object origin entries ∧ (key, c) ∈ fields ∧
      c (fresh.enter (.key key)) (property key entries) = .error fault := by
  rcases bind_eq_error.mp failed with early | ⟨⟨origin, entries⟩, shape, late⟩
  · exact Or.inl (path_of_asObject early)
  · obtain ⟨key, f, member, broken⟩ := Update.properties_eq_error late
    obtain ⟨c, declared, rfl⟩ := mem_placedFields.mp member
    exact Or.inr ⟨origin, entries, key, c, asObject_eq_ok.mp shape, declared, broken⟩

end Containers

namespace Schema

variable {engine : Engine} {fresh : Origin} {v : Value} {fault : Fault}

namespace Engine

theorem field_eq_error {key : String} {field : Schema}
    (failed : engine.field key field fresh v = .error fault) :
    fault.path = [] ∨ ∃ inner, engine.convert field fresh v = .error inner ∧
      fault = inner.inside (.key key) := by
  cases engine with
  | trust => simp [Engine.field] at failed
  | write options => exact Or.inr (located_eq_error.mp failed)
  | read =>
    rw [Engine.field, readProperty] at failed
    split at failed
    · exact Or.inl (path_of_raised failed)
    · exact Or.inr (located_eq_error.mp failed)

theorem convert_fields_eq_error {fields : List (String × Schema)}
    (failed : convertProperties (Entries.mapValues engine.field fields) fresh v = .error fault) :
    fault.path = [] ∨ ∃ origin entries key field inner, v = .object origin entries ∧
      (key, field) ∈ fields ∧
      engine.convert field (fresh.enter (.key key)) (property key entries) = .error inner ∧
      fault = inner.inside (.key key) := by
  rcases convertProperties_eq_error failed with
    bare | ⟨origin, entries, key, c, shape, member, broken⟩
  · exact Or.inl bare
  · obtain ⟨field, declared, rfl⟩ := Entries.mem_mapValues.mp member
    rcases field_eq_error broken with bare | ⟨inner, there, same⟩
    · exact Or.inl bare
    · exact Or.inr ⟨origin, entries, key, field, inner, shape, declared, there, same⟩

def PayloadFails (engine : Engine) (fresh origin : Origin) (entries : List (String × Value))
    (fault : Fault) (payload : Schema) : Prop :=
  (∃ fields, payload = .object fields ∧ convertProperties
    (Entries.mapValues engine.field fields) fresh (.object origin entries) = .error fault) ∨
  payload.isObject = false ∧ ∃ inner,
    engine.convert payload (fresh.enter (.key valueKey)) (property valueKey entries) =
      .error inner ∧ fault = inner.inside (.key valueKey)

private theorem path_of_expectKeys {kind : String} {expected : List String}
    {entries : List (String × Value)} (failed : expectKeys kind expected entries = .error fault) :
    fault.path = [] := by
  rw [expectKeys] at failed
  split at failed
  · exact path_of_raised failed
  · simp at failed

theorem read_choice_eq_error {variants : List (String × Option Schema)}
    (failed : readVariant (variantReaders variants) fresh v = .error fault) :
    fault.path = [] ∨ discriminant v = .error fault ∨
      ∃ origin entries kind payload, v = .object origin entries ∧
        property kindKey entries = .string kind ∧
        Entries.get? kind variants = some (some payload) ∧
        PayloadFails .read fresh origin entries fault payload := by
  rcases bind_eq_error.mp failed with early | ⟨⟨_, _⟩, -, late⟩
  · exact Or.inl (path_of_asObject early)
  rcases bind_eq_error.mp late with unnamed | ⟨kind, named, later⟩
  · exact Or.inr (Or.inl unnamed)
  obtain ⟨origin, entries, rfl, means⟩ := discriminant_eq_ok.mp named
  rw [variantReaders_eq, Entries.get?_mapValues] at later
  cases declared : Entries.get? kind variants with
  | none =>
    rw [declared] at later
    exact Or.inl (path_of_raised later)
  | some payload =>
    rw [declared] at later
    cases payload with
    | none =>
      rcases bind_eq_error.mp later with stray | ⟨_, -, done⟩
      · exact Or.inl (path_of_expectKeys stray)
      · simp at done
    | some payload =>
      have inside : fault.path = [] ∨ PayloadFails .read fresh origin entries fault payload := by
        cases object : payload.isObject with
        | true =>
          obtain ⟨fields, rfl⟩ := isObject_eq_true.mp object
          simp only [Option.map_some, payloadBy, fieldReaders_eq] at later
          exact Or.inr (Or.inl ⟨fields, rfl, later⟩)
        | false =>
          rw [Option.map_some, payloadBy_held _ _ object] at later
          rcases bind_eq_error.mp later with stray | ⟨_, -, last⟩
          · exact Or.inl (path_of_expectKeys stray)
          · split at last
            · exact Or.inl (path_of_raised last)
            · exact Or.inr (Or.inr
                ⟨object, located_eq_error.mp (Update.mappedPayload_eq_error last)⟩)
      exact inside.imp_right fun fails =>
        Or.inr ⟨origin, entries, kind, payload, rfl, means, declared, fails⟩

theorem write_choice_eq_error {options : WriteOptions} {variants : List (String × Option Schema)}
    (failed : writeVariant options (variantWriters options variants) fresh v = .error fault) :
    fault.path = [] ∨ discriminant v = .error fault ∨
      ∃ origin entries kind payload, v = .object origin entries ∧
        property kindKey entries = .string kind ∧
        Entries.get? kind variants = some (some payload) ∧
        PayloadFails (.write options) fresh origin entries fault payload := by
  rcases bind_eq_error.mp failed with unnamed | ⟨kind, named, later⟩
  · exact Or.inr (Or.inl unnamed)
  obtain ⟨origin, entries, rfl, means⟩ := discriminant_eq_ok.mp named
  rw [variantWriters_eq, Entries.get?_mapValues] at later
  cases declared : Entries.get? kind variants with
  | none =>
    rw [declared] at later
    dsimp only [Option.map_none] at later
    split at later
    · simp at later
    · exact Or.inl (path_of_raised later)
  | some payload =>
    rw [declared] at later
    cases payload with
    | none => simp [payloadBy] at later
    | some payload =>
      have inside : PayloadFails (.write options) fresh origin entries fault payload := by
        cases object : payload.isObject with
        | true =>
          obtain ⟨fields, rfl⟩ := isObject_eq_true.mp object
          simp only [Option.map_some, payloadBy, fieldWriters_eq] at later
          exact Or.inl ⟨fields, rfl, later⟩
        | false =>
          rw [Option.map_some, payloadBy_held _ _ object] at later
          exact Or.inr ⟨object, located_eq_error.mp (Update.mappedPayload_eq_error later)⟩
      exact Or.inr (Or.inr ⟨origin, entries, kind, payload, rfl, means, declared, inside⟩)

end Engine

/-- Where a fault comes from: the value itself, the value of an option, the part that a step leads
to, or a discriminant that is there and not a string. -/
inductive Fails (engine : Engine) : Schema → Value → Fault → Prop where
  | itself {schema : Schema} {v : Value} {cause : Cause} :
      engine.run schema v = .error (.of cause) → Fails engine schema v (.of cause)
  | option {inner : Schema} {v : Value} {fault : Fault} : v ≠ .absent →
      Fails engine inner v fault → Fails engine (.option inner) v fault
  | part {schema : Schema} {v : Value} {step : Step} {part : Schema} {y : Value} {fault : Fault} :
      Enters schema v step part y → Fails engine part y fault →
      Fails engine schema v (fault.inside step)
  | misnamed {variants : List (String × Option Schema)} {origin : Origin}
      {entries : List (String × Value)} : property kindKey entries ≠ .absent →
      (∀ kind, property kindKey entries ≠ .string kind) →
      Fails engine (.choice variants) (.object origin entries)
        ⟨.invalidType "string" (property kindKey entries).typeName, [.key kindKey]⟩

private theorem fails_itself {schema : Schema}
    (failed : engine.convert schema fresh v = .error fault) (bare : fault.path = []) :
    Fails engine schema v fault := by
  rw [Fault.eq_of_path_nil bare] at failed ⊢
  exact .itself ((engine.convert_eq_error_iff schema fresh v _).mp failed)

private theorem fails_discriminant {variants : List (String × Option Schema)}
    (failed : engine.convert (.choice variants) fresh v = .error fault)
    (unnamed : discriminant v = .error fault) : Fails engine (.choice variants) v fault := by
  cases v with
  | object origin entries =>
    rw [discriminant_object] at unnamed
    split at unnamed
    · exact fails_itself failed (path_of_raised unnamed)
    · simp at unnamed
    · next gone strange =>
      obtain rfl := (Except.error.inj unnamed).symm
      exact .misnamed gone strange
  | _ => exact fails_itself failed (path_of_mistyped unnamed)

private theorem fails_fields {schema : Schema} {fields : List (String × Schema)}
    (each : ∀ name field, (name, field) ∈ fields → ∀ fresh v fault,
      engine.convert field fresh v = .error fault → Fails engine field v fault)
    (enters : ∀ origin entries key field, v = .object origin entries → (key, field) ∈ fields →
      Enters schema v (.key key) field (property key entries))
    (whole : engine.convert schema fresh v = .error fault)
    (failed : convertProperties (Entries.mapValues engine.field fields) fresh v = .error fault) :
    Fails engine schema v fault := by
  rcases Engine.convert_fields_eq_error failed with
    bare | ⟨origin, entries, key, field, inner, shape, member, there, rfl⟩
  · exact fails_itself whole bare
  · exact .part (enters origin entries key field shape member) (each key field member _ _ _ there)

private theorem fails_choice {variants : List (String × Option Schema)}
    (held : ∀ kind payload, (kind, some payload) ∈ variants → ∀ fresh v fault,
      engine.convert payload fresh v = .error fault → Fails engine payload v fault)
    (spread : ∀ kind fields, (kind, some (.object fields)) ∈ variants →
      ∀ name field, (name, field) ∈ fields → ∀ fresh v fault,
        engine.convert field fresh v = .error fault → Fails engine field v fault)
    (whole : engine.convert (.choice variants) fresh v = .error fault)
    (failed : fault.path = [] ∨ discriminant v = .error fault ∨
      ∃ origin entries kind payload, v = .object origin entries ∧
        property kindKey entries = .string kind ∧
        Entries.get? kind variants = some (some payload) ∧
        Engine.PayloadFails engine fresh origin entries fault payload) :
    Fails engine (.choice variants) v fault := by
  rcases failed with bare | unnamed | ⟨origin, entries, kind, payload, rfl, named, declared, inside⟩
  · exact fails_itself whole bare
  · exact fails_discriminant whole unnamed
  · have member := Entries.mem_of_get? declared
    rcases inside with ⟨fields, rfl, broken⟩ | ⟨solid, inner, there, rfl⟩
    · refine fails_fields (spread kind fields member) (fun o es key field shape there => ?_) whole
        broken
      obtain ⟨rfl, rfl⟩ := Value.object.inj shape
      exact .spread named declared there
    · exact .part (.held named declared solid) (held kind payload member _ _ _ there)

private theorem fails_each {item : Schema}
    (each : ∀ fresh v fault, engine.convert item fresh v = .error fault → Fails engine item v fault)
    (whole : engine.convert (.array item) fresh v = .error fault)
    (failed : convertEach (engine.convert item) fresh v = .error fault) :
    Fails engine (.array item) v fault := by
  rcases convertEach_eq_error failed with
    bare | ⟨origin, values, i, x, inner, rfl, found, there, rfl⟩
  · exact fails_itself whole bare
  · exact .part (.item found) (each _ _ _ there)

private theorem fails_positions {elems : List Schema}
    (each : ∀ elem ∈ elems, ∀ fresh v fault,
      engine.convert elem fresh v = .error fault → Fails engine elem v fault)
    (whole : engine.convert (.tuple elems) fresh v = .error fault)
    (failed : convertPositions (elems.map engine.convert) fresh v = .error fault) :
    Fails engine (.tuple elems) v fault := by
  rcases convertPositions_eq_error failed with
    bare | ⟨origin, values, i, x, inner, c, rfl, found, here, there, rfl⟩
  · exact fails_itself whole bare
  · rw [List.getElem?_map, Option.map_eq_some_iff] at here
    obtain ⟨elem, declared, rfl⟩ := here
    exact .part (.elem declared found) (each elem (List.mem_of_getElem? declared) _ _ _ there)

private theorem fails_option {inner : Schema} {c : Conversion Fault}
    (each : ∀ fresh v fault, c fresh v = .error fault → Fails engine inner v fault)
    (failed : (if v.isAbsent then .ok .absent else c fresh v) = .error fault) :
    Fails engine (.option inner) v fault := by
  split at failed
  · simp at failed
  · next there =>
    exact .option (fun gone => there (Value.isAbsent_eq_true.mpr gone)) (each _ _ _ failed)

/-- Whatever fails does so in one of these ways. -/
theorem fails_of_error (engine : Engine) (schema : Schema) (fresh : Origin) (v : Value)
    (fault : Fault) (failed : engine.convert schema fresh v = .error fault) :
    Fails engine schema v fault := by
  induction schema using byLayout generalizing fresh v fault with
  | leaf l =>
    cases engine with
    | trust => simp [Engine.convert] at failed
    | read => exact fails_itself failed (Leaf.unfit_of_read failed).path_eq
    | write options => exact fails_itself failed (Leaf.path_of_write failed)
  | option inner ih =>
    cases engine with
    | trust => simp [Engine.convert] at failed
    | read => exact fails_option ih failed
    | write options => exact fails_option ih failed
  | array item ih =>
    cases engine with
    | trust => simp [Engine.convert] at failed
    | read => exact fails_each ih failed failed
    | write options => exact fails_each ih failed failed
  | tuple elems ih =>
    have whole := failed
    cases engine with
    | trust => simp [Engine.convert] at failed
    | read =>
      rw [Engine.convert, reader, elemReaders_eq_map] at failed
      exact fails_positions ih whole failed
    | write options =>
      rw [Engine.convert, writer, elemWriters_eq_map] at failed
      exact fails_positions ih whole failed
  | object fields ih =>
    have whole := failed
    have enters : ∀ origin entries key field, v = .object origin entries → (key, field) ∈ fields →
        Enters (.object fields) v (.key key) field (property key entries) := by
      rintro origin entries key field rfl member
      exact .field member
    cases engine with
    | trust => simp [Engine.convert] at failed
    | read =>
      rw [Engine.convert, reader, fieldReaders_eq] at failed
      exact fails_fields ih enters whole failed
    | write options =>
      rw [Engine.convert, writer, fieldWriters_eq] at failed
      exact fails_fields ih enters whole failed
  | choice variants held spread =>
    cases engine with
    | trust => simp [Engine.convert] at failed
    | read => exact fails_choice held spread failed (Engine.read_choice_eq_error failed)
    | write options => exact fails_choice held spread failed (Engine.write_choice_eq_error failed)

/-- A fault ends at a discriminant that is there and not a string: a choice is visited that has no
such name. -/
def Misnames (schema : Schema) (v : Value) (fault : Fault) : Prop :=
  ∃ front variants origin entries, fault.path = front ++ [.key kindKey] ∧
    Visits schema v front (.choice variants) (.object origin entries) ∧
    property kindKey entries ≠ .absent ∧ (∀ kind, property kindKey entries ≠ .string kind) ∧
    fault.cause = .invalidType "string" (property kindKey entries).typeName

/-- The path of a fault leads to where it was raised. -/
theorem Fails.visits {schema : Schema} (fails : Fails engine schema v fault) :
    (∃ s x, Visits schema v fault.path s x ∧ engine.run s x = .error (.of fault.cause)) ∨
      Misnames schema v fault := by
  induction fails with
  | itself failed => exact Or.inl ⟨_, _, .here, failed⟩
  | option there _ ih =>
    rcases ih with ⟨s, x, visits, failed⟩ | ⟨front, variants, origin, entries, path, visits, named⟩
    · exact Or.inl ⟨s, x, .option there visits, failed⟩
    · exact Or.inr ⟨front, variants, origin, entries, path, .option there visits, named⟩
  | @part schema v step part y fault enters _ ih =>
    rcases ih with ⟨s, x, visits, failed⟩ | ⟨front, variants, origin, entries, path, visits, named⟩
    · exact Or.inl ⟨s, x, .enter enters visits, failed⟩
    · have longer : (fault.inside step).path = step :: front ++ [.key kindKey] :=
        congrArg (step :: ·) path
      exact Or.inr
        ⟨step :: front, variants, origin, entries, longer, .enter enters visits, named⟩
  | misnamed there strange => exact Or.inr ⟨[], _, _, _, rfl, .here, there, strange, rfl⟩

/-- An engine that fails says where and why. There is at most one location, and below it the cause;
its path can be walked from the schema and the input to a place where the same engine fails with
that cause and no location, unless its last step is to a discriminant that is not a string. -/
theorem run_located (engine : Engine) {schema : Schema} {input : Value} {fault : Fault}
    (failed : engine.run schema input = .error fault) :
    fault.layered.layers ≤ 1 ∧ fault.layered.root = .bare fault.cause ∧
      ((∃ s x, Visits schema input fault.path s x ∧ engine.run s x = .error (.of fault.cause)) ∨
        Misnames schema input fault) := by
  have converted := (engine.convert_eq_error_iff schema input.freshOrigin input fault).mpr failed
  have fails := fails_of_error engine schema _ input fault converted
  exact ⟨fault.layers_layered, fault.root_layered, fails.visits⟩

theorem run_located_held :
    let schema : Schema := .object [("items", .array (.choice [("n", some (.leaf .u64))]))]
    let input : Value := .object (.root 0) [("items", .array (.root 1)
      [.object (.root 2) [("kind", .string "n"), ("value", .string "x")]])]
    let fault : Fault :=
      ⟨.invalidFormat "u64" "x", [.key "items", .index 0, .key "value"]⟩
    Engine.read.run schema input = .error fault ∧ fault.layered.layers ≤ 1 ∧
      fault.layered.root = .bare fault.cause ∧
      ∃ s x, Visits schema input fault.path s x ∧
        Engine.read.run s x = .error (.of fault.cause) := by
  intro schema input fault
  have failed : Engine.read.run schema input = .error fault := rfl
  obtain ⟨layers, root, visits | ⟨front, _, _, _, path, -⟩⟩ := run_located .read failed
  · exact ⟨failed, layers, root, visits⟩
  · have last := congrArg List.getLast? path
    simp [fault, kindKey] at last

/-- The discriminant itself is blamed where it is no string. -/
example : Engine.read.run (.array (.choice [("a", none)]))
    (.array (.root 0) [.object (.root 1) [("kind", .null)]]) =
      .error ⟨.invalidType "string" "null", [.index 0, .key "kind"]⟩ := rfl

end Schema

end WireSchema
