import WireSchema.Proofs.Convert.CopyOnWrite
import WireSchema.Proofs.Convert.SideBySide

/-!
When an engine succeeds, and with what, layout by layout. Where the value has another layout than
the schema, the trusting engine hands it back and the others fail; where it has the same, only the
checks differ.
-/

set_option autoImplicit false

namespace WireSchema.Schema

open WireSchema.Convert
open WireSchema.Update (property kindKey valueKey items)

namespace Engine

variable {engine : Engine} {fresh origin : Origin} {v r : Value} {values : List Value}
  {entries : List (String × Value)} {kind : String} {variants : List (String × Option Schema)}

theorem convert_option (inner : Schema) : engine.convert (.option inner) fresh v =
    if v.isAbsent then .ok .absent else engine.convert inner fresh v := by
  cases engine with
  | trust =>
    simp only [convert, truster]
    split <;> rfl
  | _ => rfl

theorem convert_array_eq (item : Schema) : engine.convert (.array item) fresh (.array origin values) =
    items fresh (fun i x => located (.index i) (engine.convert item (fresh.enter (.index i)) x))
      origin values := by
  cases engine with
  | trust =>
    have done : Engine.trust.convert (.array item) fresh (.array origin values) =
      .ok (truster (.array item) fresh (.array origin values)) := rfl
    rcases convert_array done with ⟨_, _, shape, made⟩ | ⟨-, other⟩
    · obtain ⟨rfl, rfl⟩ := Value.array.inj shape
      exact done.trans made.symm
    · exact absurd rfl (other _ _)
  | _ => rfl

theorem convert_array_other {item : Schema} (other : ∀ origin values, v ≠ .array origin values) :
    engine.convert (.array item) fresh v = .ok r ↔ engine = .trust ∧ r = v := by
  cases engine with
  | trust =>
    cases v with
    | array origin values => exact absurd rfl (other _ _)
    | _ => simp [convert, truster, trustEach, eq_comm]
  | _ =>
    cases v with
    | array origin values => exact absurd rfl (other _ _)
    | _ => simp [convert, reader, writer, convertEach, Value.asArray, Value.mistyped]

theorem convert_tuple_iff {elems : List Schema} :
    engine.convert (.tuple elems) fresh (.array origin values) = .ok r ↔
      (engine = .trust ∨ values.length = elems.length) ∧
        items fresh (fun j x => convertAt (elems.map engine.convert) j (fresh.enter (.index j)) x)
          origin values = .ok r := by
  have checked : ∀ cs : List (Conversion Fault),
      convertPositions cs fresh (.array origin values) = .ok r ↔ values.length = cs.length ∧
        items fresh (fun j x => convertAt cs j (fresh.enter (.index j)) x) origin values = .ok r := by
    intro cs
    rw [convertPositions_array]
    split
    · next length => exact (and_iff_right length).symm
    · next length => simp [length]
  cases engine with
  | trust =>
    have done : Engine.trust.convert (.tuple elems) fresh (.array origin values) =
      .ok (truster (.tuple elems) fresh (.array origin values)) := rfl
    rcases convert_tuple done with ⟨_, _, f, shape, made, known⟩ | ⟨-, other⟩
    · obtain ⟨rfl, rfl⟩ := Value.array.inj shape
      obtain rfl : f = fun j x => convertAt (elems.map Engine.trust.convert) j
        (fresh.enter (.index j)) x := funext fun j => funext (known j)
      rw [done, made]
      simp
    · exact absurd rfl (other _ _)
  | read =>
    rw [convert, reader, elemReaders_eq_map, checked, List.length_map]
    simp only [reduceCtorEq, false_or]
    rfl
  | write options =>
    rw [convert, writer, elemWriters_eq_map, checked, List.length_map]
    simp only [reduceCtorEq, false_or]
    rfl

theorem convert_tuple_other {elems : List Schema}
    (other : ∀ origin values, v ≠ .array origin values) :
    engine.convert (.tuple elems) fresh v = .ok r ↔ engine = .trust ∧ r = v := by
  cases engine with
  | trust =>
    cases v with
    | array origin values => exact absurd rfl (other _ _)
    | _ => simp [convert, truster, trustPositions, eq_comm]
  | _ =>
    cases v with
    | array origin values => exact absurd rfl (other _ _)
    | _ => simp [convert, reader, writer, convertPositions, Value.asArray, Value.mistyped]

theorem field_eq_ok_iff {key : String} {schema : Schema} :
    engine.field key schema fresh v = .ok r ↔
      (engine = .read → v = .absent → schema.isOption = true) ∧
        engine.convert schema fresh v = .ok r := by
  cases engine with
  | read => simpa [field, convert] using readProperty_eq_ok
  | trust => simp [field, convert]
  | write options => simp [field, convert]

theorem convert_object_eq (fields : List (String × Schema)) :
    engine.convert (.object fields) fresh (.object origin entries) =
      convertProperties (Entries.mapValues engine.field fields) fresh (.object origin entries) := by
  cases engine with
  | read => rw [convert, reader, fieldReaders_eq]; rfl
  | write options => rw [convert, writer, fieldWriters_eq]; rfl
  | trust =>
    have done : Engine.trust.convert (.object fields) fresh (.object origin entries) =
      .ok (truster (.object fields) fresh (.object origin entries)) := rfl
    rcases convert_object done with ⟨_, _, -, made⟩ | ⟨-, other⟩
    · exact done.trans made.symm
    · exact absurd rfl (other _ _)

theorem convert_object_other {fields : List (String × Schema)}
    (other : ∀ origin entries, v ≠ .object origin entries) :
    engine.convert (.object fields) fresh v = .ok r ↔ engine = .trust ∧ r = v := by
  cases engine with
  | trust =>
    cases v with
    | object origin entries => exact absurd rfl (other _ _)
    | _ => simp [convert, truster, trustProperties, eq_comm]
  | _ =>
    cases v with
    | object origin entries => exact absurd rfl (other _ _)
    | _ => simp [convert, reader, writer, convertProperties, Value.asObject, Value.mistyped]

/-- What an engine checks of an object that names a variant, given what is declared under that
name. -/
def Admits : Engine → Option (Option Schema) → List (String × Value) → Prop
  | .read, none, _ => False
  | .read, some none, entries => ∀ key ∈ Entries.names entries, key = kindKey
  | .read, some (some payload), entries => payload.isObject = false →
      (∀ key ∈ Entries.names entries, key = kindKey ∨ key = valueKey) ∧
        property valueKey entries ≠ .absent
  | .trust, _, _ => True
  | .write options, declared, _ => declared = none → options.choiceFallthrough = true

theorem Lands.unique {declared : Option (Option Schema)} {r' : Value}
    (landed : Lands engine fresh origin entries kind r declared)
    (landed' : Lands engine fresh origin entries kind r' declared) : r = r' := by
  rcases declared with - | - | payload
  · exact landed.trans landed'.symm
  · exact landed.trans landed'.symm
  · rcases landed with ⟨fields, rfl, made⟩ | ⟨held, mapped, made, shape⟩
    · rcases landed' with ⟨_, same, made'⟩ | ⟨held, -⟩
      · obtain rfl := Schema.object.inj same
        exact Except.ok.inj (made.symm.trans made')
      · simp [isObject] at held
    · rcases landed' with ⟨_, rfl, -⟩ | ⟨-, mapped', made', shape'⟩
      · simp [isObject] at held
      · obtain rfl := Except.ok.inj (made.symm.trans made')
        exact shape.trans shape'.symm

private theorem admits_of_done (named : property kindKey entries = .string kind)
    (done : engine.convert (.choice variants) fresh (.object origin entries) = .ok r) :
    engine.Admits (Entries.get? kind variants) entries := by
  cases engine with
  | trust => trivial
  | read =>
    obtain ⟨_, _, _, payload, shape, named', declared, landed⟩ := readVariant_eq_ok.mp done
    obtain ⟨rfl, rfl⟩ := Value.object.inj shape
    obtain rfl := Value.string.inj (named.symm.trans named')
    rw [declared]
    cases payload with
    | none => exact landed.1
    | some payload =>
      intro held
      rcases landed with ⟨fields, rfl, -⟩ | ⟨-, keys, there, -⟩
      · simp [isObject] at held
      · exact ⟨keys, there⟩
  | write options =>
    have landed := (writer_choice_eq_ok named).mp done
    intro missing
    rw [missing] at landed
    exact landed.1

theorem convert_choice_iff (named : property kindKey entries = .string kind) :
    engine.convert (.choice variants) fresh (.object origin entries) = .ok r ↔
      engine.Admits (Entries.get? kind variants) entries ∧
        Lands engine fresh origin entries kind r (Entries.get? kind variants) := by
  constructor
  · intro done
    refine ⟨admits_of_done named done, ?_⟩
    rcases convert_choice done with ⟨_, _, _, shape, named', landed⟩ | ⟨-, other⟩
    · obtain ⟨rfl, rfl⟩ := Value.object.inj shape
      obtain rfl := Value.string.inj (named.symm.trans named')
      exact landed
    · exact absurd named (other _ _ _ rfl)
  · rintro ⟨admitted, landed⟩
    cases engine with
    | trust =>
      have done : Engine.trust.convert (.choice variants) fresh (.object origin entries) =
        .ok (truster (.choice variants) fresh (.object origin entries)) := rfl
      rcases convert_choice done with ⟨_, _, _, shape, named', landed'⟩ | ⟨-, other⟩
      · obtain ⟨rfl, rfl⟩ := Value.object.inj shape
        obtain rfl := Value.string.inj (named.symm.trans named')
        exact done.trans (congrArg Except.ok (landed'.unique landed))
      · exact absurd named (other _ _ _ rfl)
    | read =>
      cases declared : Entries.get? kind variants with
      | none => simp [declared, Admits] at admitted
      | some payload =>
        rw [declared] at admitted landed
        refine (reader_choice_eq_ok named declared).mpr ?_
        cases payload with
        | none => exact ⟨admitted, landed⟩
        | some payload =>
          rcases landed with ⟨fields, rfl, made⟩ | ⟨held, made⟩
          · exact Or.inl ⟨fields, rfl, by rw [fieldReaders_eq]; exact made⟩
          · exact Or.inr ⟨held, (admitted held).1, (admitted held).2, made⟩
    | write options =>
      refine (writer_choice_eq_ok named).mpr ?_
      cases declared : Entries.get? kind variants with
      | none =>
        rw [declared] at admitted landed
        have through := admitted rfl
        exact ⟨through, landed.trans (if_pos through)⟩
      | some payload =>
        rw [declared] at landed
        cases payload with
        | none => exact landed
        | some payload =>
          rcases landed with ⟨fields, rfl, made⟩ | held
          · exact Or.inl ⟨fields, rfl, by rw [fieldWriters_eq]; exact made⟩
          · exact Or.inr held

theorem convert_choice_other (other : ∀ origin entries kind, v = .object origin entries →
      property kindKey entries ≠ .string kind) :
    engine.convert (.choice variants) fresh v = .ok r ↔ engine = .trust ∧ r = v := by
  cases engine with
  | trust =>
    have done : Engine.trust.convert (.choice variants) fresh v =
      .ok (truster (.choice variants) fresh v) := rfl
    rcases convert_choice done with ⟨_, _, _, shape, named, -⟩ | ⟨kept, -⟩
    · exact absurd named (other _ _ _ shape)
    · rw [done, kept]
      simp [eq_comm]
  | read =>
    simp only [reduceCtorEq, false_and, iff_false]
    intro done
    obtain ⟨_, _, _, _, shape, named, -⟩ := readVariant_eq_ok.mp done
    exact other _ _ _ shape named
  | write options =>
    simp only [reduceCtorEq, false_and, iff_false]
    intro done
    obtain ⟨_, _, _, shape, named, -⟩ := writeVariant_eq_ok.mp done
    exact other _ _ _ shape named

end Engine

end WireSchema.Schema
