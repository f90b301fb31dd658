import WireSchema.Proofs.Convert.Trusting
import WireSchema.Proofs.Convert.Visits

/-!
The engines side by side, layout by layout: what each of them does with a compound, told in the same
words. A value of another layout, which only the trusting engine takes, is handed back.
-/

set_option autoImplicit false

namespace WireSchema.Schema

open WireSchema.Convert
open WireSchema.Update (property kindKey valueKey items)

variable {engine : Engine} {fresh origin : Origin} {v r : Value}

private theorem eq_certain {α : Type} (x : Except Empty α) : x = .ok (certain x) := by
  cases x with
  | ok a => rfl
  | error e => exact e.elim

namespace Engine

def field : Engine → String → Schema → Conversion Fault
  | .read, key, schema => readProperty key schema.isOption schema.reader
  | .trust, _, schema => fun fresh v => .ok (schema.truster fresh v)
  | .write options, key, schema => fun fresh v => located (.key key) (schema.writer options fresh v)

theorem field_eq_ok {key : String} {schema : Schema}
    (done : engine.field key schema fresh v = .ok r) : engine.convert schema fresh v = .ok r := by
  cases engine with
  | read => exact (readProperty_eq_ok.mp done).2
  | trust => exact done
  | write options => exact located_eq_ok.mp done

theorem convert_array {item : Schema} (done : engine.convert (.array item) fresh v = .ok r) :
    (∃ origin values, v = .array origin values ∧
      items fresh (fun i x => located (.index i) (engine.convert item (fresh.enter (.index i)) x))
        origin values = .ok r) ∨
    r = v ∧ ∀ origin values, v ≠ .array origin values := by
  have checked : ∀ c : Conversion Fault, convertEach c fresh v = .ok r →
      ∃ origin values, v = .array origin values ∧
        items fresh (fun i x => located (.index i) (c (fresh.enter (.index i)) x))
          origin values = .ok r := by
    intro c done
    simpa only [convertEach, bind_eq_ok, Prod.exists, asArray_eq_ok] using done
  cases engine with
  | read => exact Or.inl (checked _ done)
  | write options => exact Or.inl (checked _ done)
  | trust =>
    obtain rfl := Except.ok.inj done
    cases v with
    | array origin values =>
      exact Or.inl ⟨origin, values, rfl, items_carries (fun i x y made => by
        rw [← Except.ok.inj made]; rfl) fresh origin values _ (eq_certain _)⟩
    | _ => exact Or.inr ⟨rfl, by simp⟩

theorem convert_tuple {elems : List Schema} (done : engine.convert (.tuple elems) fresh v = .ok r) :
    (∃ origin values f, v = .array origin values ∧ items fresh f origin values = .ok r ∧
      ∀ j x, f j x = (elems.map engine.convert)[j]?.elim (.ok x) fun elem =>
        located (.index j) (elem (fresh.enter (.index j)) x)) ∨
    r = v ∧ ∀ origin values, v ≠ .array origin values := by
  have checked : ∀ cs : List (Conversion Fault), convertPositions cs fresh v = .ok r →
      ∃ origin values f, v = .array origin values ∧ items fresh f origin values = .ok r ∧
        ∀ j x, f j x = cs[j]?.elim (.ok x) fun elem =>
          located (.index j) (elem (fresh.enter (.index j)) x) := by
    intro cs made
    simp only [convertPositions, bind_eq_ok, Prod.exists, asArray_eq_ok] at made
    obtain ⟨origin, values, shape, made⟩ := made
    split at made
    · exact ⟨origin, values, _, shape, made, fun j x => by cases cs[j]? <;> rfl⟩
    · simp at made
  cases engine with
  | read =>
    rw [convert, reader, elemReaders_eq_map] at done
    exact Or.inl (checked _ done)
  | write options =>
    rw [convert, writer, elemWriters_eq_map] at done
    exact Or.inl (checked _ done)
  | trust =>
    obtain rfl := Except.ok.inj done
    cases v with
    | array origin values =>
      refine Or.inl ⟨origin, values, _, rfl, ?_, fun _ _ => rfl⟩
      refine items_carries (fun i x y made => ?_) fresh origin values _ (eq_certain _)
      rw [elemTrusters_eq_map, List.getElem?_map] at made
      rw [List.getElem?_map]
      cases here : elems[i]? with
      | none => rw [here] at made; exact congrArg Except.ok (Except.ok.inj made)
      | some elem => rw [here] at made; exact congrArg Except.ok (Except.ok.inj made)
    | _ => exact Or.inr ⟨rfl, by simp⟩

private theorem trust_fields (fields : List (String × Schema)) (fresh origin : Origin)
    (entries : List (String × Value)) :
    convertProperties (Entries.mapValues Engine.trust.field fields) fresh (.object origin entries) =
      .ok (trustProperties (fieldTrusters fields) fresh (.object origin entries)) := by
  have certainly : Update.properties fresh (Entries.mapValues (fun key field x =>
      (Except.ok (truster field (fresh.enter (.key key)) x) : Except Empty Value)) fields)
      origin entries = .ok (trustProperties (fieldTrusters fields) fresh (.object origin entries)) := by
    rw [fieldTrusters_eq]
    refine Eq.trans ?_ (eq_certain _)
    rw [Entries.mapValues, Entries.mapValues, List.map_map]
    rfl
  change Update.properties fresh (placedFields fresh _) origin entries = _
  rw [placedFields_mapValues]
  exact properties_carries (fun key field _ x y made => congrArg Except.ok (Except.ok.inj made))
    fresh origin entries _ certainly

theorem convert_object {fields : List (String × Schema)}
    (done : engine.convert (.object fields) fresh v = .ok r) :
    (∃ origin entries, v = .object origin entries ∧
      convertProperties (Entries.mapValues engine.field fields) fresh v = .ok r) ∨
    r = v ∧ ∀ origin entries, v ≠ .object origin entries := by
  have checked : ∀ cs : List (String × Conversion Fault), convertProperties cs fresh v = .ok r →
      ∃ origin entries, v = .object origin entries ∧ convertProperties cs fresh v = .ok r := by
    intro cs done
    obtain ⟨origin, entries, -, shape, -⟩ := convertProperties_eq_ok_iff.mp done
    exact ⟨origin, entries, shape, done⟩
  cases engine with
  | read =>
    rw [convert, reader, fieldReaders_eq] at done
    exact Or.inl (checked _ done)
  | write options =>
    rw [convert, writer, fieldWriters_eq] at done
    exact Or.inl (checked _ done)
  | trust =>
    obtain rfl := Except.ok.inj done
    cases v with
    | object origin entries =>
      exact Or.inl ⟨origin, entries, rfl, trust_fields fields fresh origin entries⟩
    | _ => exact Or.inr ⟨rfl, by simp⟩

/-- What becomes of an object whose variant has the given payload; there may be no such variant. -/
def Lands (engine : Engine) (fresh origin : Origin) (entries : List (String × Value))
    (kind : String) (r : Value) : Option (Option Schema) → Prop
  | none => r = if engine.drops then .absent else .object origin entries
  | some none => r = .object origin entries
  | some (some payload) =>
    (∃ fields, payload = .object fields ∧ convertProperties (Entries.mapValues engine.field fields)
      fresh (.object origin entries) = .ok r) ∨
    payload.isObject = false ∧
      ∃ mapped, engine.convert payload (fresh.enter (.key valueKey)) (property valueKey entries) =
          .ok mapped ∧
        r = if mapped.same (property valueKey entries) then .object origin entries
          else Update.variantValue fresh kind mapped

private theorem trust_lands {variants : List (String × Option Schema)}
    {entries : List (String × Value)} {kind : String}
    (named : property kindKey entries = .string kind) :
    Lands .trust fresh origin entries kind
      (trustVariant (variantTrusters variants) fresh (.object origin entries))
      (Entries.get? kind variants) := by
  have found : (Value.object origin entries).get kindKey = .string kind := named
  simp only [trustVariant, found, variantTrusters_eq, Entries.get?_mapValues]
  cases Entries.get? kind variants with
  | none => rfl
  | some payload =>
    cases payload with
    | none => rfl
    | some payload =>
      cases object : payload.isObject with
      | true =>
        obtain ⟨fields, rfl⟩ := isObject_eq_true.mp object
        exact Or.inl ⟨fields, rfl, trust_fields fields fresh origin entries⟩
      | false =>
        rw [Option.map_some, payloadBy_held _ _ object]
        refine Or.inr ⟨object, mappedPayload_eq_ok.mp ?_⟩
        exact mappedPayload_carries (fun x y made => congrArg Except.ok (Except.ok.inj made))
          fresh kind _ _ (eq_certain _)

theorem convert_choice {variants : List (String × Option Schema)}
    (done : engine.convert (.choice variants) fresh v = .ok r) :
    (∃ origin entries kind, v = .object origin entries ∧ property kindKey entries = .string kind ∧
      Lands engine fresh origin entries kind r (Entries.get? kind variants)) ∨
    r = v ∧ ∀ origin entries kind, v = .object origin entries →
      property kindKey entries ≠ .string kind := by
  cases engine with
  | read =>
    obtain ⟨origin, entries, kind, payload, rfl, named, declared, landed⟩ :=
      readVariant_eq_ok.mp done
    refine Or.inl ⟨origin, entries, kind, rfl, named, ?_⟩
    rw [declared]
    cases payload with
    | none => exact landed.2
    | some payload =>
      rcases landed with ⟨fields, rfl, done⟩ | ⟨held, -, -, mapped, made, shape⟩
      · rw [fieldReaders_eq] at done
        exact Or.inl ⟨fields, rfl, done⟩
      · exact Or.inr ⟨held, mapped, made, shape⟩
  | write options =>
    obtain ⟨origin, entries, kind, rfl, named, landed⟩ := writeVariant_eq_ok.mp done
    refine Or.inl ⟨origin, entries, kind, rfl, named, ?_⟩
    cases declared : Entries.get? kind variants with
    | none =>
      rw [declared] at landed
      exact landed.2.trans (if_pos landed.1).symm
    | some payload =>
      rw [declared] at landed
      cases payload with
      | none => exact landed
      | some payload =>
        rcases landed with ⟨fields, rfl, done⟩ | ⟨held, mapped, made, shape⟩
        · rw [fieldWriters_eq] at done
          exact Or.inl ⟨fields, rfl, done⟩
        · exact Or.inr ⟨held, mapped, made, shape⟩
  | trust =>
    obtain rfl := Except.ok.inj done
    cases v with
    | object origin entries =>
      by_cases named : ∃ kind, property kindKey entries = .string kind
      · obtain ⟨kind, named⟩ := named
        exact Or.inl ⟨origin, entries, kind, rfl, named, trust_lands named⟩
      · refine Or.inr ⟨?_, ?_⟩
        · rw [truster, trustVariant]
          split
          · next kind found => exact absurd ⟨kind, found⟩ named
          · rfl
        · rintro _ _ kind shape found
          obtain ⟨rfl, rfl⟩ := Value.object.inj shape
          exact named ⟨kind, found⟩
    | _ => exact Or.inr ⟨rfl, by simp⟩

end Engine

end WireSchema.Schema
