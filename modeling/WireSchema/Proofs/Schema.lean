import WireSchema.Schema.Basic
import WireSchema.Proofs.Entries

/-!
Induction over schemas by their parts, and the schemas whose fields and variants have distinct
names, as every map of them has.
-/

set_option autoImplicit false

namespace WireSchema.Schema

theorem byParts {P : Schema → Prop} (leaf : ∀ l, P (.leaf l))
    (option : ∀ inner, P inner → P (.option inner))
    (array : ∀ item, P item → P (.array item))
    (tuple : ∀ elems, (∀ elem ∈ elems, P elem) → P (.tuple elems))
    (object : ∀ fields, (∀ name field, (name, field) ∈ fields → P field) → P (.object fields))
    (choice : ∀ variants, (∀ kind payload, (kind, some payload) ∈ variants → P payload) →
      P (.choice variants)) (schema : Schema) : P schema := by
  refine @Schema.rec P (fun elems => ∀ elem ∈ elems, P elem)
    (fun fields => ∀ name field, (name, field) ∈ fields → P field)
    (fun variants => ∀ kind payload, (kind, some payload) ∈ variants → P payload)
    (fun field => P field.2) (fun variant => ∀ payload, variant.2 = some payload → P payload)
    (fun payload => ∀ schema, payload = some schema → P schema)
    leaf option array tuple object choice (by simp)
    (fun _ _ first others => List.forall_mem_cons.mpr ⟨first, others⟩) (by simp)
    (fun _ _ first others => Entries.forall_mem_cons.mpr ⟨first, others⟩) (by simp) ?_
    (fun _ _ ih => ih) (fun _ _ ih => ih) (by simp) ?_ schema
  · intro variant rest first others kind candidate member
    rcases List.mem_cons.mp member with same | member
    · exact first candidate (by rw [← same])
    · exact others kind candidate member
  · intro payload ih candidate same
    exact Option.some.inj same ▸ ih

def declared : Schema → List (String × Schema)
  | .object fields => fields
  | _ => []

/-- Induction that also reaches through payloads whose fields stand beside the name of their
variant. -/
theorem byLayout {P : Schema → Prop} (leaf : ∀ l, P (.leaf l))
    (option : ∀ inner, P inner → P (.option inner))
    (array : ∀ item, P item → P (.array item))
    (tuple : ∀ elems, (∀ elem ∈ elems, P elem) → P (.tuple elems))
    (object : ∀ fields, (∀ name field, (name, field) ∈ fields → P field) → P (.object fields))
    (choice : ∀ variants, (∀ kind payload, (kind, some payload) ∈ variants → P payload) →
      (∀ kind fields, (kind, some (.object fields)) ∈ variants →
        ∀ name field, (name, field) ∈ fields → P field) →
      P (.choice variants)) (schema : Schema) : P schema := by
  have both : P schema ∧ ∀ name field, (name, field) ∈ schema.declared → P field := by
    induction schema using byParts with
    | leaf l => exact ⟨leaf l, by simp [declared]⟩
    | option inner ih => exact ⟨option inner ih.1, by simp [declared]⟩
    | array item ih => exact ⟨array item ih.1, by simp [declared]⟩
    | tuple elems ih => exact ⟨tuple elems fun elem member => (ih elem member).1, by simp [declared]⟩
    | object fields ih =>
      have parts := fun name field member => (ih name field member).1
      exact ⟨object fields parts, parts⟩
    | choice variants ih =>
      refine ⟨choice variants (fun kind payload member => (ih kind payload member).1) ?_,
        by simp [declared]⟩
      exact fun kind fields member => (ih kind (.object fields) member).2
  exact both.1

/-- The names of fields and of variants are distinct, here and further in. -/
inductive Proper : Schema → Prop where
  | leaf (l : Leaf) : Proper (.leaf l)
  | option {inner : Schema} : Proper inner → Proper (.option inner)
  | array {item : Schema} : Proper item → Proper (.array item)
  | tuple {elems : List Schema} : (∀ elem ∈ elems, Proper elem) → Proper (.tuple elems)
  | object {fields : List (String × Schema)} : Entries.Distinct fields →
      (∀ name field, (name, field) ∈ fields → Proper field) → Proper (.object fields)
  | choice {variants : List (String × Option Schema)} : Entries.Distinct variants →
      (∀ kind payload, (kind, some payload) ∈ variants → Proper payload) →
      Proper (.choice variants)

theorem Proper.distinct {fields : List (String × Schema)} (proper : Proper (.object fields)) :
    Entries.Distinct fields := by
  cases proper with
  | object distinct _ => exact distinct

theorem Proper.field {fields : List (String × Schema)} (proper : Proper (.object fields))
    {name : String} {field : Schema} (member : (name, field) ∈ fields) : field.Proper := by
  cases proper with
  | object _ inside => exact inside name field member

theorem Proper.payload {variants : List (String × Option Schema)} {kind : String} {payload : Schema}
    (proper : Proper (.choice variants))
    (declared : Entries.get? kind variants = some (some payload)) : payload.Proper := by
  cases proper with
  | choice _ payloads => exact payloads kind payload (Entries.mem_of_get? declared)

theorem proper_option_iff {inner : Schema} : Proper (.option inner) ↔ inner.Proper :=
  ⟨fun | .option proper => proper, .option⟩

theorem proper_array_iff {item : Schema} : Proper (.array item) ↔ item.Proper :=
  ⟨fun | .array proper => proper, .array⟩

theorem proper_tuple_iff {elems : List Schema} :
    Proper (.tuple elems) ↔ ∀ elem ∈ elems, elem.Proper :=
  ⟨fun | .tuple each => each, .tuple⟩

theorem proper_object_iff {fields : List (String × Schema)} :
    Proper (.object fields) ↔
      Entries.Distinct fields ∧ ∀ name field, (name, field) ∈ fields → field.Proper :=
  ⟨fun | .object distinct each => ⟨distinct, each⟩, fun ⟨distinct, each⟩ => .object distinct each⟩

theorem proper_choice_iff {variants : List (String × Option Schema)} :
    Proper (.choice variants) ↔ Entries.Distinct variants ∧
      ∀ kind payload, (kind, payload) ∈ variants → ∀ schema ∈ payload, schema.Proper := by
  constructor
  · rintro ⟨⟩
    next distinct each =>
      refine ⟨distinct, fun kind payload member schema there => each kind schema ?_⟩
      exact Option.mem_def.mp there ▸ member
  · rintro ⟨distinct, each⟩
    exact .choice distinct fun kind payload member => each kind payload member payload rfl

mutual

def decideProper : (schema : Schema) → Decidable schema.Proper
  | .leaf l => .isTrue (.leaf l)
  | .option inner =>
    have := decideProper inner
    decidable_of_iff' _ proper_option_iff
  | .array item =>
    have := decideProper item
    decidable_of_iff' _ proper_array_iff
  | .tuple elems =>
    have := decideElems elems
    decidable_of_iff' _ proper_tuple_iff
  | .object fields =>
    have := decideFields fields
    decidable_of_iff' _ proper_object_iff
  | .choice variants =>
    have := decideVariants variants
    decidable_of_iff' _ proper_choice_iff

def decideElems : (elems : List Schema) → Decidable (∀ elem ∈ elems, elem.Proper)
  | [] => .isTrue (by simp)
  | elem :: rest =>
    have := decideProper elem
    have := decideElems rest
    decidable_of_iff' _ List.forall_mem_cons

def decideFields : (fields : List (String × Schema)) →
    Decidable (∀ name field, (name, field) ∈ fields → field.Proper)
  | [] => .isTrue (by simp)
  | (_, field) :: rest =>
    have := decideProper field
    have := decideFields rest
    decidable_of_iff' _ Entries.forall_mem_cons

def decideVariants : (variants : List (String × Option Schema)) →
    Decidable (∀ kind payload, (kind, payload) ∈ variants → ∀ schema ∈ payload, schema.Proper)
  | [] => .isTrue (by simp)
  | (_, none) :: rest =>
    have := decideVariants rest
    decidable_of_iff' _ (Entries.forall_mem_cons.trans (and_iff_right (by simp)))
  | (_, some payload) :: rest =>
    have := decideProper payload
    have := decideVariants rest
    decidable_of_iff' _ (Entries.forall_mem_cons.trans (and_congr_left' (b := payload.Proper) (by simp)))

end

instance : DecidablePred Proper := decideProper

end WireSchema.Schema
