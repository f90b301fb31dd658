import WireSchema.Generated.Deserializer
import WireSchema.Proofs.Generated.Emission

/-!
Generated writers against the interpreter, in every program that compiling can have built up before.
-/

set_option autoImplicit false

namespace WireSchema.Generated

open WireSchema.Schema (MeetsUndeclared)
open WireSchema.Update (property kindKey valueKey)

variable {options : WriteOptions} {p : Program}

/-- What is said of code in a program and goes on being said while the program grows. -/
def Lasting (fact : Program → Schema → Code → Prop) : Prop :=
  ∀ (p q : Program) (schema : Schema) (code : Code), p.helpers <+: q.helpers →
    fact p schema code → fact q schema code

def Holds (options : WriteOptions) (fact : Program → Schema → Code → Prop) (schema : Schema) :
    Prop :=
  ∀ p : Program, p.Sound → Grows p (p.writer options schema).2 ∧
    fact (p.writer options schema).2 schema (p.writer options schema).1

inductive ArmSaid (fact : Schema → Code → Prop) : Option Schema → Arm → Prop where
  | bare : ArmSaid fact none .keep
  | payload {payload : Schema} {code : Code} : fact payload code →
      ArmSaid fact (some payload) (Program.armOf payload.isObject code)

section Parts

variable {fact : Program → Schema → Code → Prop} (lasting : Lasting fact)

include lasting

theorem holds_elems {elems : List Schema} (each : ∀ elem ∈ elems, Holds options fact elem)
    (sound : p.Sound) :
    Grows p (Program.elemWriters options elems p).2 ∧
      List.Forall₂ (fact (Program.elemWriters options elems p).2) elems
        (Program.elemWriters options elems p).1 := by
  induction elems generalizing p with
  | nil => exact ⟨sound.grows_of_helpers rfl, .nil⟩
  | cons elem rest ih =>
    obtain ⟨first, said⟩ := each elem List.mem_cons_self p sound
    obtain ⟨grows, others⟩ := ih (fun elem member => each elem (List.mem_cons_of_mem _ member))
      first.sound
    exact ⟨first.trans grows, .cons (lasting _ _ _ _ grows.helpers said) others⟩

theorem holds_fields {fields : List (String × Schema)}
    (each : ∀ key field, (key, field) ∈ fields → Holds options fact field) (sound : p.Sound) :
    Grows p (Program.fieldWriters options fields p).2 ∧
      Entries.Matched (fact (Program.fieldWriters options fields p).2) fields
        (Program.fieldWriters options fields p).1 := by
  induction fields generalizing p with
  | nil => exact ⟨sound.grows_of_helpers rfl, .nil⟩
  | cons field rest ih =>
    obtain ⟨first, said⟩ := each field.1 field.2 List.mem_cons_self p sound
    obtain ⟨grows, others⟩ := ih
      (fun key field member => each key field (List.mem_cons_of_mem _ member)) first.sound
    exact ⟨first.trans grows, .cons ⟨rfl, lasting _ _ _ _ grows.helpers said⟩ others⟩

theorem holds_variants {variants : List (String × Option Schema)}
    (each : ∀ kind payload, (kind, some payload) ∈ variants → Holds options fact payload)
    (sound : p.Sound) :
    Grows p (Program.variantWriters options variants p).2 ∧
      Entries.Matched (ArmSaid (fact (Program.variantWriters options variants p).2)) variants
        (Program.variantWriters options variants p).1 := by
  induction variants generalizing p with
  | nil => exact ⟨sound.grows_of_helpers rfl, .nil⟩
  | cons variant rest ih =>
    have each' := fun kind payload member => each kind payload (List.mem_cons_of_mem _ member)
    obtain ⟨kind, payload⟩ := variant
    cases payload with
    | none =>
      obtain ⟨grows, others⟩ := ih each' sound
      exact ⟨grows, .cons ⟨rfl, .bare⟩ others⟩
    | some payload =>
      obtain ⟨first, said⟩ := each kind payload List.mem_cons_self p sound
      obtain ⟨grows, others⟩ := ih each' first.sound
      have spread : decide (payload.kind = .object) = payload.isObject := by
        cases payload <;> rfl
      refine ⟨first.trans grows, .cons ⟨rfl, ?_⟩ others⟩
      rw [spread]
      exact .payload (lasting _ _ _ _ grows.helpers said)

end Parts

private theorem lasting_spells : Lasting (Spells options) :=
  fun _ _ _ _ grown spells => spells.mono grown

private theorem Emits.holds {schema : Schema}
    (emits : ∀ p : Program, p.Sound → Emits options schema p (Program.writer options schema p)) :
    Holds options (Spells options) schema :=
  fun p sound => ⟨(emits p sound).grows, (emits p sound).spells⟩

theorem ArmSaid.spells {fact : Schema → Code → Prop} {payload : Option Schema} {arm : Arm}
    (said : ArmSaid fact payload arm)
    (told : ∀ schema code, fact schema code → Spells options p schema code) :
    ArmSpells options p payload arm := by
  cases said with
  | bare => exact .bare
  | payload part => exact .payload (told _ _ part)

theorem writer_emits (options : WriteOptions) (schema : Schema) :
    ∀ p : Program, p.Sound → Emits options schema p (Program.writer options schema p) := by
  induction schema using Schema.byParts with
  | leaf l => exact fun p sound => emits_leaf sound l
  | option inner ih =>
    intro p sound
    have part := ih p sound
    have whole := emits_optional part.grows.sound part.spells
    exact ⟨part.grows.trans whole.grows, whole.spells⟩
  | array item ih =>
    intro p sound
    have part := ih p sound
    have whole := emits_each part.grows.sound part.spells
    exact ⟨part.grows.trans whole.grows, whole.spells⟩
  | tuple elems ih =>
    intro p sound
    obtain ⟨grows, parts⟩ := holds_elems lasting_spells
      (fun elem member => Emits.holds (ih elem member)) sound
    have whole := emits_positions grows.sound parts
    exact ⟨grows.trans whole.grows, whole.spells⟩
  | object fields ih =>
    intro p sound
    obtain ⟨grows, parts⟩ := holds_fields lasting_spells
      (fun key field member => Emits.holds (ih key field member)) sound
    have whole := emits_object parts grows.sound
    exact ⟨grows.trans whole.grows, whole.spells⟩
  | choice variants ih =>
    intro p sound
    obtain ⟨grows, parts⟩ := holds_variants lasting_spells
      (fun kind payload member => Emits.holds (ih kind payload member)) sound
    have whole := emits_choice (parts.imp fun _ _ said => said.spells fun _ _ spells => spells)
      grows.sound
    exact ⟨grows.trans whole.grows, whole.spells⟩

private theorem leafReader_helpers (l : Leaf) (p : Program) :
    (p.leafReader l).2.helpers = p.helpers := by
  cases l <;> rfl

private theorem optional_helpers (code : Code) (p : Program) :
    (p.optional code).2.helpers = p.helpers := by
  rw [Program.optional]
  split <;> rfl

private theorem eachReader_helpers (code : Code) (p : Program) :
    (p.eachReader code).2.helpers = p.helpers := by
  simp only [Program.eachReader, Program.calling]
  split <;> rfl

private theorem elemReaders_helpers {elems : List Schema}
    (each : ∀ elem ∈ elems, ∀ p : Program, (Program.reader elem p).2.helpers = p.helpers)
    (p : Program) : (Program.elemReaders elems p).2.helpers = p.helpers := by
  induction elems generalizing p with
  | nil => rfl
  | cons elem rest ih =>
    have first := each elem List.mem_cons_self p
    have others := ih fun elem member => each elem (List.mem_cons_of_mem _ member)
    rw [Program.elemReaders]
    split
    · next code q made =>
      rw [made] at first
      have more := others q
      split
      · next made' => rw [made'] at more; exact more.trans first
      · next made' => rw [made'] at more; exact more.trans first
    · next made => rw [made] at first; exact first

theorem reader_helpers (schema : Schema) (p : Program) :
    (Program.reader schema p).2.helpers = p.helpers := by
  induction schema using Schema.byParts generalizing p with
  | leaf l => exact leafReader_helpers l p
  | option inner ih =>
    have part := ih p
    rw [Program.reader]
    split
    · next made => rw [made] at part; exact (optional_helpers _ _).trans part
    · next made => rw [made] at part; exact part
  | array item ih =>
    have part := ih p
    rw [Program.reader]
    split
    · next made => rw [made] at part; exact (eachReader_helpers _ _).trans part
    · next made => rw [made] at part; exact part
  | tuple elems ih =>
    have parts := elemReaders_helpers (fun elem member p => ih elem member p) p
    rw [Program.reader]
    split
    · next made => rw [made] at parts; exact parts
    · next made => rw [made] at parts; exact parts
  | object fields _ => rfl
  | choice variants _ => rfl

/-- The programs that passes lead to, also those passes that end in a fault. -/
inductive Reachable : Program → Prop where
  | empty : Reachable Program.empty
  | writer (options : WriteOptions) (schema : Schema) {p : Program} : Reachable p →
      Reachable (Program.writer options schema p).2
  | reader (schema : Schema) {p : Program} : Reachable p → Reachable (Program.reader schema p).2

theorem Reachable.sound (reachable : Reachable p) : p.Sound := by
  induction reachable with
  | empty => exact Program.sound_empty
  | writer options schema _ ih => exact (writer_emits options schema _ ih).grows.sound
  | reader schema _ ih => exact (ih.grows_of_helpers (reader_helpers schema _)).sound

private theorem not_meetsUndeclared_of_names {kind : String} {payload : Schema} {origin : Origin}
    {entries : List (String × Value)} (named : property kindKey entries = .string kind)
    (spread : payload.isObject = false)
    (declared : ¬MeetsUndeclared payload (property valueKey entries)) :
    ¬MeetsUndeclared (.choice [(kind, some payload)]) (.object origin entries) := by
  intro met
  cases met with
  | here named' missing =>
    obtain rfl : kind = _ := Value.string.inj (named.symm.trans named')
    simp [Entries.names] at missing
  | spread named' found _ =>
    obtain rfl : kind = _ := Value.string.inj (named.symm.trans named')
    simp only [Entries.get?, if_true, Option.some.injEq] at found
    simp [found, Schema.isObject] at spread
  | held named' found _ met =>
    obtain rfl : kind = _ := Value.string.inj (named.symm.trans named')
    simp only [Entries.get?, if_true, Option.some.injEq] at found
    exact declared (found ▸ met)

private theorem not_meetsUndeclared_numbers {origin : Origin} {values : List Value} :
    ¬MeetsUndeclared (.array (.leaf .number)) (.array origin values) := by
  intro met
  cases met with
  | array _ met => cases met

/-- Where the interpreter succeeds and meets no undeclared variant, generated code succeeds too, and
both show the same unless an object is made anew that the interpreter keeps. -/
theorem run_writer_content_iff {program : Program} (reachable : Reachable program)
    (options : WriteOptions) {schema : Schema} (proper : schema.Proper) {input written : Value}
    (tidy : input.Proper) (declared : ¬MeetsUndeclared schema input)
    (done : schema.write options input = .ok written) :
    ∃ result, (program.writer options schema).2.run (program.writer options schema).1
        input.freshOrigin input = .ok result ∧
      (result.content = written.content ↔ ¬Recast options schema input) := by
  have made := writer_emits options schema program reachable.sound
  obtain ⟨result, run, answer⟩ := made.spells.tracks.answers proper input.freshOrigin input written
    input.predates_freshOrigin tidy declared done
  exact ⟨result, run, answer.content⟩

theorem run_writer_content_iff_held :
    let schema : Schema := .choice [("xs", some (.array (.leaf .number)))]
    let input : Value := .object (.root 0) [("kind", .string "xs"),
      ("value", .array (.root 1) [.number (.ofInt 1)]), ("extra", .bool true)]
    let made := Program.empty.writer .off schema
    schema.Proper ∧ input.Proper ∧ ¬MeetsUndeclared schema input ∧
      schema.write .off input = .ok input ∧
        ∃ result, made.2.run made.1 input.freshOrigin input = .ok result ∧
          (result.content = input.content ↔ ¬Recast .off schema input) := by
  intro schema input made
  have proper : schema.Proper := by decide +zetaReduce
  have tidy : input.Proper := by decide +zetaReduce
  have declared : ¬MeetsUndeclared schema input :=
    not_meetsUndeclared_of_names rfl rfl not_meetsUndeclared_numbers
  have done : schema.write .off input = .ok input := rfl
  exact ⟨proper, tidy, declared, done,
    run_writer_content_iff .empty .off proper tidy declared done⟩

/-- There the interpreter keeps the property, and generated code drops it. -/
theorem run_writer_drops_property :
    let schema : Schema := .choice [("xs", some (.array (.leaf .number)))]
    let input : Value := .object (.root 0) [("kind", .string "xs"),
      ("value", .array (.root 1) [.number (.ofInt 1)]), ("extra", .bool true)]
    let made := Program.empty.writer .off schema
    ¬MeetsUndeclared schema input ∧ schema.write .off input = .ok input ∧
      ∃ result, made.2.run made.1 input.freshOrigin input = .ok result ∧
        result.content ≠ input.content := by
  intro schema input made
  have declared : ¬MeetsUndeclared schema input :=
    not_meetsUndeclared_of_names rfl rfl not_meetsUndeclared_numbers
  have run : made.2.run made.1 input.freshOrigin input = .ok (.object input.freshOrigin
      [("kind", .string "xs"),
        ("value", .array (input.freshOrigin.enter (.key valueKey)) [.number (.ofInt 1)])]) := rfl
  refine ⟨declared, rfl, _, run, ?_⟩
  simp [input, Value.content, Value.contentEntries, Value.isAbsent]

end WireSchema.Generated
