import WireSchema.Proofs.Convert.CopyOnWrite
import WireSchema.Proofs.Generated.Emission

/-!
Writers that are left out. Nothing is generated for a schema exactly if nothing under it is
converted, in whatever program; the input then stands for what the interpreter would write, unless
that drops a value whose variant is not declared.
-/

set_option autoImplicit false

namespace WireSchema.Schema

open WireSchema.Update (property kindKey valueKey)

variable {schema : Schema} {v : Value}

theorem MeetsUndeclared.ne_absent (met : MeetsUndeclared schema v) : v ≠ .absent := by
  induction met with
  | option _ ih => exact ih
  | _ => simp

theorem MeetsUndeclared.exists_visits (met : MeetsUndeclared schema v) :
    ∃ p variants origin entries kind,
      Visits schema v p (.choice variants) (.object origin entries) ∧
        property kindKey entries = .string kind ∧ kind ∉ Entries.names variants := by
  induction met with
  | option met ih =>
    obtain ⟨p, variants, origin, entries, kind, visits, named⟩ := ih
    exact ⟨p, variants, origin, entries, kind, .option met.ne_absent visits, named⟩
  | array member _ ih =>
    obtain ⟨p, variants, origin, entries, kind, visits, named⟩ := ih
    obtain ⟨i, found⟩ := List.mem_iff_getElem?.mp member
    exact ⟨.index i :: p, variants, origin, entries, kind, .enter (.item found) visits, named⟩
  | @tuple _ _ _ i _ _ here found _ ih =>
    obtain ⟨p, variants, origin, entries, kind, visits, named⟩ := ih
    exact ⟨.index i :: p, variants, origin, entries, kind, .enter (.elem here found) visits, named⟩
  | @object _ _ _ key _ member _ ih =>
    obtain ⟨p, variants, origin, entries, kind, visits, named⟩ := ih
    exact ⟨.key key :: p, variants, origin, entries, kind, .enter (.field member) visits, named⟩
  | here named missing => exact ⟨[], _, _, _, _, .here, named, missing⟩
  | spread tagged declared _ ih =>
    obtain ⟨p, variants, origin, entries, kind, visits, named⟩ := ih
    cases visits with
    | enter enters visits =>
      cases enters with
      | field member =>
        exact ⟨_, variants, origin, entries, kind,
          .enter (.spread tagged declared member) visits, named⟩
  | held tagged declared solid _ ih =>
    obtain ⟨p, variants, origin, entries, kind, visits, named⟩ := ih
    exact ⟨.key valueKey :: p, variants, origin, entries, kind,
      .enter (.held tagged declared solid) visits, named⟩

theorem MeetsUndeclared.dropped {options : WriteOptions} {written : Value}
    (met : MeetsUndeclared schema v) (proper : schema.Proper) (tidy : v.Proper)
    (done : schema.write options v = .ok written) :
    options.choiceFallthrough = true ∧ written ≠ v := by
  obtain ⟨p, variants, origin, entries, kind, visits, named, missing⟩ := met.exists_visits
  have old := v.predates_freshOrigin
  have made : (Engine.write options).convert schema v.freshOrigin v = .ok written := done
  have placed := visits.converted proper old tidy made
  have through : options.choiceFallthrough = true := by
    have landed := (writer_choice_eq_ok named).mp placed
    rw [Entries.get?_eq_none missing] at landed
    exact landed.1
  have changed : Changed (.write options) v.freshOrigin schema v p :=
    ⟨_, _, visits, .dropped through named missing⟩
  refine ⟨through, fun kept => ?_⟩
  exact (unchanged (.write options) schema proper _ v written old tidy made).mp kept p changed

end WireSchema.Schema

namespace WireSchema.Generated

open WireSchema.Schema (MeetsUndeclared)

variable {options : WriteOptions}

private theorem leafWriter_isIdentity (l : Leaf) (p : Program) :
    (p.leafWriter options l).1.isIdentity = (Schema.leaf l).idle options := by
  rw [Schema.idle]
  cases l with
  | number =>
    rw [Program.leafWriter, Leaf.converts]
    cases options.numberPassthrough <;> rfl
  | date | temporal _ =>
    rw [Program.leafWriter, Leaf.converts]
    cases options.dateTimePassthrough <;> rfl
  | _ => rfl

private theorem optional_isIdentity (code : Code) (p : Program) :
    (p.optional code).1.isIdentity = code.isIdentity := by
  rw [Program.optional]
  cases identity : code.isIdentity <;> rfl

private theorem eachWriter_isIdentity (sparing : Bool) (code : Code) (p : Program) :
    (p.eachWriter sparing code).1.isIdentity = code.isIdentity := by
  rw [Program.eachWriter]
  cases identity : code.isIdentity <;> rfl

private theorem positionsWriter_isIdentity (codes : List Code) (p : Program) :
    (p.positionsWriter codes).1.isIdentity = codes.all Code.isIdentity := by
  rw [Program.positionsWriter]
  cases identity : codes.all Code.isIdentity <;> rfl

private theorem objectWriter_isIdentity (sparing : Bool) (codes : List (String × Code))
    (p : Program) : (p.objectWriter sparing codes).1.isIdentity = (changed codes).isEmpty := by
  change (if (changed codes).isEmpty then _ else _ : Code × Program).1.isIdentity = _
  cases identity : (changed codes).isEmpty with
  | true => rfl
  | false => cases sparing <;> rfl

private theorem choiceWriter_isIdentity (lenient : Bool) (arms : List (String × Arm))
    (p : Program) :
    (p.choiceWriter lenient arms).1.isIdentity = arms.all fun arm => keeps arm.2 := by
  change (if (arms.all fun arm => keeps arm.2) then _ else _ : Code × Program).1.isIdentity = _
  cases identity : arms.all fun arm => keeps arm.2 <;> rfl

private theorem elemWriters_all {elems : List Schema}
    (each : ∀ elem ∈ elems, ∀ p : Program,
      (p.writer options elem).1.isIdentity = elem.idle options) (p : Program) :
    (Program.elemWriters options elems p).1.all Code.isIdentity =
      Schema.idleElems options elems := by
  induction elems generalizing p with
  | nil => rfl
  | cons elem rest ih =>
    have first := each elem List.mem_cons_self p
    have others := ih fun elem member => each elem (List.mem_cons_of_mem _ member)
    rw [Program.elemWriters, Schema.idleElems, List.all_cons, first, others]

private theorem fieldWriters_matched {fields : List (String × Schema)}
    (each : ∀ key field, (key, field) ∈ fields → ∀ p : Program,
      (p.writer options field).1.isIdentity = field.idle options) (p : Program) :
    Entries.Matched (fun field code => code.isIdentity = field.idle options) fields
      (Program.fieldWriters options fields p).1 := by
  induction fields generalizing p with
  | nil => exact .nil
  | cons field rest ih =>
    have first := each field.1 field.2 List.mem_cons_self p
    have others := ih fun key field member => each key field (List.mem_cons_of_mem _ member)
    exact .cons ⟨rfl, first⟩ (others _)

private theorem variantWriters_matched {variants : List (String × Option Schema)}
    (each : ∀ kind payload, (kind, some payload) ∈ variants → ∀ p : Program,
      (p.writer options payload).1.isIdentity = payload.idle options) (p : Program) :
    Entries.Matched (KeepsIdle options) variants (Program.variantWriters options variants p).1 := by
  induction variants generalizing p with
  | nil => exact .nil
  | cons variant rest ih =>
    have others := ih fun kind payload member =>
      each kind payload (List.mem_cons_of_mem _ member)
    obtain ⟨kind, payload⟩ := variant
    cases payload with
    | none => exact .cons ⟨rfl, rfl⟩ (others p)
    | some payload =>
      have first := each kind payload List.mem_cons_self p
      exact .cons ⟨rfl, (keeps_armOf _ _).trans first⟩ (others _)

/-- Nothing is generated for a schema exactly if nothing under it is converted. -/
theorem writer_isIdentity (options : WriteOptions) (schema : Schema) (p : Program) :
    (p.writer options schema).1.isIdentity = schema.idle options := by
  induction schema using Schema.byParts generalizing p with
  | leaf l => exact leafWriter_isIdentity l p
  | option inner ih => exact (optional_isIdentity _ _).trans (ih p)
  | array item ih => exact (eachWriter_isIdentity _ _ _).trans (ih p)
  | tuple elems ih => exact (positionsWriter_isIdentity _ _).trans (elemWriters_all ih p)
  | object fields ih =>
    exact (objectWriter_isIdentity _ _ _).trans (changed_isEmpty (fieldWriters_matched ih p))
  | choice variants ih =>
    exact (choiceWriter_isIdentity _ _ _).trans (all_keeps (variantWriters_matched ih p))

private theorem run_identity {code : Code} (identity : code.isIdentity = true) (p : Program)
    (fresh : Origin) (v : Value) : p.run code fresh v = .ok v := by
  rw [Code.eq_identity identity]
  rfl

/-- Where nothing is generated for a schema the input is handed back, and where the interpreter
succeeds it does the same unless the input names an undeclared variant, which the interpreter then
drops. -/
theorem run_collapsed_same_iff (program : Program) (options : WriteOptions) {schema : Schema}
    (proper : schema.Proper) (collapsed : (program.writer options schema).1.isIdentity = true)
    {input written : Value} (tidy : input.Proper)
    (done : schema.write options input = .ok written) :
    (program.writer options schema).2.run (program.writer options schema).1 input.freshOrigin
        input = .ok input ∧
      (written.same input = true ↔ ¬MeetsUndeclared schema input) ∧
      (MeetsUndeclared schema input → options.choiceFallthrough = true) := by
  have old := input.predates_freshOrigin
  have idle : schema.idle options = true := by
    rw [← writer_isIdentity options schema program]
    exact collapsed
  refine ⟨run_identity collapsed _ _ _, ⟨?_, ?_⟩, fun met => (met.dropped proper tidy done).1⟩
  · intro same met
    have kept := Schema.writer_discerning options schema _ input old written done same
    exact (met.dropped proper tidy done).2 kept
  · intro declared
    have spared := Schema.writer_spares options proper input.freshOrigin input written old tidy
      declared done
    rw [spared.mpr (.idle idle)]
    exact Value.same_refl input

theorem run_collapsed_same_iff_held :
    let schema : Schema :=
      .option (.choice [("off", none), ("tags", some (.array (.leaf .string)))])
    let options : WriteOptions := { WriteOptions.off with choiceFallthrough := true }
    let input : Value := .object (.root 0) [("kind", .string "tags"),
      ("value", .array (.root 1) [.string "a"]), ("extra", .bool true)]
    let made := Program.empty.writer options schema
    schema.Proper ∧ made.1.isIdentity = true ∧ input.Proper ∧
      schema.write options input = .ok input ∧
      made.2.run made.1 input.freshOrigin input = .ok input ∧ ¬MeetsUndeclared schema input := by
  intro schema options input made
  have proper : schema.Proper := by decide +zetaReduce
  have tidy : input.Proper := by decide +zetaReduce
  have collapsed : made.1.isIdentity = true := rfl
  have done : schema.write options input = .ok input := rfl
  obtain ⟨run, same, -⟩ :=
    run_collapsed_same_iff Program.empty options proper collapsed tidy done
  exact ⟨proper, collapsed, tidy, done, run, same.mp (Value.same_refl input)⟩

/-- A choice with nothing to convert is left out, also where an undeclared variant is to be
dropped: the interpreter drops it, and the input comes back. -/
theorem run_collapsed_keeps_undeclared :
    let schema : Schema := .choice [("a", none)]
    let options : WriteOptions := { WriteOptions.off with choiceFallthrough := true }
    let input : Value := .object (.root 0) [("kind", .string "b")]
    let made := Program.empty.writer options schema
    made.1.isIdentity = true ∧ made.2.run made.1 input.freshOrigin input = .ok input ∧
      schema.write options input = .ok .absent ∧ Value.absent.same input = false := by
  intro schema options input made
  exact ⟨rfl, rfl, rfl, rfl⟩

end WireSchema.Generated
