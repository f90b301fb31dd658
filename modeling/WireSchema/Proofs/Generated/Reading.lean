import WireSchema.Generated.Deserializer
import WireSchema.Proofs.Generated.Emission

/-!
Generated readers against the interpreter, on every input, also on those that both refuse.
-/

set_option autoImplicit false

namespace WireSchema.Generated

open WireSchema.Convert
open WireSchema.Update (Keeps items copiedItems mapItems changedItems)

def resultBy {α β : Type} (view : α → β) : Except Fault α → Except Cause β
  | .ok a => .ok (view a)
  | .error fault => .error fault.cause

/-- What a conversion comes to without places: the value, or what went wrong. -/
abbrev outcome (x : Except Fault Value) : Except Cause Value :=
  resultBy Value.unplaced x

private theorem exists_of_outcome_eq {x y : Except Fault Value} (alike : outcome x = outcome y) :
    (∃ v w, x = .ok v ∧ y = .ok w ∧ v.unplaced = w.unplaced) ∨
      ∃ f g, x = .error f ∧ y = .error g ∧ f.cause = g.cause := by
  cases x with
  | ok v =>
    cases y with
    | ok w => exact Or.inl ⟨v, w, rfl, rfl, Except.ok.inj alike⟩
    | error g => simp [resultBy] at alike
  | error f =>
    cases y with
    | ok w => simp [resultBy] at alike
    | error g => exact Or.inr ⟨f, g, rfl, rfl, Except.error.inj alike⟩

@[simp] private theorem outcome_located (step : Step) (x : Except Fault Value) :
    outcome (located step x) = outcome x := by
  cases x <;> rfl

private theorem mapItems_congr {ε : Type} {f g : Nat → Value → Except ε Value} {i : Nat}
    {values : List Value} (alike : ∀ j x, values[j]? = some x → f (i + j) x = g (i + j) x) :
    mapItems f i values = mapItems g i values := by
  induction values generalizing i with
  | nil => rfl
  | cons x rest ih =>
    have first : f i x = g i x := alike 0 x rfl
    have others : mapItems f (i + 1) rest = mapItems g (i + 1) rest := by
      refine ih fun j y found => ?_
      have there := alike (j + 1) y (by simpa using found)
      rwa [← Nat.add_assoc, Nat.add_right_comm] at there
    simp only [mapItems, first, others]

private theorem resultBy_mapItems {f : Nat → Value → Except Fault Value} {i : Nat}
    {values : List Value} :
    resultBy (List.map Value.unplaced) (mapItems f i values) =
      mapItems (fun j x => outcome (f j x)) i values := by
  induction values generalizing i with
  | nil => rfl
  | cons x rest ih =>
    rw [mapItems, mapItems, ← ih]
    cases f i x with
    | error fault => rfl
    | ok y =>
      cases mapItems f (i + 1) rest with
      | error fault => rfl
      | ok more => rfl

private theorem resultBy_changedItems {f : Nat → Value → Except Fault Value} {i : Nat}
    {values : List Value} (keeps : ∀ j, ∀ x ∈ values, Keeps (f j x) x) :
    resultBy (fun changed => (changed.getD values).map Value.unplaced) (changedItems f i values) =
      mapItems (fun j x => outcome (f j x)) i values := by
  induction values generalizing i with
  | nil => rfl
  | cons x rest ih =>
    have ih := @ih (i + 1) fun j y member => keeps j y (List.mem_cons_of_mem _ member)
    rw [changedItems, mapItems, ← ih]
    cases one : f i x with
    | error fault => rfl
    | ok y =>
      simp only [ok_bind]
      by_cases same : y.same x = true
      · obtain rfl : y = x := keeps i x List.mem_cons_self y one same
        rw [if_pos same]
        cases changedItems f (i + 1) rest with
        | error fault => rfl
        | ok more => cases more <;> rfl
      · rw [if_neg same, ih, ← resultBy_mapItems]
        cases mapItems f (i + 1) rest with
        | error fault => rfl
        | ok more => rfl

private theorem outcome_copiedItems {f : Nat → Value → Except Fault Value} {fresh : Origin}
    {values : List Value} :
    outcome (copiedItems fresh f values) =
      (mapItems (fun j x => outcome (f j x)) 0 values).map (Value.array (.root 0)) := by
  rw [copiedItems, ← resultBy_mapItems]
  cases mapItems f 0 values with
  | error fault => rfl
  | ok results => exact congrArg Except.ok (Value.unplaced_array fresh results)

private theorem outcome_items {f : Nat → Value → Except Fault Value} {fresh origin : Origin}
    {values : List Value} (keeps : ∀ j, ∀ x ∈ values, Keeps (f j x) x) :
    outcome (items fresh f origin values) =
      (mapItems (fun j x => outcome (f j x)) 0 values).map (Value.array (.root 0)) := by
  rw [items, ← resultBy_changedItems keeps]
  cases changedItems f 0 values with
  | error fault => rfl
  | ok changed =>
    cases changed with
    | none => exact congrArg Except.ok (Value.unplaced_array origin values)
    | some results => exact congrArg Except.ok (Value.unplaced_array fresh results)

def SameOutcome (c d : Conversion Fault) : Prop :=
  ∀ fresh v, v.Predates fresh → outcome (c fresh v) = outcome (d fresh v)

private theorem sameOutcome_convertEach {c d : Conversion Fault} (left : Discerning c)
    (right : Discerning d) (alike : SameOutcome c d) :
    SameOutcome (convertEach c) (convertEach d) := by
  intro fresh v old
  cases v with
  | array origin values =>
    have keeps : ∀ c : Conversion Fault, Discerning c → ∀ j, ∀ x ∈ values,
        Keeps (located (.index j) (c (fresh.enter (.index j)) x)) x :=
      fun c discerning j x member r done =>
        discerning _ x ((old.item member).enter _) r (located_eq_ok.mp done)
    change outcome (items _ _ _ _) = outcome (items _ _ _ _)
    rw [outcome_items (keeps c left), outcome_items (keeps d right)]
    refine congrArg (Except.map _) (mapItems_congr fun j x found => ?_)
    simp only [outcome_located]
    exact alike _ x ((old.item (List.mem_of_getElem? found)).enter _)
  | _ => rfl

private theorem sameOutcome_positions {cs ds : List (Conversion Fault)}
    (length : cs.length = ds.length) (discerning : ∀ d ∈ ds, Discerning d)
    (parts : ∀ (j : Nat) (c d : Conversion Fault), cs[j]? = some c → ds[j]? = some d → SameOutcome c d) :
    SameOutcome (copyPositions cs) (convertPositions ds) := by
  intro fresh v old
  cases v with
  | array origin values =>
    simp only [copyPositions, convertPositions, Leaf.readItems, Value.asArray, ok_bind, length]
    by_cases size : values.length = ds.length
    · rw [if_pos size, if_pos size]
      refine outcome_copiedItems.trans (.trans ?_ (outcome_items
        (keeps_positions discerning old fun j x => by cases ds[j]? <;> rfl)).symm)
      refine congrArg (Except.map _) (mapItems_congr fun j x found => ?_)
      have within : j < values.length := (List.getElem?_eq_some_iff.mp found).1
      have left : cs[j]? = some cs[j] := List.getElem?_eq_getElem (by omega)
      have right : ds[j]? = some ds[j] := List.getElem?_eq_getElem (by omega)
      simp only [Nat.zero_add, left, right, outcome_located]
      exact parts j _ _ left right _ x ((old.item (List.mem_of_getElem? found)).enter _)
    · rw [if_neg size, if_neg size]
      rfl
  | _ => rfl

structure Reads (schema : Schema) (c : Conversion Fault) : Prop where
  discerning : Discerning c
  agrees : SameOutcome c (Schema.reader schema)

private theorem discerning_identity : Discerning (fun _ v => .ok v) :=
  fun _ _ _ _ done _ => (Except.ok.inj done).symm

private theorem run_leafReader (helpers : Nat → Conversion Fault) (l : Leaf) (p : Program) :
    (p.leafReader l).1.run helpers = l.read := by
  cases l <;> rfl

private theorem reads_leaf (helpers : Nat → Conversion Fault) (l : Leaf) (p : Program) :
    Reads (.leaf l) ((p.leafReader l).1.run helpers) := by
  rw [run_leafReader]
  exact ⟨Schema.reader_discerning (.leaf l), fun _ _ _ => rfl⟩

private theorem reads_optional {helpers : Nat → Conversion Fault} {inner : Schema} {code : Code}
    (part : Reads inner (code.run helpers)) (p : Program) :
    Reads (.option inner) ((p.optional code).1.run helpers) := by
  rw [Program.optional]
  split
  · next same =>
    obtain rfl := Code.eq_identity same
    refine ⟨discerning_identity, fun fresh v old => ?_⟩
    simp only [Schema.reader, Code.run]
    split
    · next empty => rw [Value.isAbsent_eq_true.mp empty]
    · exact part.agrees fresh v old
  · constructor
    · intro fresh v old r done same
      simp only [Code.run] at done
      split at done
      · next empty => rw [Value.isAbsent_eq_true.mp empty, Except.ok.inj done]
      · exact part.discerning fresh v old r done same
    · intro fresh v old
      simp only [Code.run, Schema.reader]
      split
      · rfl
      · exact part.agrees fresh v old

private theorem reads_each {helpers : Nat → Conversion Fault} {item : Schema} {code : Code}
    (part : Reads item (code.run helpers)) (p : Program) :
    Reads (.array item) ((p.eachReader code).1.run helpers) := by
  have checked : Reads (.array item) ((Code.eachChecked code).run helpers) := by
    constructor
    · intro fresh v old r done same
      cases v with
      | array origin values => exact convertEach_discerning _ fresh _ old r done same
      | _ => simp [Code.run, Leaf.readArray, Value.mistyped] at done
    · intro fresh v old
      rw [Schema.reader, ← sameOutcome_convertEach part.discerning
        (Schema.reader_discerning item) part.agrees fresh v old]
      cases v <;> rfl
  simp only [Program.eachReader, Program.calling]
  split
  · next same =>
    -- an array of items that are left alone is only looked at
    obtain rfl := Code.eq_identity same
    refine ⟨?_, fun fresh v old => ?_⟩
    · intro fresh v old r done _
      cases v with
      | array origin values => exact (Except.ok.inj done).symm
      | _ => simp [Code.run, Routine.run, Leaf.readArray, Value.mistyped] at done
    · rw [← checked.agrees fresh v old]
      cases v with
      | array origin values =>
        have kept : convertEach (Code.identity.run helpers) fresh (.array origin values) =
            .ok (.array origin values) :=
          (convertEach_eq_ok_iff discerning_identity old).mpr
            ⟨origin, values, values, rfl, rfl, fun j x found => ⟨x, found, rfl⟩, Or.inl ⟨rfl, rfl⟩⟩
        exact congrArg outcome kept.symm
      | _ => rfl
  · exact checked

private theorem reads_positions {helpers : Nat → Conversion Fault} {elems : List Schema}
    {codes : List Code}
    (parts : List.Forall₂ (fun elem code => Reads elem (code.run helpers)) elems codes)
    (p : Program) : Reads (.tuple elems) ((p.positionsReader codes).1.run helpers) := by
  obtain ⟨length, each⟩ := List.forall₂_iff_get.mp parts
  simp only [Program.positionsReader, Code.run, Code.runs_eq_map]
  constructor
  · intro fresh v old r done same
    obtain ⟨origin, values, results, rfl, -, -, -, rfl⟩ := copyPositions_eq_ok_iff.mp done
    exact keeps_of_array_shape old (Or.inr ⟨results, rfl⟩) same
  · rw [Schema.reader]
    refine sameOutcome_positions ?_ (fun d => Schema.elemReaders_discerning) ?_
    · simp [Schema.elemReaders_eq_map, length]
    · intro j c d here there
      rw [Schema.elemReaders_eq_map, List.getElem?_map] at there
      rw [List.getElem?_map] at here
      obtain ⟨code, found, rfl⟩ := Option.map_eq_some_iff.mp here
      obtain ⟨elem, found', rfl⟩ := Option.map_eq_some_iff.mp there
      obtain ⟨within, rfl⟩ := List.getElem?_eq_some_iff.mp found
      obtain ⟨within', rfl⟩ := List.getElem?_eq_some_iff.mp found'
      exact (each j within' within).agrees

private theorem reads_elems {helpers : Nat → Conversion Fault} {elems : List Schema}
    (each : ∀ elem ∈ elems, ∀ (p : Program) (code : Code),
      (Program.reader elem p).1 = .ok code → Reads elem (code.run helpers))
    {p : Program} {codes : List Code} (made : (Program.elemReaders elems p).1 = .ok codes) :
    List.Forall₂ (fun elem code => Reads elem (code.run helpers)) elems codes := by
  induction elems generalizing p codes with
  | nil =>
    obtain rfl : [] = codes := Except.ok.inj made
    exact .nil
  | cons elem rest ih =>
    have first := each elem List.mem_cons_self p
    have others := fun q => @ih (fun elem member => each elem (List.mem_cons_of_mem _ member)) q
    rw [Program.elemReaders] at made
    split at made
    · next code q one =>
      split at made
      · next more r two =>
        obtain rfl := Except.ok.inj made
        exact .cons (first code (by rw [one])) (others q (by rw [two]))
      · simp at made
    · simp at made

/-- Whatever the program, the code of a reader comes to what reading comes to. -/
private theorem reader_reads (helpers : Nat → Conversion Fault) (schema : Schema) :
    ∀ (p : Program) (code : Code), (Program.reader schema p).1 = .ok code →
      Reads schema (code.run helpers) := by
  induction schema using Schema.byParts with
  | leaf l =>
    intro p code made
    obtain rfl := Except.ok.inj made
    exact reads_leaf helpers l p
  | option inner ih =>
    intro p code made
    rw [Program.reader] at made
    split at made
    · next part q one =>
      obtain rfl := Except.ok.inj made
      exact reads_optional (ih p part (by rw [one])) q
    · simp at made
  | array item ih =>
    intro p code made
    rw [Program.reader] at made
    split at made
    · next part q one =>
      obtain rfl := Except.ok.inj made
      exact reads_each (ih p part (by rw [one])) q
    · simp at made
  | tuple elems ih =>
    intro p code made
    rw [Program.reader] at made
    split at made
    · next parts q one =>
      obtain rfl := Except.ok.inj made
      exact reads_positions (reads_elems ih (by rw [one])) q
    · simp at made
  | object fields _ =>
    intro p code made
    simp [Program.reader] at made
  | choice variants _ =>
    intro p code made
    simp [Program.reader] at made

/-- One schema stands in another, at any depth, or is it. -/
inductive Within (part : Schema) : Schema → Prop where
  | here : Within part part
  | option {inner : Schema} : Within part inner → Within part (.option inner)
  | array {item : Schema} : Within part item → Within part (.array item)
  | tuple {elems : List Schema} {elem : Schema} : elem ∈ elems → Within part elem →
      Within part (.tuple elems)
  | object {fields : List (String × Schema)} {key : String} {field : Schema} :
      (key, field) ∈ fields → Within part field → Within part (.object fields)
  | choice {variants : List (String × Option Schema)} {kind : String} {payload : Schema} :
      (kind, some payload) ∈ variants → Within part payload → Within part (.choice variants)

/-- No object and no choice stands in the schema. -/
def Positional (schema : Schema) : Prop :=
  ∀ part, Within part schema → part.kind ≠ .object ∧ part.kind ≠ .choice

private theorem positional_leaf (l : Leaf) : Positional (.leaf l) := by
  intro part within
  cases within
  simp [Schema.kind]

private theorem positional_option {inner : Schema} :
    Positional (.option inner) ↔ Positional inner := by
  constructor
  · exact fun flat part within => flat part (.option within)
  · intro flat part within
    cases within with
    | here => simp [Schema.kind]
    | option within => exact flat part within

private theorem positional_array {item : Schema} : Positional (.array item) ↔ Positional item := by
  constructor
  · exact fun flat part within => flat part (.array within)
  · intro flat part within
    cases within with
    | here => simp [Schema.kind]
    | array within => exact flat part within

private theorem positional_tuple {elems : List Schema} :
    Positional (.tuple elems) ↔ ∀ elem ∈ elems, Positional elem := by
  constructor
  · exact fun flat elem member part within => flat part (.tuple member within)
  · intro flat part within
    cases within with
    | here => simp [Schema.kind]
    | tuple member within => exact flat _ member part within

private theorem elemReaders_ok_iff {elems : List Schema}
    (each : ∀ elem ∈ elems, ∀ p : Program,
      (∃ code, (Program.reader elem p).1 = .ok code) ↔ Positional elem) (p : Program) :
    (∃ codes, (Program.elemReaders elems p).1 = .ok codes) ↔ ∀ elem ∈ elems, Positional elem := by
  induction elems generalizing p with
  | nil => simp [Program.elemReaders]
  | cons elem rest ih =>
    have first := each elem List.mem_cons_self p
    have others := ih fun elem member => each elem (List.mem_cons_of_mem _ member)
    rw [Program.elemReaders, List.forall_mem_cons]
    split
    · next code q one =>
      rw [← others q, ← first, one]
      split
      · next two => simp [two]
      · next two => simp [two]
    · next one => simp [← first, one]

private theorem reader_ok_iff (schema : Schema) :
    ∀ p : Program, (∃ code, (Program.reader schema p).1 = .ok code) ↔ Positional schema := by
  induction schema using Schema.byParts with
  | leaf l => exact fun p => iff_of_true ⟨_, rfl⟩ (positional_leaf l)
  | option inner ih =>
    intro p
    rw [Program.reader, positional_option, ← ih p]
    split
    · next one => simp [one]
    · next one => simp [one]
  | array item ih =>
    intro p
    rw [Program.reader, positional_array, ← ih p]
    split
    · next one => simp [one]
    · next one => simp [one]
  | tuple elems ih =>
    intro p
    rw [Program.reader, positional_tuple, ← elemReaders_ok_iff ih p]
    split
    · next one => simp [one]
    · next one => simp [one]
  | object fields _ =>
    intro p
    refine iff_of_false (by simp [Program.reader]) fun flat => ?_
    exact (flat _ .here).1 rfl
  | choice variants _ =>
    intro p
    refine iff_of_false (by simp [Program.reader]) fun flat => ?_
    exact (flat _ .here).2 rfl

/-- A reader is generated exactly for the schemas without objects and choices. On every input it
then does what the interpreter does: both succeed with the same value, or both fail for the same
cause. -/
theorem run_reader_agrees (program : Program) (schema : Schema) :
    ((∃ code, (program.reader schema).1 = .ok code) ↔
      ∀ part, Within part schema → part.kind ≠ .object ∧ part.kind ≠ .choice) ∧
    ∀ code, (program.reader schema).1 = .ok code → ∀ input : Value,
      (∃ made native, (program.reader schema).2.run code input.freshOrigin input = .ok made ∧
        schema.read input = .ok native ∧ made.unplaced = native.unplaced) ∨
      ∃ fault fault', (program.reader schema).2.run code input.freshOrigin input = .error fault ∧
        schema.read input = .error fault' ∧ fault.cause = fault'.cause := by
  refine ⟨reader_ok_iff schema program, fun code made input => ?_⟩
  have reads := reader_reads (lookup (helperRuns (program.reader schema).2.helpers)) schema program
    code made
  exact exists_of_outcome_eq (reads.agrees _ input input.predates_freshOrigin)

theorem run_reader_agrees_pair :
    let schema : Schema := .tuple [.leaf .bool, .array (.leaf .string)]
    let input : Value := .array (.root 0) [.bool true, .array (.root 1) [.string "a", .null]]
    ∃ code fault fault', (Program.empty.reader schema).1 = .ok code ∧
      (Program.empty.reader schema).2.run code input.freshOrigin input = .error fault ∧
      schema.read input = .error fault' ∧ fault.cause = fault'.cause := by
  intro schema input
  have made : (Program.empty.reader schema).1 =
      .ok (.positionsChecked [.routine .parseBoolean, .eachChecked (.routine .parseString)]) := rfl
  have refused : schema.read input =
      .error ⟨.invalidType "string" "null", [.index 1, .index 1]⟩ := rfl
  rcases (run_reader_agrees Program.empty schema).2 _ made input with
    ⟨-, native, -, done, -⟩ | ⟨fault, fault', run, read, same⟩
  · exact absurd (refused.symm.trans done) (by simp)
  · exact ⟨_, fault, fault', made, run, read, same⟩

end WireSchema.Generated
