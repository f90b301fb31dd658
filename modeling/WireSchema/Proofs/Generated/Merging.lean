import WireSchema.Proofs.Convert.Twins
import WireSchema.Proofs.Generated.Agreement

/-!
Helpers that are shared. The code for a schema, with the bodies of the helpers it calls, tells
everything about the schema that decides what is written; what it does not tell, such as fields
under which nothing is converted, decides nothing. So schemas that come to the same code in one
program are written alike.
-/

set_option autoImplicit false

namespace WireSchema.Generated

open WireSchema.Schema (MeetsUndeclared WritesAlike PayloadsAlike Told idlePayload)

variable {options : WriteOptions} {p q : Program} {schema s t : Schema} {code : Code}

inductive LeafShaped : Leaf → Code → Prop where
  | number : LeafShaped .number (.routine .serializeNumber)
  | bigint : LeafShaped .bigint .bigintText
  | u64 : LeafShaped .u64 .bigintText
  | i64 : LeafShaped .i64 .bigintText
  | date : LeafShaped .date .dateText
  | temporal (kind : TemporalKind) : LeafShaped (.temporal kind) (.temporalText kind)

inductive ArmFits (options : WriteOptions) : Option Schema → Arm → Prop where
  | keep {payload : Option Schema} : idlePayload options payload → ArmFits options payload .keep
  | whole {fields : List (String × Schema)} {code : Code} :
      ArmFits options (some (.object fields)) (.whole code)
  | payload {payload : Schema} {code : Code} : payload.isObject = false →
      ArmFits options (some payload) (.payload code)

/-- An expression has the shape of a schema, and so have the helpers that it calls. -/
inductive Shaped (options : WriteOptions) (helpers : List Body) : Schema → Code → Prop where
  | idle {schema : Schema} : schema.idle options = true → Shaped options helpers schema .identity
  | leaf {l : Leaf} {code : Code} : l.converts options = true → LeafShaped l code →
      Shaped options helpers (.leaf l) code
  | option {inner : Schema} {code : Code} : Shaped options helpers inner code →
      Shaped options helpers (.option inner) (.whenPresent code)
  | array {item : Schema} {code : Code} {sparing : Bool} : Shaped options helpers item code →
      Shaped options helpers (.array item) (.each sparing code)
  | tuple {elems : List Schema} {codes : List Code} : codes.length = elems.length →
      (∀ (i : Nat) (elem : Schema) (code : Code), elems[i]? = some elem → codes[i]? = some code →
        Shaped options helpers elem code) →
      Shaped options helpers (.tuple elems) (.positions codes)
  | object {fields : List (String × Schema)} {parts : List (String × Code)} {body : Body}
      {i : Nat} :
      helpers[i]? = some body → body = .copying parts ∨ body = .sparing parts →
      Told options fields parts →
      (∀ key field code, Entries.get? key fields = some field → Entries.get? key parts = some code →
        Shaped options helpers field code) →
      Shaped options helpers (.object fields) (.helper i)
  | choice {variants : List (String × Option Schema)} {arms : List (String × Arm)} {lenient : Bool}
      {i : Nat} : helpers[i]? = some (.dispatch arms lenient) →
      (∀ kind payload, Entries.get? kind variants = some payload →
        ∃ arm, Entries.get? kind arms = some arm ∧ ArmFits options payload arm) →
      (∀ kind payload arm code, Entries.get? kind variants = some (some payload) →
        Entries.get? kind arms = some arm → arm = .whole code ∨ arm = .payload code →
        Shaped options helpers payload code) →
      Shaped options helpers (.choice variants) (.helper i)

theorem Shaped.mono {helpers later : List Body} (shaped : Shaped options helpers schema code)
    (grown : helpers <+: later) : Shaped options later schema code := by
  have kept : ∀ {i : Nat} {body : Body}, helpers[i]? = some body → later[i]? = some body := by
    intro i body here
    obtain ⟨more, rfl⟩ := grown
    rw [List.getElem?_append_left (List.getElem?_eq_some_iff.mp here).1, here]
  induction shaped with
  | idle idle => exact .idle idle
  | leaf converts shape => exact .leaf converts shape
  | option _ ih => exact .option ih
  | array _ ih => exact .array ih
  | tuple length _ ih => exact .tuple length ih
  | object here body told _ ih => exact .object (kept here) body told ih
  | choice here fits _ ih => exact .choice (kept here) fits ih

structure Bears (options : WriteOptions) (program : Program) (schema : Schema) (code : Code) :
    Prop where
  spells : Spells options program schema code
  shaped : Shaped options program.helpers schema code

private theorem lasting_bears : Lasting (Bears options) :=
  fun _ _ _ _ grown bears => ⟨bears.spells.mono grown, bears.shaped.mono grown⟩

private theorem shaped_leafWriter (l : Leaf) (p : Program) :
    Shaped options (p.leafWriter options l).2.helpers (.leaf l) (p.leafWriter options l).1 := by
  have busy : ∀ passed : Bool, ¬passed = true → (!passed) = true := by simp
  cases l with
  | bool | string | int | u32 | i32 | json => exact .idle rfl
  | bigint => exact .leaf rfl .bigint
  | u64 => exact .leaf rfl .u64
  | i64 => exact .leaf rfl .i64
  | number =>
    rw [Program.leafWriter]
    split
    · next passed => exact .idle (by simp [Schema.idle, Leaf.converts, passed])
    · next changed => exact .leaf (busy _ changed) .number
  | date =>
    rw [Program.leafWriter]
    split
    · next passed => exact .idle (by simp [Schema.idle, Leaf.converts, passed])
    · next changed => exact .leaf (busy _ changed) .date
  | temporal kind =>
    rw [Program.leafWriter]
    split
    · next passed => exact .idle (by simp [Schema.idle, Leaf.converts, passed])
    · next changed => exact .leaf (busy _ changed) (.temporal kind)

private theorem shaped_optional (part : Bears options p schema code) :
    Shaped options (p.optional code).2.helpers (.option schema) (p.optional code).1 := by
  rw [Program.optional]
  cases identity : code.isIdentity with
  | true => exact .idle (part.spells.idle ▸ identity)
  | false => exact .option part.shaped

private theorem shaped_eachWriter {sparing : Bool} (part : Bears options p schema code) :
    Shaped options (p.eachWriter sparing code).2.helpers (.array schema)
      (p.eachWriter sparing code).1 := by
  rw [Program.eachWriter]
  cases identity : code.isIdentity with
  | true => exact .idle (part.spells.idle ▸ identity)
  | false => exact .array part.shaped

private theorem shaped_positionsWriter {elems : List Schema} {codes : List Code}
    (parts : List.Forall₂ (Bears options p) elems codes)
    (spells : Spells options (p.positionsWriter codes).2 (.tuple elems)
      (p.positionsWriter codes).1) :
    Shaped options (p.positionsWriter codes).2.helpers (.tuple elems)
      (p.positionsWriter codes).1 := by
  obtain ⟨length, each⟩ := List.forall₂_iff_get.mp parts
  have idle := spells.idle
  rw [Program.positionsWriter] at idle ⊢
  cases identity : codes.all Code.isIdentity with
  | true =>
    rw [identity] at idle
    exact .idle idle.symm
  | false =>
    refine .tuple length.symm fun i elem code here there => ?_
    obtain ⟨within, rfl⟩ := List.getElem?_eq_some_iff.mp here
    obtain ⟨within', rfl⟩ := List.getElem?_eq_some_iff.mp there
    exact (each i within within').shaped

private theorem told_changed {fields : List (String × Schema)} {codes : List (String × Code)}
    (parts : Entries.Matched (Bears options p) fields codes) (distinct : Entries.Distinct fields) :
    Told options fields (changed codes) ∧
      ∀ key field code, Entries.get? key fields = some field →
        Entries.get? key (changed codes) = some code → Shaped options p.helpers field code := by
  refine ⟨⟨fun key named => ?_, fun key field found missing => ?_⟩,
    fun key field code found there => ?_⟩
  · obtain ⟨code, there⟩ := Entries.exists_get?_of_mem_names named
    have member := (List.mem_filter.mp (Entries.mem_of_get? there)).1
    rw [← parts.names_eq]
    exact Entries.mem_names_of_mem member
  · obtain ⟨code, member, bears⟩ := parts.exists_right (Entries.mem_of_get? found)
    rw [← bears.spells.idle]
    by_contra busy
    have kept : (key, code) ∈ changed codes := List.mem_filter.mpr ⟨member, by simp [busy]⟩
    exact Entries.get?_eq_none_iff.mp missing (Entries.mem_names_of_mem kept)
  · have member := (List.mem_filter.mp (Entries.mem_of_get? there)).1
    obtain ⟨other, declared, bears⟩ := parts.exists_left member
    obtain rfl : field = other := Option.some.inj
      (found.symm.trans (Entries.get?_of_mem distinct declared))
    exact bears.shaped

private theorem shaped_objectWriter {sparing : Bool} {fields : List (String × Schema)}
    {codes : List (String × Code)} (parts : Entries.Matched (Bears options p) fields codes)
    (distinct : Entries.Distinct fields) (sound : p.Sound) :
    Shaped options (p.objectWriter sparing codes).2.helpers (.object fields)
      (p.objectWriter sparing codes).1 := by
  obtain ⟨told, shaped⟩ := told_changed parts distinct
  have idle := changed_isEmpty (parts.imp fun _ _ part => part.spells.idle)
  have writes : ∀ key code, (key, code) ∈ changed codes → code.Writes p.helpers.length := by
    intro key code member
    obtain ⟨field, -, bears⟩ := parts.exists_left (List.mem_filter.mp member).1
    exact bears.spells.writes
  rw [Program.objectWriter]
  change Shaped options (if (changed codes).isEmpty then _ else _ : Code × Program).2.helpers _
    (if (changed codes).isEmpty then _ else _ : Code × Program).1
  cases none : (changed codes).isEmpty with
  | true => exact .idle (idle ▸ none)
  | false =>
    cases sparing with
    | true =>
      have sound' : (((p.importing cowPath "set_cow_property").importing cowPath
        "finish_cow")).Sound := sound
      obtain ⟨-, grown, here⟩ := sound'.define (.sparing writes)
      exact .object here (Or.inr rfl) told fun key field code found there =>
        (shaped key field code found there).mono grown
    | false =>
      have sound' : (((p.importing rootPath "Value").importing accessPath
        "shallow_copy").importing accessPath "map_field").Sound := sound
      obtain ⟨-, grown, here⟩ := sound'.define (.copying writes)
      exact .object here (Or.inl rfl) told fun key field code found there =>
        (shaped key field code found there).mono grown

private theorem ArmSaid.fits {payload : Option Schema} {arm : Arm}
    (said : ArmSaid (Bears options p) payload arm) : ArmFits options payload arm := by
  cases said with
  | bare => exact .keep trivial
  | @payload payload code part =>
    rw [Program.armOf]
    cases identity : code.isIdentity with
    | true => exact .keep (part.spells.idle.symm.trans identity)
    | false =>
      cases object : payload.isObject with
      | true =>
        obtain ⟨fields, rfl⟩ := Schema.isObject_eq_true.mp object
        exact .whole
      | false => exact .payload object

private theorem ArmSaid.shaped {payload : Schema} {arm : Arm}
    (said : ArmSaid (Bears options p) (some payload) arm)
    (converts : arm = .whole code ∨ arm = .payload code) :
    Shaped options p.helpers payload code := by
  cases said with
  | @payload _ made part =>
    have same : made = code := by
      rw [Program.armOf] at converts
      cases identity : made.isIdentity <;> cases object : payload.isObject <;>
        simp_all
    exact same ▸ part.shaped

private theorem shaped_choiceWriter {lenient : Bool} {variants : List (String × Option Schema)}
    {arms : List (String × Arm)} (parts : Entries.Matched (ArmSaid (Bears options p)) variants arms)
    (sound : p.Sound) :
    Shaped options (p.choiceWriter lenient arms).2.helpers (.choice variants)
      (p.choiceWriter lenient arms).1 := by
  have spelled : Entries.Matched (ArmSpells options p) variants arms :=
    parts.imp fun _ _ said => said.spells fun _ _ bears => bears.spells
  have idle := all_keeps (spelled.imp fun _ _ arm => arm.keepsIdle)
  rw [Program.choiceWriter]
  change Shaped options
    (if (arms.all fun arm => keeps arm.2) then _ else _ : Code × Program).2.helpers
    _ (if (arms.all fun arm => keeps arm.2) then _ else _ : Code × Program).1
  cases kept : (arms.all fun arm => keeps arm.2) with
  | true => exact .idle (idle ▸ kept)
  | false =>
    let r := (Program.importingArms arms (p.importing accessPath "discriminant")).importing rootPath
      (if lenient then "Value" else "Error")
    have same : r.helpers = p.helpers := importingArms_helpers arms _
    have writes : (Body.dispatch arms lenient).Writes r.helpers.length := by
      refine .dispatch lenient fun kind arm member => ?_
      obtain ⟨payload, -, spells⟩ := spelled.exists_left member
      exact same ▸ spells.writes
    obtain ⟨-, grown, here⟩ := (sound.grows_of_helpers same).sound.define writes
    refine .choice here (fun kind payload found => ?_)
      fun kind payload arm code found there made => ?_
    · have related := parts.get? kind
      rw [found] at related
      cases there : Entries.get? kind arms with
      | none => rw [there] at related; cases related
      | some arm =>
        rw [there] at related
        cases related with
        | some said => exact ⟨arm, rfl, said.fits⟩
    · have related := parts.get? kind
      rw [found, there] at related
      cases related with
      | some said => exact (said.shaped made).mono (same ▸ grown)

theorem writer_bears (options : WriteOptions) {schema : Schema} (proper : schema.Proper) :
    Holds options (Bears options) schema := by
  have whole : ∀ {schema : Schema}, (∀ p : Program, p.Sound →
      Shaped options (p.writer options schema).2.helpers schema (p.writer options schema).1) →
      Holds options (Bears options) schema := by
    intro schema shaped p sound
    have emits := writer_emits options schema p sound
    exact ⟨emits.grows, emits.spells, shaped p sound⟩
  induction proper with
  | leaf l => exact whole fun p _ => shaped_leafWriter l p
  | option _ ih => exact whole fun p sound => shaped_optional (ih p sound).2
  | array _ ih => exact whole fun p sound => shaped_eachWriter (ih p sound).2
  | @tuple elems _ ih =>
    refine whole fun p sound => ?_
    obtain ⟨-, parts⟩ := holds_elems lasting_bears ih sound
    exact shaped_positionsWriter parts (writer_emits options (.tuple elems) p sound).spells
  | object distinct _ ih =>
    refine whole fun p sound => ?_
    obtain ⟨grows, parts⟩ := holds_fields lasting_bears ih sound
    exact shaped_objectWriter parts distinct grows.sound
  | choice _ _ ih =>
    refine whole fun p sound => ?_
    obtain ⟨grows, parts⟩ := holds_variants lasting_bears ih sound
    exact shaped_choiceWriter parts grows.sound

private theorem LeafShaped.write_eq {l m : Leaf} (left : LeafShaped l code)
    (right : LeafShaped m code) (v : Value) : l.write options v = m.write options v := by
  cases left <;> cases right <;> rfl

private theorem LeafShaped.ne_identity {l : Leaf} (shape : LeafShaped l .identity) : False := by
  cases shape

private theorem ArmFits.alike {left right : Option Schema} {arm : Arm}
    (fits : ArmFits options left arm) (fits' : ArmFits options right arm)
    (parts : ∀ code, arm = .whole code ∨ arm = .payload code → ∀ s t, left = some s →
      right = some t → WritesAlike options s t) : PayloadsAlike options left right := by
  cases fits with
  | keep idle =>
    cases fits' with
    | keep idle' => exact .idle idle idle'
  | @whole fields code =>
    cases fits' with
    | whole => exact .spread (parts code (Or.inl rfl) _ _ rfl rfl)
  | @payload payload code solid =>
    cases fits' with
    | payload solid' => exact .held solid solid' (parts code (Or.inr rfl) _ _ rfl rfl)

private theorem same_parts {body : Body} {parts parts' : List (String × Code)}
    (left : body = .copying parts ∨ body = .sparing parts)
    (right : body = .copying parts' ∨ body = .sparing parts') : parts = parts' := by
  rcases left with rfl | rfl <;> simpa using right

/-- Schemas that one expression has the shape of are written alike. -/
theorem Shaped.writesAlike {helpers : List Body} (left : Shaped options helpers s code)
    (right : Shaped options helpers t code) (proper : s.Proper) (proper' : t.Proper) :
    WritesAlike options s t := by
  induction left generalizing t with
  | idle idle =>
    cases right with
    | idle idle' => exact Schema.writesAlike_idle proper proper' idle idle'
    | leaf _ shape => exact shape.ne_identity.elim
  | leaf converts shape =>
    cases right with
    | idle => exact shape.ne_identity.elim
    | leaf _ shape' => exact Schema.writesAlike_leaf (shape.write_eq shape')
    | _ => cases shape
  | option _ ih =>
    cases proper with
    | option proper =>
      cases right with
      | leaf _ shape => cases shape
      | option part =>
        cases proper' with
        | option proper' => exact Schema.writesAlike_option (ih part proper proper')
  | array _ ih =>
    cases proper with
    | array proper =>
      cases right with
      | leaf _ shape => cases shape
      | array part =>
        cases proper' with
        | array proper' => exact Schema.writesAlike_array (ih part proper proper')
  | tuple length _ ih =>
    cases proper with
    | tuple proper =>
      cases right with
      | leaf _ shape => cases shape
      | tuple length' parts =>
        cases proper' with
        | tuple proper' =>
          refine Schema.writesAlike_tuple fun j s t here there => ?_
          have within := (List.getElem?_eq_some_iff.mp here).1
          have code := List.getElem?_eq_getElem (length ▸ within)
          exact ih j s _ here code (parts j t _ there code) (proper s (List.mem_of_getElem? here))
            (proper' t (List.mem_of_getElem? there))
  | object here body told _ ih =>
    cases right with
    | leaf _ shape => cases shape
    | object here' body' told' parts' =>
      obtain rfl := Option.some.inj (here.symm.trans here')
      obtain rfl := same_parts body body'
      refine Schema.writesAlike_object told told' proper proper'
        fun key code s t part found found' => ?_
      exact ih key s code found part (parts' key t code found' part)
        (proper.field (Entries.mem_of_get? found)) (proper'.field (Entries.mem_of_get? found'))
    | choice here' _ _ =>
      obtain rfl := Option.some.inj (here.symm.trans here')
      simp at body
  | choice here fits _ ih =>
    cases right with
    | leaf _ shape => cases shape
    | object here' body' _ _ =>
      obtain rfl := Option.some.inj (here.symm.trans here')
      simp at body'
    | choice here' fits' parts' =>
      obtain ⟨rfl, rfl⟩ := Body.dispatch.inj (Option.some.inj (here.symm.trans here'))
      refine Schema.writesAlike_choice proper proper' fun kind left right found found' => ?_
      obtain ⟨arm, there, fit⟩ := fits kind left found
      obtain ⟨_, there', fit'⟩ := fits' kind right found'
      obtain rfl := Option.some.inj (there.symm.trans there')
      refine fit.alike fit' fun code made s t same same' => ?_
      subst same same'
      exact ih kind s _ code found there made (parts' kind t _ code found' there made)
        (proper.payload found) (proper'.payload found')

/-- Programs that grow as schemas are written into them one after the other, under the same options
throughout, with the code for each. -/
inductive Compiled (options : WriteOptions) : Program → List (Schema × Code) → Prop where
  | empty : Compiled options Program.empty []
  | writer {program : Program} {made : List (Schema × Code)} (schema : Schema) :
      Compiled options program made →
      Compiled options (program.writer options schema).2
        ((schema, (program.writer options schema).1) :: made)

private theorem Compiled.sound {program : Program} {made : List (Schema × Code)}
    (compiled : Compiled options program made) : program.Sound := by
  induction compiled with
  | empty => exact Program.sound_empty
  | writer schema _ ih => exact (writer_emits options schema _ ih).grows.sound

private theorem Compiled.bears {program : Program} {made : List (Schema × Code)}
    (compiled : Compiled options program made) (member : (schema, code) ∈ made)
    (proper : schema.Proper) : Bears options program schema code := by
  induction compiled with
  | empty => simp at member
  | @writer program made last before ih =>
    have grown := (writer_emits options last program before.sound).grows.helpers
    rcases List.mem_cons.mp member with same | earlier
    · obtain ⟨rfl, rfl⟩ := Prod.mk.inj same
      exact (writer_bears options proper program before.sound).2
    · exact lasting_bears _ _ _ _ grown (ih earlier)

/-- Within one program the text of code tells the code. -/
private theorem Bears.eq_of_fragment {other : Code} (left : Bears options p s code)
    (right : Bears options p t other) (same : code.fragment = other.fragment) : code = other := by
  have alike : (code.applied "input").toList ++ [] = (other.applied "input").toList ++ [] := by
    rw [Code.applied, Code.applied, same]
  have writes := left.spells.writes
  obtain ⟨told, -⟩ := writes.applied_prefix right.spells.writes Code.isArgument_input alike
  exact told

/-- Schemas that came to the same fragment in one program write the same of every value on which both
succeed without meeting an undeclared variant. -/
theorem compiled_write_content {program : Program} {made : List (Schema × Code)} {other : Code}
    (compiled : Compiled options program made) (left : (s, code) ∈ made)
    (right : (t, other) ∈ made) (same : code.fragment = other.fragment)
    (proper : s.Proper) (proper' : t.Proper) {input a b : Value} (tidy : input.Proper)
    (declared : ¬MeetsUndeclared s input) (declared' : ¬MeetsUndeclared t input)
    (done : s.write options input = .ok a) (done' : t.write options input = .ok b) :
    a.content = b.content := by
  have bears := compiled.bears left proper
  have bears' := compiled.bears right proper'
  obtain rfl := bears.eq_of_fragment bears' same
  have alike := bears.shaped.writesAlike bears'.shaped proper proper'
  exact (alike input.freshOrigin input a b input.predates_freshOrigin tidy declared declared' done
    done').content

private theorem not_meetsUndeclared_leaves {fields : List (String × Schema)} {v : Value}
    (leaves : ∀ key field, (key, field) ∈ fields → ∃ l, field = .leaf l) :
    ¬MeetsUndeclared (.object fields) v := by
  intro met
  cases met with
  | object member met =>
    obtain ⟨l, rfl⟩ := leaves _ _ member
    cases met

set_option maxRecDepth 1000 in
theorem compiled_write_content_shared :
    let s : Schema := .object [("n", .leaf .bigint), ("name", .leaf .string)]
    let t : Schema := .object [("n", .leaf .u64)]
    let input : Value := .object (.root 0) [("n", .bigint (.root 1) 7), ("name", .string "a")]
    let first := Program.empty.writer .off s
    let second := first.2.writer .off t
    first.1 = .helper 0 ∧ second.1 = .helper 0 ∧
      ∃ a b, s.write .off input = .ok a ∧ t.write .off input = .ok b ∧ a.content = b.content := by
  intro s t input first second
  let written : Value := .object (.root 2) [("n", .string "7"), ("name", .string "a")]
  have done : s.write .off input = .ok written := rfl
  have done' : t.write .off input = .ok written := rfl
  have one : first.1 = .helper 0 := rfl
  have two : second.1 = .helper 0 := rfl
  have compiled : Compiled .off second.2 [(t, second.1), (s, first.1)] :=
    .writer t (.writer s .empty)
  rw [one, two] at compiled
  have proper : s.Proper := by decide +zetaReduce
  have proper' : t.Proper := by decide +zetaReduce
  have tidy : input.Proper := by decide +zetaReduce
  have declared : ¬MeetsUndeclared s input := not_meetsUndeclared_leaves fun key field member => by
    simp only [List.mem_cons, Prod.mk.injEq, List.not_mem_nil, or_false] at member
    rcases member with ⟨-, rfl⟩ | ⟨-, rfl⟩ <;> exact ⟨_, rfl⟩
  have declared' : ¬MeetsUndeclared t input := not_meetsUndeclared_leaves fun key field member => by
    obtain ⟨-, rfl⟩ : key = "n" ∧ field = .leaf .u64 := by simpa using member
    exact ⟨_, rfl⟩
  have left : (s, Code.helper 0) ∈ [(t, Code.helper 0), (s, Code.helper 0)] :=
    List.mem_cons_of_mem _ List.mem_cons_self
  have right : (t, Code.helper 0) ∈ [(t, Code.helper 0), (s, Code.helper 0)] := List.mem_cons_self
  have shown := compiled_write_content compiled left right rfl proper proper' tidy declared declared'
    done done'
  exact ⟨one, two, written, written, done, done', shown⟩

end WireSchema.Generated
