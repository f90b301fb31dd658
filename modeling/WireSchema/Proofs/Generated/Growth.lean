import WireSchema.Generated.Deserializer
import WireSchema.Generated.Serializer
import WireSchema.Proofs.Entries
import WireSchema.Proofs.Schema

/-!
Programs under any sequence of calls. Every call leaves what is there in its place and adds after
it; what it has done once it finds done from then on, so it is settled by the program it made and by
every later one. Both facts pass through one call after another, which carries them from imports
and helpers to whole schemas.
-/

set_option autoImplicit false

namespace WireSchema.Generated

open WireSchema.Text

theorem helperName_injective {i j : Nat} (same : helperName i = helperName j) : i = j := by
  have tails : decimal i = decimal j := by
    have texts := congrArg String.toList same
    rw [helperName, helperName, String.toList_append, String.toList_append] at texts
    exact String.toList_injective (List.append_cancel_left texts)
  have sameDigits : digits i = digits j := String.ofList_injective tails
  rw [← ofDigits_digits i, sameDigits, ofDigits_digits]

namespace Program

/-- A call that an ongoing compilation may make, whether it succeeds or not. -/
inductive Call where
  | importing (path name : String)
  | define (text : String)
  | writer (options : WriteOptions) (schema : Schema)
  | reader (schema : Schema)

def Call.perform (call : Call) (program : Program) : Program :=
  match call with
  | .importing path name => program.importing path name
  | .define text => (program.define (.text text)).2
  | .writer options schema => (program.writer options schema).2
  | .reader schema => (program.reader schema).2

def after (calls : List Call) (program : Program) : Program :=
  calls.foldl (fun program call => call.perform program) program

def definitions (program : Program) : List (String × String) :=
  program.helpers.mapIdx fun i body => (helperName i, body.render)

/-- What stands in a program stands in its place in another, which has more only behind it. -/
structure Extends (p q : Program) : Prop where
  helpers : p.helpers <+: q.helpers
  imports : ∀ (i : Nat) (path : String) (names : List String), p.imports[i]? = some (path, names) →
    ∃ later, q.imports[i]? = some (path, later) ∧ names <+: later

def DistinctTexts (program : Program) : Prop :=
  (program.helpers.map Body.render).Nodup

/-- A step that only adds, no text a second time, and that finds what it added in every program that
has it. -/
structure Appends {α : Type} (step : Program → α × Program) : Prop where
  grows : ∀ p, Extends p (step p).2
  distinct : ∀ p : Program, p.DistinctTexts → (step p).2.DistinctTexts
  again : ∀ p q, Extends (step p).2 q → step q = ((step p).1, q)

variable {p q r : Program} {α β : Type}

theorem Extends.refl (p : Program) : Extends p p :=
  ⟨List.prefix_rfl, fun _ _ names here => ⟨names, here, List.prefix_rfl⟩⟩

theorem Extends.trans (first : Extends p q) (second : Extends q r) : Extends p r := by
  refine ⟨first.helpers.trans second.helpers, fun i path names here => ?_⟩
  obtain ⟨later, there, more⟩ := first.imports i path names here
  obtain ⟨last, found, still⟩ := second.imports i path later there
  exact ⟨last, found, more.trans still⟩

def Imported (path name : String) (imports : List (String × List String)) : Prop :=
  ∃ (i : Nat) (names : List String), imports[i]? = some (path, names) ∧ name ∈ names ∧
    ∀ j < i, ∀ other ∈ imports[j]?, other.1 ≠ path

theorem mem_addName (name : String) (names : List String) : name ∈ addName name names := by
  rw [addName]
  split
  · next found => simpa using found
  · simp

theorem prefix_addName (name : String) (names : List String) : names <+: addName name names := by
  rw [addName]
  split
  · exact List.prefix_rfl
  · exact List.prefix_append _ _

theorem addName_of_mem {name : String} {names : List String} (member : name ∈ names) :
    addName name names = names := by
  rw [addName, if_pos (by simpa using member)]

theorem imported_addImport (path name : String) (imports : List (String × List String)) :
    Imported path name (addImport path name imports) := by
  induction imports with
  | nil => exact ⟨0, [name], rfl, by simp, by simp⟩
  | cons entry rest ih =>
    obtain ⟨p, names⟩ := entry
    rw [addImport]
    split
    · next same =>
      subst same
      exact ⟨0, addName name names, rfl, mem_addName name names, by simp⟩
    · next other =>
      obtain ⟨i, names', here, member, before⟩ := ih
      refine ⟨i + 1, names', by simpa using here, member, fun j within entry found => ?_⟩
      cases j with
      | zero =>
        obtain rfl : (p, names) = entry := by simpa using found
        exact other
      | succ j => exact before j (by omega) entry (by simpa using found)

theorem addImport_of_imported {path name : String} {imports : List (String × List String)}
    (imported : Imported path name imports) : addImport path name imports = imports := by
  obtain ⟨i, names, here, member, before⟩ := imported
  induction imports generalizing i with
  | nil => simp at here
  | cons entry rest ih =>
    obtain ⟨p, others⟩ := entry
    rw [addImport]
    cases i with
    | zero =>
      obtain ⟨rfl, rfl⟩ : p = path ∧ others = names := by simpa using here
      rw [if_pos rfl, addName_of_mem member]
    | succ i =>
      have other : p ≠ path := before 0 (by omega) (p, others) (by simp)
      have tail := ih i (by simpa using here) fun j within entry found =>
        before (j + 1) (by omega) entry (by simpa using found)
      rw [if_neg other, tail]

theorem extends_importing (path name : String) (p : Program) :
    Extends p (p.importing path name) := by
  refine ⟨List.prefix_rfl, ?_⟩
  obtain ⟨imports, helpers⟩ := p
  change ∀ i at_ names, imports[i]? = some (at_, names) →
    ∃ later, (addImport path name imports)[i]? = some (at_, later) ∧ names <+: later
  induction imports with
  | nil => simp
  | cons entry rest ih =>
    obtain ⟨first, others⟩ := entry
    intro i at_ names here
    rw [addImport]
    cases i with
    | zero =>
      obtain ⟨rfl, rfl⟩ : first = at_ ∧ others = names := by simpa using here
      split
      · exact ⟨addName name others, rfl, prefix_addName name others⟩
      · exact ⟨others, rfl, List.prefix_rfl⟩
    | succ i =>
      have there : rest[i]? = some (at_, names) := by simpa using here
      split
      · exact ⟨names, by simpa using there, List.prefix_rfl⟩
      · obtain ⟨later, found, more⟩ := ih i at_ names there
        exact ⟨later, by simpa using found, more⟩

-- The entries before the first of a path keep their paths, so it stays the first.
theorem Imported.extends {path name : String} (imported : Imported path name p.imports)
    (grown : Extends p q) : Imported path name q.imports := by
  obtain ⟨i, names, here, member, before⟩ := imported
  obtain ⟨later, there, more⟩ := grown.imports i path names here
  refine ⟨i, later, there, more.subset member, fun j within other found => ?_⟩
  have inside : j < p.imports.length := by
    have := (List.getElem?_eq_some_iff.mp here).1
    omega
  obtain ⟨names', kept, -⟩ := grown.imports j p.imports[j].1 p.imports[j].2
    (List.getElem?_eq_getElem inside)
  rw [kept] at found
  obtain rfl := Option.some.inj found
  exact before j within p.imports[j] (List.getElem?_eq_getElem inside)

theorem appends_pure (a : α) : Appends fun p => (a, p) :=
  ⟨Extends.refl, fun _ distinct => distinct, fun _ _ _ => rfl⟩

theorem appends_importing (a : α) (path name : String) :
    Appends fun p => (a, p.importing path name) := by
  refine ⟨extends_importing path name, fun _ distinct => distinct, fun p q grown => ?_⟩
  have there : Imported path name q.imports :=
    (imported_addImport path name p.imports).extends grown
  rw [importing, addImport_of_imported there]

theorem Appends.bind {first : Program → α × Program} {next : α → Program → β × Program}
    (appends : Appends first) (onwards : ∀ a, Appends (next a)) :
    Appends fun p => next (first p).1 (first p).2 := by
  refine ⟨fun p => (appends.grows p).trans ((onwards _).grows _),
    fun p distinct => (onwards _).distinct _ (appends.distinct p distinct), fun p q grown => ?_⟩
  have upto : Extends (first p).2 q := ((onwards _).grows _).trans grown
  rw [appends.again p q upto]
  exact (onwards _).again _ q grown

theorem helperIndex_extends {text : String} {i : Nat} (found : p.helperIndex? text = some i)
    (grown : p.helpers <+: q.helpers) : q.helperIndex? text = some i := by
  obtain ⟨more, split⟩ := grown
  rw [helperIndex?] at found ⊢
  rw [← split, List.findIdx?_append, found]
  rfl

theorem helperIndex_define (body : Body) (p : Program) :
    (p.define body).2.helperIndex? body.render = some (p.define body).1 := by
  rw [Program.define]
  cases found : p.helperIndex? body.render with
  | some i => exact found
  | none =>
    rw [helperIndex?] at found
    simp [helperIndex?, List.findIdx?_append, found]

theorem define_of_helperIndex {body : Body} {i : Nat}
    (found : p.helperIndex? body.render = some i) : p.define body = (i, p) := by
  rw [Program.define, found]

theorem extends_define (body : Body) (p : Program) : Extends p (p.define body).2 := by
  rw [Program.define]
  split
  · exact Extends.refl p
  · exact ⟨List.prefix_append _ _, fun _ _ names here => ⟨names, here, List.prefix_rfl⟩⟩

theorem DistinctTexts.define (distinct : p.DistinctTexts) (body : Body) :
    (p.define body).2.DistinctTexts := by
  rw [Program.define]
  cases found : p.helperIndex? body.render with
  | some i => exact distinct
  | none =>
    have other : ∀ old ∈ p.helpers, old.render ≠ body.render := by
      simpa [helperIndex?] using found
    rw [DistinctTexts, List.map_append]
    refine List.nodup_append.mpr ⟨distinct, by simp, fun text member last here => ?_⟩
    obtain ⟨old, within, rfl⟩ := List.mem_map.mp member
    obtain rfl : last = body.render := by simpa using here
    exact other old within

theorem appends_define (body : Body) : Appends (Program.define body) := by
  refine ⟨extends_define body, fun p distinct => distinct.define body, fun p q grown => ?_⟩
  exact define_of_helperIndex (helperIndex_extends (helperIndex_define body p) grown.helpers)

theorem appends_calling (routine : Routine) : Appends fun p => p.calling routine :=
  appends_importing (Code.routine routine) routine.path routine.name

theorem appends_leafWriter (options : WriteOptions) (l : Leaf) :
    Appends fun p => p.leafWriter options l := by
  cases l with
  | bool | string | int | u32 | i32 | json => exact appends_pure _
  | bigint | u64 | i64 => exact appends_importing _ _ _
  | number =>
    simp only [leafWriter]
    split
    · exact appends_pure _
    · exact appends_calling _
  | date | temporal _ =>
    simp only [leafWriter]
    split
    · exact appends_pure _
    · exact (appends_importing () _ _).bind fun _ => appends_importing _ _ _

theorem appends_optional (code : Code) : Appends fun p => p.optional code := by
  simp only [optional]
  split
  · exact appends_pure _
  · exact appends_importing _ _ _

theorem appends_eachWriter (sparing : Bool) (code : Code) :
    Appends fun p => p.eachWriter sparing code := by
  simp only [eachWriter]
  split
  · exact appends_pure _
  · exact appends_importing _ _ _

theorem appends_positionsWriter (codes : List Code) : Appends fun p => p.positionsWriter codes := by
  simp only [positionsWriter]
  split
  · exact appends_pure _
  · exact (appends_importing () _ _).bind fun _ => appends_importing _ _ _

private theorem appends_helper (body : Body) :
    Appends fun p => (Code.helper (p.define body).1, (p.define body).2) :=
  (appends_define body).bind fun index => appends_pure (Code.helper index)

theorem appends_objectWriter (sparing : Bool) (fields : List (String × Code)) :
    Appends fun p => p.objectWriter sparing fields := by
  simp only [objectWriter]
  split
  · exact appends_pure _
  · split
    · exact (appends_importing () _ _).bind fun _ =>
        (appends_importing () _ _).bind fun _ => appends_helper _
    · exact (appends_importing () _ _).bind fun _ => (appends_importing () _ _).bind fun _ =>
        (appends_importing () _ _).bind fun _ => appends_helper _

private theorem appends_importingArms (arms : List (String × Arm)) :
    Appends fun p => ((), importingArms arms p) := by
  induction arms with
  | nil => exact appends_pure _
  | cons arm rest ih =>
    obtain ⟨kind, arm⟩ := arm
    cases arm with
    | keep => exact ih
    | whole code => exact ih
    | payload code => exact (appends_importing () _ _).bind fun _ => ih

theorem appends_choiceWriter (lenient : Bool) (arms : List (String × Arm)) :
    Appends fun p => p.choiceWriter lenient arms := by
  simp only [choiceWriter]
  split
  · exact appends_pure _
  · exact (appends_importing () _ _).bind fun _ => (appends_importingArms arms).bind fun _ =>
      (appends_importing () _ _).bind fun _ => appends_helper _

section Writer

variable {options : WriteOptions}

private theorem appends_elemWriters {elems : List Schema}
    (each : ∀ elem ∈ elems, Appends fun p => p.writer options elem) :
    Appends fun p => elemWriters options elems p := by
  induction elems with
  | nil => exact appends_pure _
  | cons elem rest ih =>
    have first := each elem List.mem_cons_self
    have others := ih fun elem member => each elem (List.mem_cons_of_mem _ member)
    exact first.bind fun code => others.bind fun codes => appends_pure (code :: codes)

private theorem appends_fieldWriters {fields : List (String × Schema)}
    (each : ∀ key field, (key, field) ∈ fields → Appends fun p => p.writer options field) :
    Appends fun p => fieldWriters options fields p := by
  induction fields with
  | nil => exact appends_pure _
  | cons field rest ih =>
    obtain ⟨key, field⟩ := field
    have first := each key field List.mem_cons_self
    have others := ih fun key field member => each key field (List.mem_cons_of_mem _ member)
    exact first.bind fun code => others.bind fun codes => appends_pure ((key, code) :: codes)

private theorem appends_variantWriters {variants : List (String × Option Schema)}
    (each : ∀ kind payload, (kind, some payload) ∈ variants →
      Appends fun p => p.writer options payload) :
    Appends fun p => variantWriters options variants p := by
  induction variants with
  | nil => exact appends_pure _
  | cons variant rest ih =>
    obtain ⟨kind, payload⟩ := variant
    have others := ih fun kind payload member => each kind payload (List.mem_cons_of_mem _ member)
    cases payload with
    | none => exact others.bind fun arms => appends_pure ((kind, .keep) :: arms)
    | some payload =>
      have first := each kind payload List.mem_cons_self
      exact first.bind fun code => others.bind fun arms =>
        appends_pure ((kind, armOf (payload.kind = .object) code) :: arms)

/-- Writing code for a schema only adds to a program, and from then on adds nothing. -/
theorem appends_writer (options : WriteOptions) (schema : Schema) :
    Appends fun p => p.writer options schema := by
  induction schema using Schema.byParts with
  | leaf l => exact appends_leafWriter options l
  | option inner ih => exact ih.bind appends_optional
  | array item ih => exact ih.bind (appends_eachWriter _)
  | tuple elems ih => exact (appends_elemWriters ih).bind appends_positionsWriter
  | object fields ih => exact (appends_fieldWriters ih).bind (appends_objectWriter _)
  | choice variants ih => exact (appends_variantWriters ih).bind (appends_choiceWriter _)

end Writer

-- A step that is taken only if what comes before it succeeded.
private def onwards (next : α → Program → Except Fault β × Program) (made : Except Fault α)
    (program : Program) : Except Fault β × Program :=
  match made with
  | .ok a => next a program
  | .error fault => (.error fault, program)

private theorem appends_onwards {next : α → Program → Except Fault β × Program}
    (appends : ∀ a, Appends (next a)) (made : Except Fault α) : Appends (onwards next made) := by
  cases made with
  | ok a => exact appends a
  | error fault => exact appends_pure _

private theorem appends_ok {step : Program → α × Program} (appends : Appends step) :
    Appends fun p => ((Except.ok (step p).1 : Except Fault α), (step p).2) :=
  appends.bind fun a => appends_pure (Except.ok a)

theorem appends_leafReader (l : Leaf) : Appends fun p => p.leafReader l := by
  cases l with
  | json => exact appends_pure _
  | temporal kind => exact (appends_importing () _ _).bind fun _ => appends_importing _ _ _
  | _ => exact appends_calling _

theorem appends_eachReader (code : Code) : Appends fun p => p.eachReader code := by
  have onto : ∀ whole, Appends fun p : Program =>
      if code.isIdentity then (whole, p)
      else (Code.eachChecked code, p.importing cowPath "map_cow") := by
    intro whole
    split
    · exact appends_pure _
    · exact appends_importing _ _ _
  exact (appends_calling .parseArray).bind onto

theorem appends_positionsReader (codes : List Code) : Appends fun p => p.positionsReader codes :=
  (appends_importing () _ _).bind fun _ => appends_importing _ _ _

private theorem appends_elemReaders {elems : List Schema}
    (each : ∀ elem ∈ elems, Appends fun p => p.reader elem) :
    Appends fun p => elemReaders elems p := by
  induction elems with
  | nil => exact appends_pure _
  | cons elem rest ih =>
    have first := each elem List.mem_cons_self
    have others := ih fun elem member => each elem (List.mem_cons_of_mem _ member)
    have steps : (fun p => elemReaders (elem :: rest) p) = fun p =>
        onwards (fun code p => onwards (fun codes p => (.ok (code :: codes), p))
          (elemReaders rest p).1 (elemReaders rest p).2) (p.reader elem).1 (p.reader elem).2 := by
      funext p
      rw [elemReaders]
      rcases p.reader elem with ⟨_ | code, p⟩
      · rfl
      · dsimp only [onwards]
        rcases elemReaders rest p with ⟨_ | codes, p⟩ <;> rfl
    rw [steps]
    refine first.bind (appends_onwards fun code => ?_)
    exact others.bind (appends_onwards fun codes => appends_pure _)

theorem appends_reader (schema : Schema) : Appends fun p => p.reader schema := by
  induction schema using Schema.byParts with
  | leaf l => exact appends_ok (appends_leafReader l)
  | option inner ih =>
    have steps : (fun p => reader (.option inner) p) = fun p =>
        onwards (fun code p => (.ok (p.optional code).1, (p.optional code).2))
          (p.reader inner).1 (p.reader inner).2 := by
      funext p
      rw [reader]
      rcases p.reader inner with ⟨_ | code, p⟩ <;> rfl
    rw [steps]
    exact ih.bind (appends_onwards fun code => appends_ok (appends_optional code))
  | array item ih =>
    have steps : (fun p => reader (.array item) p) = fun p =>
        onwards (fun code p => (.ok (p.eachReader code).1, (p.eachReader code).2))
          (p.reader item).1 (p.reader item).2 := by
      funext p
      rw [reader]
      rcases p.reader item with ⟨_ | code, p⟩ <;> rfl
    rw [steps]
    exact ih.bind (appends_onwards fun code => appends_ok (appends_eachReader code))
  | tuple elems ih =>
    have steps : (fun p => reader (.tuple elems) p) = fun p =>
        onwards (fun codes p => (.ok (p.positionsReader codes).1, (p.positionsReader codes).2))
          (elemReaders elems p).1 (elemReaders elems p).2 := by
      funext p
      rw [reader]
      rcases elemReaders elems p with ⟨_ | codes, p⟩ <;> rfl
    rw [steps]
    exact (appends_elemReaders ih).bind
      (appends_onwards fun codes => appends_ok (appends_positionsReader codes))
  | object fields _ => exact appends_pure _
  | choice variants _ => exact appends_pure _

theorem extends_perform (call : Call) (p : Program) : Extends p (call.perform p) := by
  cases call with
  | importing path name => exact extends_importing path name p
  | define text => exact (appends_define (.text text)).grows p
  | writer options schema => exact (appends_writer options schema).grows p
  | reader schema => exact (appends_reader schema).grows p

theorem extends_after (calls : List Call) (p : Program) : Extends p (p.after calls) := by
  induction calls generalizing p with
  | nil => exact Extends.refl p
  | cons call rest ih => exact (extends_perform call p).trans (ih _)

theorem distinctTexts_perform (distinct : p.DistinctTexts) (call : Call) :
    (call.perform p).DistinctTexts := by
  cases call with
  | importing path name => exact distinct
  | define text => exact (appends_define (.text text)).distinct p distinct
  | writer options schema => exact (appends_writer options schema).distinct p distinct
  | reader schema => exact (appends_reader schema).distinct p distinct

theorem distinctTexts_after (distinct : p.DistinctTexts) (calls : List Call) :
    (p.after calls).DistinctTexts := by
  induction calls generalizing p with
  | nil => exact distinct
  | cons call rest ih => exact ih (distinctTexts_perform distinct call)

/-- A text put under a name among texts by name: under that of an equal text if there is one, else
under a new name. -/
def register (text : String) (texts : List (String × String)) :
    String × List (String × String) :=
  match texts.find? fun entry => entry.2 = text with
  | some entry => (entry.1, texts)
  | none => (helperName texts.length, Entries.set (helperName texts.length) text texts)

@[simp] theorem length_definitions (p : Program) : p.definitions.length = p.helpers.length := by
  simp [definitions]

theorem names_definitions (p : Program) :
    Entries.names p.definitions = (List.range p.helpers.length).map helperName := by
  refine List.ext_getElem (by simp [Entries.names]) fun i _ _ => ?_
  simp [Entries.names, definitions]

theorem texts_definitions (p : Program) :
    p.definitions.map Prod.snd = p.helpers.map Body.render := by
  refine List.ext_getElem (by simp) fun i _ _ => ?_
  simp [definitions]

private theorem find_definitions (text : String) (p : Program) :
    (p.definitions.find? fun entry => entry.2 = text) =
      (p.helperIndex? text).map fun i => (helperName i, text) := by
  have entry : ∀ (i : Nat) (inside : i < p.definitions.length) (within : i < p.helpers.length),
      p.definitions[i] = (helperName i, p.helpers[i].render) := by
    intro i inside within
    simp [definitions]
  cases found : p.helperIndex? text with
  | none =>
    have other : ∀ old ∈ p.helpers, old.render ≠ text := by simpa [helperIndex?] using found
    refine List.find?_eq_none.mpr fun named member => ?_
    obtain ⟨i, within, rfl⟩ := List.mem_iff_getElem.mp member
    rw [length_definitions] at within
    simpa [entry i _ within] using other _ (List.getElem_mem within)
  | some i =>
    obtain ⟨within, same, first⟩ := List.findIdx?_eq_some_iff_getElem.mp found
    have named : p.helpers[i].render = text := by simpa using same
    refine List.find?_eq_some_iff_getElem.mpr
      ⟨by simp, i, by simpa using within, by rw [entry i _ within, named], fun j before => ?_⟩
    have inside : j < p.helpers.length := by omega
    simpa [entry j _ inside] using first j before

theorem register_definitions (body : Body) (p : Program) :
    register body.render p.definitions =
      (helperName (p.define body).1, (p.define body).2.definitions) := by
  rw [register, find_definitions, Program.define]
  cases found : p.helperIndex? body.render with
  | some i => rfl
  | none =>
    have missing : helperName p.helpers.length ∉ Entries.names p.definitions := by
      rw [names_definitions]
      intro member
      obtain ⟨i, within, same⟩ := List.mem_map.mp member
      have last := helperName_injective same
      have before := List.mem_range.mp within
      omega
    simp only [Option.map_none, length_definitions, Entries.set_of_not_mem missing]
    simp [definitions, List.mapIdx_append]

/-- However a program came about, its helpers are named by their numbers in the order in which they
are put by name and text, and no two have one text; a further call leaves all of it in place; and
code once written for a schema is the code written again, with nothing to add, in that program and
in every later one. -/
theorem calls_only_append (calls : List Call) :
    let program := Program.empty.after calls
    Entries.names program.definitions =
        (List.range program.definitions.length).map helperName ∧
      (program.definitions.map Prod.snd).Nodup ∧
      (∀ body : Body, register body.render program.definitions =
        (helperName (program.define body).1, (program.define body).2.definitions)) ∧
      (∀ call : Call, Extends program (call.perform program)) ∧
      ∀ (options : WriteOptions) (schema : Schema) (more : List Call),
        let made := program.writer options schema
        (made.2.after more).writer options schema = (made.1, made.2.after more) := by
  intro program
  refine ⟨?_, ?_, fun body => register_definitions body program,
    fun call => extends_perform call program, fun options schema more => ?_⟩
  · rw [names_definitions, length_definitions]
  · rw [texts_definitions]
    exact distinctTexts_after (p := Program.empty) List.nodup_nil calls
  · exact (appends_writer options schema).again program _ (extends_after more _)

end Program

end WireSchema.Generated
