import WireSchema.Generated.Meaning
import WireSchema.Proofs.Update.Layout

/-!
Three ways to update the declared properties of an object: in a copy that is made at the first
change, in a copy that is made first, and in one go. The second reads what it has stored already, the
others read what was there at the start. With distinct keys none of them meets a key twice, so that
all of them depend on the same answers. Helpers of generated code take one of the first two ways.
-/

set_option autoImplicit false

namespace WireSchema.Update

open WireSchema.Value (Filled)

variable {ε : Type} {fresh origin : Origin} {source entries results : List (String × Value)}

def changedInTurn (fresh : Origin) (fs : List (String × (Value → Except ε Value)))
    (origin : Origin) (source : List (String × Value)) : Except ε Value := do
  let copy ← fs.foldlM (fun copy field => changedProperty source field.2 field.1 copy) none
  return finish fresh (.object origin source) copy

def copiedInTurn (fresh : Origin) (fs : List (String × (Value → Except ε Value)))
    (source : List (String × Value)) : Except ε Value := do
  let entries ← fs.foldlM (fun entries field => copiedProperty field.2 field.1 entries) source
  return .object fresh entries

theorem changedProperties_eq_foldlM (source : List (String × Value))
    (fs : List (String × (Value → Except ε Value))) (copy : Option (List (String × Value))) :
    changedProperties source fs copy =
      fs.foldlM (fun copy field => changedProperty source field.2 field.1 copy) copy := by
  induction fs generalizing copy with
  | nil => rfl
  | cons first rest ih =>
    rw [List.foldlM_cons, changedProperties]
    exact congrArg _ (funext ih)

theorem copiedProperties_eq_foldlM (fs : List (String × (Value → Except ε Value)))
    (entries : List (String × Value)) :
    copiedProperties fs entries =
      fs.foldlM (fun entries field => copiedProperty field.2 field.1 entries) entries := by
  induction fs generalizing entries with
  | nil => rfl
  | cons first rest ih =>
    rw [List.foldlM_cons, copiedProperties]
    exact congrArg _ (funext ih)

theorem changedInTurn_eq (fresh origin : Origin) (fs : List (String × (Value → Except ε Value)))
    (source : List (String × Value)) :
    changedInTurn fresh fs origin source = properties fresh fs origin source := by
  rw [changedInTurn, ← changedProperties_eq_foldlM, properties]

theorem copiedInTurn_eq (fresh : Origin) {fs : List (String × (Value → Except ε Value))}
    (names : Entries.Distinct fs) (source : List (String × Value)) :
    copiedInTurn fresh fs source =
      (answers source fs).map fun results => .object fresh (setAll results source) := by
  have stored : copiedProperties fs source =
      (answers source fs).map fun results => setAll results source :=
    copiedProperties_eq names fun _ _ => rfl
  rw [copiedInTurn, ← copiedProperties_eq_foldlM, stored]
  cases answers source fs <;> rfl

def keyed (fs : List (String × (Value → Except Fault Value))) :
    List (String × (Value → Except Fault Value)) :=
  Entries.mapValues (fun key f v => located (.key key) (f v)) fs

/-- The fault of the first function that fails, with the key of its property in front. -/
inductive FirstFault (source : List (String × Value)) :
    List (String × (Value → Except Fault Value)) → Fault → Prop where
  | here {key : String} {f : Value → Except Fault Value} {inner : Fault}
      {rest : List (String × (Value → Except Fault Value))} :
      f (property key source) = .error inner →
        FirstFault source ((key, f) :: rest) (inner.inside (.key key))
  | later {key : String} {f : Value → Except Fault Value} {result : Value} {fault : Fault}
      {rest : List (String × (Value → Except Fault Value))} :
      f (property key source) = .ok result → FirstFault source rest fault →
        FirstFault source ((key, f) :: rest) fault

theorem distinct_keyed {fs : List (String × (Value → Except Fault Value))}
    (names : Entries.Distinct fs) : Entries.Distinct (keyed fs) :=
  names.mapValues _

theorem keyed_cons (key : String) (f : Value → Except Fault Value)
    (rest : List (String × (Value → Except Fault Value))) :
    keyed ((key, f) :: rest) = (key, fun v => located (.key key) (f v)) :: keyed rest :=
  rfl

theorem answers_keyed_eq_ok {fs : List (String × (Value → Except Fault Value))} :
    answers source (keyed fs) = .ok results ↔ answers source fs = .ok results := by
  induction fs generalizing results with
  | nil => rfl
  | cons first rest ih =>
    rw [keyed_cons, answers_cons_eq_ok, answers_cons_eq_ok]
    simp only [located_eq_ok, ih]

theorem answers_keyed_eq_error {fs : List (String × (Value → Except Fault Value))} {fault : Fault} :
    answers source (keyed fs) = .error fault ↔ FirstFault source fs fault := by
  induction fs with
  | nil => exact iff_of_false (by simp [keyed, answers]) (by rintro ⟨⟩)
  | cons first rest ih =>
    obtain ⟨key, f⟩ := first
    rw [keyed_cons, answers]
    constructor
    · intro failed
      rcases bind_eq_error.mp failed with failed | ⟨result, done, failed⟩
      · obtain ⟨inner, here, rfl⟩ := located_eq_error.mp failed
        exact .here here
      · rcases bind_eq_error.mp failed with later | ⟨_, -, done⟩
        · exact .later (located_eq_ok.mp done) (ih.mp later)
        · exact absurd done (pure_ne_error _ _)
    · rintro (here | ⟨done, later⟩)
      · simp [here, located]
      · simp [done, ih.mpr later]

section LeftOut

variable {kept : String → Bool}

/-- The functions that are left out give back what they are given. -/
def Idle (kept : String → Bool) (fs : List (String × (Value → Except ε Value)))
    (source : List (String × Value)) : Prop :=
  ∀ key f, (key, f) ∈ fs → kept key = false → f (property key source) = .ok (property key source)

/-- The results that are left out are what stands there. -/
def Standing (kept : String → Bool) (results entries : List (String × Value)) : Prop :=
  ∀ key result, (key, result) ∈ results → kept key = false → result = property key entries

theorem answers_only {fs : List (String × (Value → Except ε Value))} (idle : Idle kept fs source) :
    answers source (Entries.only kept fs) = (answers source fs).map (Entries.only kept) := by
  induction fs with
  | nil => rfl
  | cons first others ih =>
    obtain ⟨key, f⟩ := first
    have later := ih fun name g member => idle name g (List.mem_cons_of_mem _ member)
    cases stays : kept key with
    | true =>
      rw [Entries.only_cons_of_kept stays, answers, answers, later]
      cases f (property key source) with
      | error e => rfl
      | ok result =>
        cases answers source others with
        | error e => rfl
        | ok more => exact congrArg Except.ok (Entries.only_cons_of_kept stays).symm
    | false =>
      -- what is left out cannot fail, so that the first fault stays the first
      have same : f (property key source) = .ok (property key source) :=
        idle key f List.mem_cons_self stays
      rw [Entries.only_cons_of_left stays, later, answers, same]
      cases answers source others with
      | error e => rfl
      | ok more => exact congrArg Except.ok (Entries.only_cons_of_left stays).symm

theorem Standing.of_idle {fs : List (String × (Value → Except ε Value))}
    (idle : Idle kept fs source) (done : answers source fs = .ok results) :
    Standing kept results source := by
  intro key result member out
  obtain ⟨f, declared, made⟩ := mem_answers done member
  exact Except.ok.inj (made.symm.trans (idle key f declared out))

theorem Standing.setProperty {key : String} {result : Value} (alone : key ∉ Entries.names results)
    (standing : Standing kept results entries) :
    Standing kept results (setProperty key result entries) := by
  intro name value member out
  have differ : key ≠ name := by
    rintro rfl
    exact alone (Entries.mem_names_of_mem member)
  rw [property_setProperty_of_ne differ]
  exact standing name value member out

theorem setProperty_property (distinct : Entries.Distinct entries) (filled : Filled entries)
    (key : String) : setProperty key (property key entries) entries = entries := by
  unfold Update.setProperty
  by_cases there : key ∈ Entries.names entries
  · have solid : (property key entries).isAbsent = false :=
      Value.isAbsent_eq_false.mpr (filled.property_ne there)
    rw [solid, if_neg Bool.false_ne_true, Entries.set_eq_mapValues distinct there]
    apply Entries.mapValues_id
    intro name value member
    by_cases same : name = key
    · rw [if_pos same, ← same, Value.property_of_mem distinct member]
    · rw [if_neg same]
  · have gone : (property key entries).isAbsent = true :=
      Value.isAbsent_eq_true.mpr (Value.property_of_not_mem there)
    rw [if_pos gone, Entries.erase_eq_filter distinct]
    apply List.filter_eq_self.mpr
    intro entry member
    have differ : entry.1 ≠ key := fun same => there (same ▸ Entries.mem_names_of_mem member)
    exact decide_eq_true differ

theorem setAll_only (distinct : Entries.Distinct entries) (filled : Filled entries)
    (names : Entries.Distinct results) (standing : Standing kept results entries) :
    setAll (Entries.only kept results) entries = setAll results entries := by
  induction results generalizing entries with
  | nil => rfl
  | cons first others ih =>
    obtain ⟨key, result⟩ := first
    obtain ⟨alone, tail⟩ := Entries.distinct_cons.mp names
    have later : Standing kept others entries :=
      fun name value member => standing name value (List.mem_cons_of_mem _ member)
    cases stays : kept key with
    | true =>
      rw [Entries.only_cons_of_kept stays]
      exact ih (distinct_setProperty distinct key result) (filled_setProperty filled key result) tail
        (later.setProperty alone)
    | false =>
      have unchanged : setProperty key result entries = entries := by
        rw [standing key result List.mem_cons_self stays]
        exact setProperty_property distinct filled key
      rw [Entries.only_cons_of_left stays, ih distinct filled tail later]
      exact congrArg (setAll others) unchanged.symm

theorem settled_only (distinct : Entries.Distinct source) (filled : Filled source)
    (names : Entries.Distinct results) (standing : Standing kept results source) :
    settled source (Entries.only kept results) = settled source results := by
  induction results with
  | nil => rfl
  | cons first others ih =>
    obtain ⟨key, result⟩ := first
    obtain ⟨alone, tail⟩ := Entries.distinct_cons.mp names
    have later : Standing kept others source :=
      fun name value member => standing name value (List.mem_cons_of_mem _ member)
    cases stays : kept key with
    | true =>
      -- from the first change on results are stored, and the rest is a matter of `setAll`
      have stored : setAll (Entries.only kept others) (setProperty key result source) =
          setAll others (setProperty key result source) :=
        setAll_only (distinct_setProperty distinct key result)
          (filled_setProperty filled key result) tail (later.setProperty alone)
      rw [Entries.only_cons_of_kept stays, settled, settled, ih tail later, stored]
    | false =>
      have same : result.same (property key source) = true := by
        rw [standing key result List.mem_cons_self stays]
        exact Value.same_refl _
      rw [Entries.only_cons_of_left stays, ih tail later, settled, if_pos same]

section Functions

variable {fs : List (String × (Value → Except ε Value))} (names : Entries.Distinct fs)
  (distinct : Entries.Distinct source) (filled : Filled source) (idle : Idle kept fs source)

include names distinct filled idle

theorem properties_only (fresh origin : Origin) :
    properties fresh (Entries.only kept fs) origin source = properties fresh fs origin source := by
  rw [properties_eq, properties_eq, answers_only idle]
  cases answered : answers source fs with
  | error e => rfl
  | ok results =>
    have alike := settled_only distinct filled
      (distinct_answers names answered) (.of_idle idle answered)
    exact congrArg (fun copy => Except.ok (finish fresh (.object origin source) copy)) alike

theorem copiedInTurn_only (fresh : Origin) :
    copiedInTurn fresh (Entries.only kept fs) source = copiedInTurn fresh fs source := by
  rw [copiedInTurn_eq fresh (names.only kept), copiedInTurn_eq fresh names, answers_only idle]
  cases answered : answers source fs with
  | error e => rfl
  | ok results =>
    have alike := setAll_only distinct filled
      (distinct_answers names answered) (.of_idle idle answered)
    exact congrArg (fun entries => Except.ok (Value.object fresh entries)) alike

end Functions

theorem Idle.keyed {fs : List (String × (Value → Except Fault Value))}
    (idle : Idle kept fs source) : Idle kept (keyed fs) source := by
  intro key g member out
  obtain ⟨f, declared, rfl⟩ := Entries.mem_mapValues.mp member
  exact located_eq_ok.mpr (idle key f declared out)

end LeftOut

/-- The maps in a result are proper, and it is what it was made of if it is the very same container. -/
def Genuine (result v : Value) : Prop :=
  result.Proper ∧ (result.sharesHandle v = true → result = v)

theorem Genuine.alike {result v : Value} (genuine : Genuine result v) (old : v.Proper)
    (same : result.same v = true) : v.alike result = true := by
  apply Value.alike_of_same old (Value.same_symm same)
  intro shared
  rw [Value.sharesHandle_comm] at shared
  exact (genuine.2 shared).symm

/-- What stands in a copy that is made at the first change is equal to what stands in one that all
results are stored in. -/
theorem alike_settled {o p : Origin} (tidy : (Value.object origin source).Proper)
    (filled : Filled source) (names : Entries.Distinct results)
    (genuine : ∀ key result, (key, result) ∈ results → Genuine result (property key source)) :
    (Value.object o ((settled source results).getD source)).alike
      (.object p (setAll results source)) = true := by
  have sameNames : Entries.names ((settled source results).getD source) =
      Entries.names (setAll results source) := names_settled filled
  have distinct := distinct_settled tidy.distinct results
  refine Value.alike_object.mpr ⟨?_, fun key value member => ?_⟩
  · simpa [Entries.names] using congrArg List.length sameNames
  · have there : key ∈ Entries.names (setAll results source) :=
      sameNames ▸ Entries.mem_names_of_mem member
    obtain ⟨other, found⟩ := Entries.exists_get?_of_mem_names there
    have left : property key ((settled source results).getD source) = value :=
      Value.property_of_mem distinct member
    have right : property key (setAll results source) = other := by
      rw [property, found, Option.getD_some]
    rw [property_setAll tidy.distinct names] at right
    refine ⟨other, found, ?_⟩
    subst left right
    by_cases declared : key ∈ Entries.names results
    · obtain ⟨result, own⟩ := Entries.exists_get?_of_mem_names declared
      have answered := Entries.mem_of_get? own
      rw [own, Option.getD_some]
      rcases property_settled_of_mem tidy.distinct names answered with placed | ⟨stays, same⟩
      · rw [placed]
        exact Value.alike_refl (genuine key result answered).1
      · rw [stays]
        exact (genuine key result answered).alike (tidy.property key) same
    · have untouched : property key ((settled source results).getD source) = property key source := by
        rw [property, get?_settled_of_not_mem declared, property]
      rw [untouched, Entries.get?_eq_none declared]
      exact Value.alike_refl (tidy.property key)

theorem sharesHandle_finish (apart : fresh ≠ origin) (copy : Option (List (String × Value))) :
    (finish fresh (.object origin source) copy).sharesHandle (.object origin source) = true ↔
      copy = none := by
  cases copy with
  | none => simp [finish, Value.sharesHandle]
  | some entries => simp [finish, Value.sharesHandle, apart]

/-- The object itself comes back exactly if every result is the very same as what was there. -/
theorem exists_kept_iff {fs : List (String × (Value → Except Fault Value))} (apart : fresh ≠ origin) :
    (∃ updated, properties fresh (keyed fs) origin source = .ok updated ∧
        updated.sharesHandle (.object origin source) = true) ↔
      ∀ key f, (key, f) ∈ fs → ∃ result, f (property key source) = .ok result ∧
        result.same (property key source) = true := by
  rw [properties_eq]
  constructor
  · rintro ⟨updated, done, shared⟩ key f declared
    obtain ⟨results, answered, rfl⟩ := map_eq_ok.mp done
    have same := settled_eq_none_iff.mp ((sharesHandle_finish apart _).mp shared)
    obtain ⟨result, member, made⟩ :=
      exists_mem_answers (answers_keyed_eq_ok.mp answered) declared
    exact ⟨result, made, same key result member⟩
  · intro each
    obtain ⟨results, answered⟩ := exists_answers fun key f declared =>
      (each key f declared).imp fun _ both => both.1
    have kept : settled source results = none := by
      refine settled_eq_none_iff.mpr fun key result member => ?_
      obtain ⟨f, declared, made⟩ := mem_answers answered member
      obtain ⟨result', made', same⟩ := each key f declared
      obtain rfl := Except.ok.inj (made.symm.trans made')
      exact same
    refine ⟨_, map_eq_ok.mpr ⟨results, answers_keyed_eq_ok.mpr answered, rfl⟩, ?_⟩
    exact (sharesHandle_finish apart _).mpr kept

/-- The three ways agree. They fail alike, with the first fault and its key in front. If they succeed
the objects are equal, key after key. The object itself comes back from the two that make a copy only
at need exactly if every result is the very same as what was there. Functions that give back what
they are given can be left out. -/
theorem strategies_agree {fs : List (String × (Value → Except Fault Value))} (apart : fresh ≠ origin)
    (tidy : (Value.object origin source).Proper) (filled : Filled source)
    (names : Entries.Distinct fs)
    (genuine : ∀ key f result, (key, f) ∈ fs → f (property key source) = .ok result →
      Genuine result (property key source)) :
    changedInTurn fresh (keyed fs) origin source = properties fresh (keyed fs) origin source ∧
    (∀ fault,
      (properties fresh (keyed fs) origin source = .error fault ↔ FirstFault source fs fault) ∧
      (copiedInTurn fresh (keyed fs) source = .error fault ↔ FirstFault source fs fault)) ∧
    (∀ updated, properties fresh (keyed fs) origin source = .ok updated →
      ∃ o entries copied, updated = .object o entries ∧
        copiedInTurn fresh (keyed fs) source = .ok (.object fresh copied) ∧
        Entries.names entries = Entries.names copied ∧
        updated.alike (.object fresh copied) = true) ∧
    ((∃ updated, properties fresh (keyed fs) origin source = .ok updated ∧
        updated.sharesHandle (.object origin source) = true) ↔
      ∀ key f, (key, f) ∈ fs → ∃ result, f (property key source) = .ok result ∧
        result.same (property key source) = true) ∧
    ∀ kept, Idle kept fs source →
      changedInTurn fresh (keyed (Entries.only kept fs)) origin source =
          changedInTurn fresh (keyed fs) origin source ∧
        copiedInTurn fresh (keyed (Entries.only kept fs)) source =
          copiedInTurn fresh (keyed fs) source ∧
        properties fresh (keyed (Entries.only kept fs)) origin source =
          properties fresh (keyed fs) origin source := by
  have unique := distinct_keyed names
  have copies := copiedInTurn_eq fresh unique source
  refine ⟨changedInTurn_eq fresh origin _ source, fun fault => ⟨?_, ?_⟩, ?_, ?_, ?_⟩
  · rw [properties_eq, map_eq_error, answers_keyed_eq_error]
  · rw [copies, map_eq_error, answers_keyed_eq_error]
  · intro updated done
    rw [properties_eq] at done
    obtain ⟨results, answered, rfl⟩ := map_eq_ok.mp done
    obtain ⟨o, shape⟩ := finish_eq fresh origin source (settled source results)
    have genuineResults : ∀ key result, (key, result) ∈ results →
        Genuine result (property key source) := by
      intro key result member
      obtain ⟨f, declared, made⟩ := mem_answers (answers_keyed_eq_ok.mp answered) member
      exact genuine key f result declared made
    refine ⟨o, _, setAll results source, shape, ?_, names_settled filled, ?_⟩
    · rw [copies, answered]
      rfl
    · rw [shape]
      exact alike_settled tidy filled (distinct_answers unique answered) genuineResults
  · exact exists_kept_iff apart
  · intro kept idle
    have left : keyed (Entries.only kept fs) = Entries.only kept (keyed fs) :=
      (Entries.only_mapValues _ fs).symm
    have shorter := properties_only unique tidy.distinct filled idle.keyed fresh origin
    rw [left, changedInTurn_eq, changedInTurn_eq]
    exact ⟨shorter, copiedInTurn_only unique tidy.distinct filled idle.keyed fresh, shorter⟩

theorem strategies_agree_edited :
    let source : List (String × Value) :=
      [("gone", .null), ("other", .string "o"), ("tags", .array (.root 1) []), ("swap", .string "s")]
    let fs : List (String × (Value → Except Fault Value)) :=
      [("late", fun _ => .ok (.bool true)), ("gone", fun _ => .ok .absent), ("tags", .ok),
        ("swap", fun _ => .ok (.string "t"))]
    (Value.object (.root 0) source).Proper ∧ Filled source ∧ Entries.Distinct fs ∧
      Idle (· != "tags") fs source ∧
      (∃ o entries copied,
        changedInTurn (.root 2) (keyed fs) (.root 0) source = .ok (.object o entries) ∧
        copiedInTurn (.root 2) (keyed (Entries.only (· != "tags") fs)) source =
          .ok (.object (.root 2) copied) ∧
        Entries.names entries = ["other", "tags", "swap", "late"] ∧
        Entries.names copied = Entries.names entries) ∧
      ¬∃ updated, properties (.root 2) (keyed fs) (.root 0) source = .ok updated ∧
        updated.sharesHandle (.object (.root 0) source) = true := by
  intro source fs
  have tidy : (Value.object (.root 0) source).Proper := by decide +zetaReduce
  have filled : Filled source := by simp [Filled, source]
  have names : Entries.Distinct fs := by decide
  have genuine : ∀ key f result, (key, f) ∈ fs → f (property key source) = .ok result →
      Genuine result (property key source) := by
    intro key f result member made
    simp only [fs, List.mem_cons, Prod.mk.injEq, List.not_mem_nil, or_false] at member
    rcases member with ⟨rfl, rfl⟩ | ⟨rfl, rfl⟩ | ⟨rfl, rfl⟩ | ⟨rfl, rfl⟩ <;>
      obtain rfl := Except.ok.inj made
    · exact ⟨.scalar rfl, by simp [Value.sharesHandle]⟩
    · exact ⟨.scalar rfl, by simp [Value.sharesHandle]⟩
    · exact ⟨tidy.property "tags", fun _ => rfl⟩
    · exact ⟨.scalar rfl, by simp [Value.sharesHandle]⟩
  have idle : Idle (· != "tags") fs source := by
    intro key f member out
    simp only [fs, List.mem_cons, Prod.mk.injEq, List.not_mem_nil, or_false] at member
    rcases member with ⟨rfl, rfl⟩ | ⟨rfl, rfl⟩ | ⟨rfl, rfl⟩ | ⟨rfl, rfl⟩
    · cases out
    · cases out
    · rfl
    · cases out
  have apart : (Origin.root 2) ≠ .root 0 := by decide
  obtain ⟨turn, -, equal, handed, left⟩ := strategies_agree apart tidy filled names genuine
  obtain ⟨o, entries, copied, shape, made, sameNames, -⟩ := equal _ rfl
  have shorter := (left (· != "tags") idle).2.1
  refine ⟨tidy, filled, names, idle, ⟨o, entries, copied, ?_, shorter.trans made, ?_, sameNames.symm⟩, ?_⟩
  · rw [turn, ← shape]
    rfl
  · obtain ⟨-, rfl⟩ := Value.object.inj shape
    rfl
  · intro kept
    obtain ⟨result, done, same⟩ :=
      handed.mp kept "swap" (fun _ => .ok (.string "t")) (by simp [fs])
    obtain rfl := Except.ok.inj done
    exact absurd same (by decide)

end WireSchema.Update

namespace WireSchema.Generated

open WireSchema.Update

section Helpers

variable (helpers : Nat → Conversion Fault) (fields : List (String × Code)) (fresh origin : Origin)
  (entries : List (String × Value))

def codeRuns : List (String × (Value → Except Fault Value)) :=
  Entries.mapValues (fun key code => code.run helpers (fresh.enter (.key key))) fields

theorem fieldRuns_eq_keyed : fieldRuns helpers fresh fields = keyed (codeRuns helpers fields fresh) := by
  rw [keyed, codeRuns, Entries.mapValues_mapValues]
  rfl

theorem Body.run_sparing_object : (Body.sparing fields).run helpers fresh (.object origin entries) =
    changedInTurn fresh (keyed (codeRuns helpers fields fresh)) origin entries := by
  rw [changedInTurn, ← changedProperties_eq_foldlM, ← fieldRuns_eq_keyed]
  rfl

theorem Body.run_copying_object : (Body.copying fields).run helpers fresh (.object origin entries) =
    copiedInTurn fresh (keyed (codeRuns helpers fields fresh)) entries := by
  rw [copiedInTurn, ← copiedProperties_eq_foldlM, ← fieldRuns_eq_keyed]
  rfl

end Helpers

end WireSchema.Generated
