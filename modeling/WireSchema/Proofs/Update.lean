import WireSchema.Update.Choice
import WireSchema.Update.Items
import WireSchema.Proofs.Content
import WireSchema.Proofs.Outcome

/-!
What the updates of containers do, in terms of the results of the function alone. An array comes
back itself exactly if every result is the item it came from. An object's entries are, up to those
that hold nothing, what the results are put into place of, with new ones at the end.
-/

set_option autoImplicit false

namespace WireSchema.Update

open WireSchema.Value (present contentEntries Filled)

variable {ε : Type}

/-- A result that is the very same as what it was made of is nothing else. -/
def Keeps (outcome : Except ε Value) (v : Value) : Prop :=
  ∀ result, outcome = .ok result → result.same v = true → result = v

theorem Keeps.same_iff {outcome : Except ε Value} {v result : Value} (keeps : Keeps outcome v)
    (done : outcome = .ok result) : result.same v = true ↔ result = v :=
  ⟨keeps result done, fun same => same ▸ Value.same_refl v⟩

theorem mapItems_cons_eq_ok {f : Nat → Value → Except ε Value} {i : Nat} {item : Value}
    {rest results : List Value} :
    mapItems f i (item :: rest) = .ok results ↔
      ∃ first more, f i item = .ok first ∧ mapItems f (i + 1) rest = .ok more ∧
        results = first :: more := by
  simp only [mapItems, bind_eq_ok, pure_eq_ok]
  constructor
  · rintro ⟨first, one, more, two, rfl⟩
    exact ⟨first, more, one, two, rfl⟩
  · rintro ⟨first, more, one, two, rfl⟩
    exact ⟨first, one, more, two, rfl⟩

theorem mapItems_eq_ok_iff {f : Nat → Value → Except ε Value} {i : Nat}
    {items results : List Value} :
    mapItems f i items = .ok results ↔
      results.length = items.length ∧
        ∀ j item, items[j]? = some item →
          ∃ result, results[j]? = some result ∧ f (i + j) item = .ok result := by
  induction items generalizing i results with
  | nil => simp [mapItems, List.length_eq_zero_iff, eq_comm]
  | cons item rest ih =>
    rw [mapItems_cons_eq_ok]
    constructor
    · rintro ⟨first, more, one, two, rfl⟩
      obtain ⟨length, each⟩ := ih.mp two
      refine ⟨by simp [length], fun j x found => ?_⟩
      cases j with
      | zero =>
        obtain rfl : item = x := by simpa using found
        exact ⟨first, rfl, one⟩
      | succ j =>
        obtain ⟨result, here, done⟩ := each j x (by simpa using found)
        exact ⟨result, by simpa using here, by rwa [← Nat.add_assoc, Nat.add_right_comm]⟩
    · rintro ⟨length, each⟩
      cases results with
      | nil => simp at length
      | cons first more =>
        obtain ⟨result, here, done⟩ := each 0 item rfl
        obtain rfl : first = result := by simpa using here
        refine ⟨first, more, done, ih.mpr ⟨by simpa using length, fun j x found => ?_⟩, rfl⟩
        obtain ⟨result, here, done⟩ := each (j + 1) x (by simpa using found)
        exact ⟨result, by simpa using here, by rwa [Nat.add_assoc, Nat.add_comm 1]⟩

theorem changedItems_of_ok {f : Nat → Value → Except ε Value} {i : Nat}
    {items results : List Value} (keeps : ∀ j, ∀ item ∈ items, Keeps (f j item) item)
    (done : mapItems f i items = .ok results) :
    ∃ changed, changedItems f i items = .ok changed ∧
      ((changed = none ∧ results = items) ∨ (changed = some results ∧ results ≠ items)) := by
  induction items generalizing i results with
  | nil =>
    obtain rfl : [] = results := by simpa [mapItems] using done
    exact ⟨none, rfl, Or.inl ⟨rfl, rfl⟩⟩
  | cons item rest ih =>
    obtain ⟨first, more, one, two, rfl⟩ := mapItems_cons_eq_ok.mp done
    have same := (keeps i item List.mem_cons_self).same_iff one
    simp only [changedItems, one, ok_bind]
    by_cases kept : first = item
    · subst kept
      obtain ⟨changed, rest, split⟩ :=
        ih (fun j x member => keeps j x (List.mem_cons_of_mem _ member)) two
      rcases split with ⟨rfl, rfl⟩ | ⟨rfl, differ⟩
      · exact ⟨none, by rw [if_pos (same.mpr rfl), rest]; rfl, Or.inl ⟨rfl, rfl⟩⟩
      · exact ⟨some (first :: more), by rw [if_pos (same.mpr rfl), rest]; rfl,
          Or.inr ⟨rfl, by simpa using differ⟩⟩
    · refine ⟨some (first :: more), ?_, Or.inr ⟨rfl, by simp [kept]⟩⟩
      rw [if_neg (mt same.mp kept), two]
      rfl

theorem mapItems_of_changedItems {f : Nat → Value → Except ε Value} {i : Nat}
    {items : List Value} {changed : Option (List Value)}
    (done : changedItems f i items = .ok changed) :
    ∃ results, mapItems f i items = .ok results := by
  induction items generalizing i changed with
  | nil => exact ⟨[], rfl⟩
  | cons item rest ih =>
    simp only [changedItems, bind_eq_ok] at done
    obtain ⟨first, one, done⟩ := done
    split at done
    · simp only [bind_eq_ok] at done
      obtain ⟨_, more, _⟩ := done
      obtain ⟨results, more⟩ := ih more
      exact ⟨first :: results, mapItems_cons_eq_ok.mpr ⟨first, results, one, more, rfl⟩⟩
    · simp only [bind_eq_ok] at done
      obtain ⟨results, more, _⟩ := done
      exact ⟨first :: results, mapItems_cons_eq_ok.mpr ⟨first, results, one, more, rfl⟩⟩

theorem items_eq_ok_iff {fresh origin : Origin} {f : Nat → Value → Except ε Value}
    {values : List Value} {v : Value} (keeps : ∀ j, ∀ x ∈ values, Keeps (f j x) x) :
    items fresh f origin values = .ok v ↔
      ∃ results, mapItems f 0 values = .ok results ∧
        ((results = values ∧ v = .array origin values) ∨
          (results ≠ values ∧ v = .array fresh results)) := by
  simp only [items, bind_eq_ok]
  constructor
  · rintro ⟨changed, done, shape⟩
    obtain ⟨results, mapped⟩ := mapItems_of_changedItems done
    obtain ⟨changed', done', split⟩ := changedItems_of_ok keeps mapped
    obtain rfl : changed = changed' := Except.ok.inj (done.symm.trans done')
    refine ⟨results, mapped, ?_⟩
    rcases split with ⟨rfl, same⟩ | ⟨rfl, differ⟩
    · exact Or.inl ⟨same, (Except.ok.inj shape).symm⟩
    · exact Or.inr ⟨differ, (Except.ok.inj shape).symm⟩
  · rintro ⟨results, mapped, shape⟩
    obtain ⟨changed, done, split⟩ := changedItems_of_ok keeps mapped
    refine ⟨changed, done, ?_⟩
    rcases split with ⟨rfl, same⟩ | ⟨rfl, differ⟩
    · rcases shape with ⟨_, rfl⟩ | ⟨differ, _⟩
      · rfl
      · exact absurd same differ
    · rcases shape with ⟨same, _⟩ | ⟨_, rfl⟩
      · exact absurd same differ
      · rfl

def answers (source : List (String × Value)) :
    List (String × (Value → Except ε Value)) → Except ε (List (String × Value))
  | [] => .ok []
  | (key, f) :: rest => do
    let result ← f (property key source)
    let more ← answers source rest
    return (key, result) :: more

def setAll (results entries : List (String × Value)) : List (String × Value) :=
  results.foldl (fun entries result => setProperty result.1 result.2 entries) entries

def settled (source : List (String × Value)) : List (String × Value) →
    Option (List (String × Value))
  | [] => none
  | (key, result) :: rest =>
    if result.same (property key source) then settled source rest
    else some (setAll rest (setProperty key result source))

/-- Entries with results put into their places; results for names that are missing come last. -/
def revised (results entries : List (String × Value)) : List (String × Value) :=
  Entries.mapValues (fun key value => (Entries.get? key results).getD value) entries ++
    results.filter fun result => !(Entries.names entries).contains result.1

theorem answers_cons_eq_ok {source : List (String × Value)} {key : String}
    {f : Value → Except ε Value} {rest : List (String × (Value → Except ε Value))}
    {results : List (String × Value)} :
    answers source ((key, f) :: rest) = .ok results ↔
      ∃ result more, f (property key source) = .ok result ∧ answers source rest = .ok more ∧
        results = (key, result) :: more := by
  simp only [answers, bind_eq_ok, pure_eq_ok]
  constructor
  · rintro ⟨result, one, more, two, rfl⟩
    exact ⟨result, more, one, two, rfl⟩
  · rintro ⟨result, more, one, two, rfl⟩
    exact ⟨result, one, more, two, rfl⟩

theorem names_answers {source : List (String × Value)}
    {fs : List (String × (Value → Except ε Value))} {results : List (String × Value)}
    (done : answers source fs = .ok results) : Entries.names results = Entries.names fs := by
  induction fs generalizing results with
  | nil =>
    obtain rfl := Except.ok.inj done
    rfl
  | cons f rest ih =>
    obtain ⟨result, more, _, two, rfl⟩ := answers_cons_eq_ok.mp done
    simp [ih two]

theorem distinct_answers {source : List (String × Value)}
    {fs : List (String × (Value → Except ε Value))} {results : List (String × Value)}
    (names : Entries.Distinct fs) (done : answers source fs = .ok results) :
    Entries.Distinct results := by
  rw [Entries.Distinct, names_answers done]
  exact names

theorem mem_answers {source : List (String × Value)}
    {fs : List (String × (Value → Except ε Value))} {results : List (String × Value)}
    (done : answers source fs = .ok results) {key : String} {result : Value}
    (member : (key, result) ∈ results) :
    ∃ f, (key, f) ∈ fs ∧ f (property key source) = .ok result := by
  induction fs generalizing results with
  | nil =>
    obtain rfl := Except.ok.inj done
    simp at member
  | cons f rest ih =>
    obtain ⟨first, more, one, two, rfl⟩ := answers_cons_eq_ok.mp done
    rcases List.mem_cons.mp member with same | member
    · obtain ⟨rfl, rfl⟩ := Prod.mk.inj same
      exact ⟨f.2, List.mem_cons_self, one⟩
    · obtain ⟨g, there, done⟩ := ih two member
      exact ⟨g, List.mem_cons_of_mem _ there, done⟩

theorem exists_mem_answers {source : List (String × Value)}
    {fs : List (String × (Value → Except ε Value))} {results : List (String × Value)}
    (done : answers source fs = .ok results) {key : String} {f : Value → Except ε Value}
    (member : (key, f) ∈ fs) :
    ∃ result, (key, result) ∈ results ∧ f (property key source) = .ok result := by
  induction fs generalizing results with
  | nil => simp at member
  | cons g rest ih =>
    obtain ⟨first, more, one, two, rfl⟩ := answers_cons_eq_ok.mp done
    rcases List.mem_cons.mp member with rfl | member
    · exact ⟨first, List.mem_cons_self, one⟩
    · obtain ⟨result, there, done⟩ := ih two member
      exact ⟨result, List.mem_cons_of_mem _ there, done⟩

theorem exists_answers {source : List (String × Value)}
    {fs : List (String × (Value → Except ε Value))}
    (each : ∀ key f, (key, f) ∈ fs → ∃ result, f (property key source) = .ok result) :
    ∃ results, answers source fs = .ok results := by
  induction fs with
  | nil => exact ⟨[], rfl⟩
  | cons f rest ih =>
    obtain ⟨result, one⟩ := each f.1 f.2 List.mem_cons_self
    obtain ⟨more, two⟩ := ih fun key g member => each key g (List.mem_cons_of_mem _ member)
    exact ⟨(f.1, result) :: more, answers_cons_eq_ok.mpr ⟨result, more, one, two, rfl⟩⟩

theorem changedProperties_some (source : List (String × Value))
    (fs : List (String × (Value → Except ε Value))) (copy : List (String × Value)) :
    changedProperties source fs (some copy) =
      (answers source fs).map fun results => some (setAll results copy) := by
  induction fs generalizing copy with
  | nil => rfl
  | cons f rest ih =>
    simp only [changedProperties, changedProperty, answers]
    cases f.2 (property f.1 source) with
    | error e => rfl
    | ok result =>
      simp only [ok_bind, pure_bind]
      rw [ih]
      cases answers source rest <;> rfl

/-- The sparing update asks every function about the original entries and settles afterwards. -/
theorem changedProperties_none (source : List (String × Value))
    (fs : List (String × (Value → Except ε Value))) :
    changedProperties source fs none = (answers source fs).map (settled source) := by
  induction fs with
  | nil => rfl
  | cons f rest ih =>
    simp only [changedProperties, changedProperty, answers]
    cases f.2 (property f.1 source) with
    | error e => rfl
    | ok result =>
      simp only [ok_bind]
      by_cases same : result.same (property f.1 source) = true
      · rw [if_pos same, pure_bind, ih]
        cases answers source rest with
        | error e => rfl
        | ok more => exact congrArg Except.ok (if_pos same).symm
      · rw [if_neg same, pure_bind, changedProperties_some]
        cases answers source rest with
        | error e => rfl
        | ok more => exact congrArg Except.ok (if_neg same).symm

theorem get?_setProperty_of_ne {key other : String} {value : Value}
    {entries : List (String × Value)} (differ : other ≠ key) :
    Entries.get? key (setProperty other value entries) = Entries.get? key entries := by
  unfold setProperty
  split
  · exact Entries.get?_erase_of_ne differ
  · exact Entries.get?_set_of_ne differ

theorem property_setProperty_of_ne {key other : String} {value : Value}
    {entries : List (String × Value)} (differ : other ≠ key) :
    property key (setProperty other value entries) = property key entries := by
  rw [property, get?_setProperty_of_ne differ, property]

theorem property_setProperty {key : String} {value : Value} {entries : List (String × Value)}
    (distinct : Entries.Distinct entries) : property key (setProperty key value entries) = value := by
  unfold property setProperty
  split
  · next empty =>
    have gone : key ∉ Entries.names (Entries.erase key entries) := by
      rw [Entries.erase_eq_filter distinct]
      simp [Entries.names]
    rw [Entries.get?_eq_none gone, Value.isAbsent_eq_true.mp empty]
    rfl
  · rw [Entries.get?_set_self]
    rfl

theorem copiedProperties_eq {source entries : List (String × Value)}
    {fs : List (String × (Value → Except ε Value))} (distinct : Entries.Distinct fs)
    (untouched : ∀ key ∈ Entries.names fs, property key entries = property key source) :
    copiedProperties fs entries = (answers source fs).map fun results => setAll results entries := by
  induction fs generalizing entries with
  | nil => rfl
  | cons f rest ih =>
    obtain ⟨fresh, tail⟩ := Entries.distinct_cons.mp distinct
    simp only [copiedProperties, copiedProperty, answers,
      untouched f.1 List.mem_cons_self]
    cases f.2 (property f.1 source) with
    | error e => rfl
    | ok result =>
      simp only [ok_bind, pure_bind]
      have later : ∀ key ∈ Entries.names rest,
          property key (setProperty f.1 result entries) = property key source := by
        intro key member
        have differ : f.1 ≠ key := fun same => fresh (same ▸ member)
        rw [property_setProperty_of_ne differ]
        exact untouched key (List.mem_cons_of_mem _ member)
      rw [ih tail later]
      cases answers source rest <;> rfl

theorem distinct_setProperty {entries : List (String × Value)}
    (distinct : Entries.Distinct entries) (key : String) (value : Value) :
    Entries.Distinct (setProperty key value entries) := by
  unfold setProperty
  split
  · exact distinct.erase key
  · exact distinct.set key value

theorem filled_setProperty {entries : List (String × Value)} (filled : Filled entries)
    (key : String) (value : Value) : Filled (setProperty key value entries) := by
  intro entry member
  unfold setProperty at member
  split at member
  · exact filled entry (Entries.mem_of_mem_erase member)
  · next there =>
    rcases Entries.eq_or_mem_of_mem_set member with rfl | old
    · exact fun gone => there (Value.isAbsent_eq_true.mpr gone)
    · exact filled entry old

theorem property_setAll {results entries : List (String × Value)}
    (distinct : Entries.Distinct entries) (names : Entries.Distinct results) (key : String) :
    property key (setAll results entries) =
      (Entries.get? key results).getD (property key entries) := by
  induction results generalizing entries with
  | nil => rfl
  | cons first rest ih =>
    obtain ⟨name, result⟩ := first
    obtain ⟨fresh, tail⟩ := Entries.distinct_cons.mp names
    have others := ih (distinct_setProperty distinct name result) tail
    rw [setAll, List.foldl_cons]
    refine others.trans ?_
    by_cases same : name = key
    · subst same
      rw [Entries.get?_eq_none fresh, property_setProperty distinct]
      simp [Entries.get?]
    · rw [property_setProperty_of_ne same]
      simp [Entries.get?, same]

theorem filled_setAll {results entries : List (String × Value)} (filled : Filled entries) :
    Filled (setAll results entries) := by
  induction results generalizing entries with
  | nil => exact filled
  | cons result rest ih => exact ih (filled_setProperty filled result.1 result.2)

theorem distinct_setAll {results entries : List (String × Value)}
    (distinct : Entries.Distinct entries) : Entries.Distinct (setAll results entries) := by
  induction results generalizing entries with
  | nil => exact distinct
  | cons result rest ih => exact ih (distinct_setProperty distinct result.1 result.2)

theorem get?_setAll_of_not_mem {key : String} {results entries : List (String × Value)}
    (other : key ∉ Entries.names results) :
    Entries.get? key (setAll results entries) = Entries.get? key entries := by
  induction results generalizing entries with
  | nil => rfl
  | cons first rest ih =>
    obtain ⟨differ, later⟩ := not_or.mp (mt List.mem_cons.mpr other)
    have others : Entries.get? key (setAll rest (setProperty first.1 first.2 entries)) =
        Entries.get? key (setProperty first.1 first.2 entries) := ih later
    have here : Entries.get? key (setProperty first.1 first.2 entries) = Entries.get? key entries :=
      get?_setProperty_of_ne (Ne.symm differ)
    exact others.trans here

/-- The results up to the first change are what was there before; those from there on are stored. -/
theorem exists_settled (source results : List (String × Value)) :
    ∃ kept later, results = kept ++ later ∧
      (∀ key result, (key, result) ∈ kept → result.same (property key source) = true) ∧
      (settled source results).getD source = setAll later source := by
  induction results with
  | nil => exact ⟨[], [], rfl, by simp, rfl⟩
  | cons first rest ih =>
    obtain ⟨key, result⟩ := first
    by_cases same : result.same (property key source) = true
    · obtain ⟨kept, later, rfl, unchanged, stored⟩ := ih
      refine ⟨(key, result) :: kept, later, rfl, ?_, ?_⟩
      · intro name value member
        rcases List.mem_cons.mp member with here | member
        · obtain ⟨rfl, rfl⟩ := Prod.mk.inj here
          exact same
        · exact unchanged name value member
      · rw [settled, if_pos same]
        exact stored
    · refine ⟨[], (key, result) :: rest, rfl, by simp, ?_⟩
      rw [settled, if_neg same]
      rfl

theorem distinct_settled {source : List (String × Value)} (distinct : Entries.Distinct source)
    (results : List (String × Value)) :
    Entries.Distinct ((settled source results).getD source) := by
  obtain ⟨-, later, -, -, stored⟩ := exists_settled source results
  rw [stored]
  exact distinct_setAll distinct

theorem filled_settled {source : List (String × Value)} (filled : Filled source)
    (results : List (String × Value)) : Filled ((settled source results).getD source) := by
  obtain ⟨-, later, -, -, stored⟩ := exists_settled source results
  rw [stored]
  exact filled_setAll filled

theorem property_settled_of_mem {source results : List (String × Value)} {key : String}
    {result : Value} (distinct : Entries.Distinct source) (names : Entries.Distinct results)
    (member : (key, result) ∈ results) :
    property key ((settled source results).getD source) = result ∨
      property key ((settled source results).getD source) = property key source ∧
        result.same (property key source) = true := by
  obtain ⟨kept, later, rfl, unchanged, stored⟩ := exists_settled source results
  obtain ⟨-, unique, apart⟩ := Entries.distinct_append.mp names
  rw [stored, property_setAll distinct unique]
  rcases List.mem_append.mp member with early | late
  · right
    have outside : key ∉ Entries.names later := apart key (Entries.mem_names_of_mem early)
    rw [Entries.get?_eq_none outside]
    exact ⟨rfl, unchanged key result early⟩
  · left
    rw [Entries.get?_of_mem unique late, Option.getD_some]

theorem get?_settled_of_not_mem {source results : List (String × Value)} {key : String}
    (other : key ∉ Entries.names results) :
    Entries.get? key ((settled source results).getD source) = Entries.get? key source := by
  obtain ⟨kept, later, rfl, -, stored⟩ := exists_settled source results
  rw [stored]
  apply get?_setAll_of_not_mem
  intro inside
  exact other (by simp [inside])

theorem property_settled {source results : List (String × Value)}
    (distinct : Entries.Distinct source) (names : Entries.Distinct results)
    (keeps : ∀ key result, (key, result) ∈ results →
      result.same (property key source) = true → result = property key source) (key : String) :
    property key ((settled source results).getD source) =
      (Entries.get? key results).getD (property key source) := by
  cases found : Entries.get? key results with
  | none =>
    have other : key ∉ Entries.names results := Entries.get?_eq_none_iff.mp found
    rw [property, get?_settled_of_not_mem other]
    rfl
  | some result =>
    have member := Entries.mem_of_get? found
    rcases property_settled_of_mem distinct names member with placed | ⟨stays, same⟩
    · exact placed
    · exact stays.trans (keeps key result member same).symm

theorem revised_nil (entries : List (String × Value)) : revised [] entries = entries := by
  simp [revised, Entries.mapValues_id]

private theorem present_append (as bs : List (String × Value)) :
    present (as ++ bs) = present as ++ present bs :=
  List.filter_append ..

private theorem getD_get?_cons {key other : String} {result value : Value}
    {results : List (String × Value)} :
    (Entries.get? other ((key, result) :: results)).getD value =
      if other = key then result else (Entries.get? other results).getD value := by
  by_cases same : key = other
  · simp [Entries.get?, same]
  · simp [Entries.get?, same, Ne.symm same]

private theorem revised_cons (key : String) (result : Value)
    (results entries : List (String × Value)) :
    revised ((key, result) :: results) entries =
      Entries.mapValues (fun name value =>
        if name = key then result else (Entries.get? name results).getD value) entries ++
      ((if key ∈ Entries.names entries then [] else [(key, result)]) ++
        results.filter fun result => !(Entries.names entries).contains result.1) := by
  unfold revised
  simp only [getD_get?_cons, List.filter_cons]
  by_cases member : key ∈ Entries.names entries
  · simp [member]
  · simp [member]

private theorem filter_missing_congr {key : String} {results : List (String × Value)}
    (fresh : key ∉ Entries.names results) {names others : List String}
    (agree : ∀ name, name ≠ key → (name ∈ names ↔ name ∈ others)) :
    (results.filter fun result => !names.contains result.1) =
      results.filter fun result => !others.contains result.1 := by
  apply List.filter_congr
  intro result member
  have differ : result.1 ≠ key := fun same => fresh (same ▸ Entries.mem_names_of_mem member)
  simp [agree result.1 differ]

private theorem present_mapValues_filter (f : String → Value → Value) (key : String)
    (entries : List (String × Value)) :
    present (Entries.mapValues f (entries.filter fun entry => entry.1 ≠ key)) =
      present (Entries.mapValues
        (fun name value => if name = key then .absent else f name value) entries) := by
  induction entries with
  | nil => rfl
  | cons entry rest ih =>
    by_cases same : entry.1 = key
    · rw [List.filter_cons_of_neg (by simp [same]), ih, Entries.mapValues_cons]
      simp [present, same]
    · rw [List.filter_cons_of_pos (by simp [same]), Entries.mapValues_cons,
        Entries.mapValues_cons, if_neg same]
      simp only [present, List.filter_cons] at ih ⊢
      rw [ih]

theorem present_revised_setProperty {key : String} {result : Value}
    {results entries : List (String × Value)} (distinct : Entries.Distinct entries)
    (fresh : key ∉ Entries.names results) :
    present (revised results (setProperty key result entries)) =
      present (revised ((key, result) :: results) entries) := by
  have own : ∀ value, (Entries.get? key results).getD value = value := by
    simp [Entries.get?_eq_none fresh]
  rw [revised_cons]
  by_cases empty : result = .absent
  · subst empty
    have gone : present (if key ∈ Entries.names entries then [] else [(key, Value.absent)]) = [] := by
      split <;> rfl
    rw [setProperty, if_pos Value.isAbsent_absent, Entries.erase_eq_filter distinct, revised, present_append,
      present_mapValues_filter, present_append, present_append, gone, List.nil_append]
    congr 2
    apply filter_missing_congr fresh
    intro name differ
    simp [Entries.names, differ]
  · rw [setProperty, if_neg (by simpa using empty)]
    by_cases member : key ∈ Entries.names entries
    · rw [Entries.set_eq_mapValues distinct member, revised, Entries.mapValues_mapValues,
        Entries.names_mapValues, if_pos member, List.nil_append]
      congr 2
      apply Entries.mapValues_congr
      intro name value _
      by_cases same : name = key
      · simp [same, own]
      · simp [same]
    · rw [Entries.set_of_not_mem member, revised, Entries.mapValues_append, if_neg member,
        List.append_assoc]
      congr 2
      · apply Entries.mapValues_congr
        intro name value found
        have differ : name ≠ key := fun same => member (same ▸ Entries.mem_names_of_mem found)
        simp [differ]
      · simp only [Entries.mapValues_cons, Entries.mapValues_nil, own, List.cons_append,
          List.nil_append, List.cons.injEq, true_and]
        apply filter_missing_congr fresh
        intro name differ
        simp [differ]

/-- Results stored one after the other lead to what they are put into the places of. -/
theorem present_setAll {results entries : List (String × Value)}
    (distinct : Entries.Distinct entries) (names : Entries.Distinct results) :
    present (setAll results entries) = present (revised results entries) := by
  induction results generalizing entries with
  | nil => rw [revised_nil]; rfl
  | cons result rest ih =>
    obtain ⟨fresh, tail⟩ := Entries.distinct_cons.mp names
    rw [← present_revised_setProperty distinct fresh]
    exact ih (distinct_setProperty distinct _ _) tail

private theorem present_revised_property {key : String} {results entries : List (String × Value)}
    (distinct : Entries.Distinct entries) (fresh : key ∉ Entries.names results) :
    present (revised ((key, property key entries) :: results) entries) =
      present (revised results entries) := by
  rw [revised_cons, revised]
  by_cases member : key ∈ Entries.names entries
  · rw [if_pos member, List.nil_append]
    congr 2
    apply Entries.mapValues_congr
    intro name value found
    by_cases same : name = key
    · subst same
      simp [Entries.get?_eq_none fresh, property, Entries.get?_of_mem distinct found]
    · simp [same]
  · have missing : property key entries = .absent := by
      simp [property, Entries.get?_eq_none member]
    rw [if_neg member, missing, present_append, present_append, present_append]
    congr 1
    congr 1
    apply Entries.mapValues_congr
    intro name value found
    have differ : name ≠ key := fun same => member (same ▸ Entries.mem_names_of_mem found)
    simp [differ]

theorem settled_eq_none_iff {source results : List (String × Value)} :
    settled source results = none ↔
      ∀ key result, (key, result) ∈ results → result.same (property key source) = true := by
  induction results with
  | nil => simp [settled]
  | cons first rest ih =>
    simp only [settled]
    split
    · next same =>
      rw [ih]
      constructor
      · intro others key result member
        rcases List.mem_cons.mp member with rfl | member
        · exact same
        · exact others key result member
      · exact fun all key result member => all key result (List.mem_cons_of_mem _ member)
    · next differ =>
      refine ⟨fun copied => absurd copied (by simp), fun all => ?_⟩
      exact absurd (all first.1 first.2 List.mem_cons_self) differ

theorem present_settled {source results : List (String × Value)}
    (distinct : Entries.Distinct source) (names : Entries.Distinct results)
    (keeps : ∀ key result, (key, result) ∈ results →
      result.same (property key source) = true → result = property key source) :
    present ((settled source results).getD source) = present (revised results source) := by
  induction results with
  | nil => rw [revised_nil]; rfl
  | cons first rest ih =>
    obtain ⟨key, result⟩ := first
    obtain ⟨fresh, tail⟩ := Entries.distinct_cons.mp names
    simp only [settled]
    split
    · next same =>
      rw [keeps key result List.mem_cons_self same, present_revised_property distinct fresh]
      exact ih tail fun k r member => keeps k r (List.mem_cons_of_mem _ member)
    · rw [Option.getD_some, present_setAll (distinct_setProperty distinct _ _) tail,
        present_revised_setProperty distinct fresh]

theorem content_variantValue {fresh : Origin} {kind : String} {a b : Value}
    (alike : a.content = b.content) :
    (variantValue fresh kind a).content =
      .object (.root 0) (contentEntries [(kindKey, .string kind), (valueKey, b)]) := by
  have empty : a.isAbsent = b.isAbsent := by
    rw [← Value.isAbsent_content a, alike, Value.isAbsent_content]
  rw [variantValue, Value.content_object]
  have name : (Value.string kind).isAbsent = false := rfl
  cases nothing : b.isAbsent <;>
    simp [setProperty, contentEntries, Entries.set, Entries.erase, kindKey, valueKey,
      empty, nothing, alike, name]

theorem contentEntries_variant {kind : String} {y : Value} (there : y ≠ .absent) :
    contentEntries [(kindKey, .string kind), (valueKey, y)] =
      [(kindKey, .string kind), (valueKey, y.content)] := by
  have name : (Value.string kind).isAbsent = false := rfl
  simp [contentEntries, name, Value.isAbsent_eq_false.mpr there, Value.content]

theorem names_contentEntries (entries : List (String × Value)) :
    Entries.names (contentEntries entries) = Entries.names (present entries) := by
  rw [Value.contentEntries_eq, Entries.names_mapValues]

theorem content_variantValue_inj {fresh : Origin} {kind : String} {y z : Value} :
    (variantValue fresh kind y).content = (variantValue fresh kind z).content ↔
      y.content = z.content := by
  constructor
  · intro alike
    have distinct : ∀ v, Entries.Distinct [(kindKey, Value.string kind), (valueKey, v)] := by
      intro v
      simp [Entries.Distinct, Entries.names, kindKey, valueKey]
    rw [content_variantValue rfl, content_variantValue rfl, Value.object.injEq, eq_self,
      true_and] at alike
    have found := congrArg (property valueKey) alike
    rwa [Value.property_contentEntries (distinct y), Value.property_contentEntries (distinct z)]
      at found
  · intro alike
    rw [content_variantValue alike, content_variantValue rfl]

/-- An object made of a variant's name and a payload shows what the object it replaces does exactly
if that shows these two properties in this order, nothing else, and the same payload. -/
theorem content_variantValue_iff {fresh origin : Origin} {kind : String} {y : Value}
    {entries : List (String × Value)} (distinct : Entries.Distinct entries)
    (named : property kindKey entries = .string kind)
    (there : property valueKey entries ≠ .absent) :
    (variantValue fresh kind y).content = (Value.object origin entries).content ↔
      Entries.names (present entries) = [kindKey, valueKey] ∧
        y.content = (property valueKey entries).content := by
  rw [content_variantValue rfl, Value.content_object, Value.object.injEq, eq_self, true_and, ← names_contentEntries]
  have payload := Value.property_contentEntries distinct valueKey
  have name := Value.property_contentEntries distinct kindKey
  rw [named] at name
  constructor
  · intro alike
    have found := congrArg (property valueKey) alike
    rw [payload] at found
    by_cases gone : y = .absent
    · subst gone
      exact absurd (Value.content_eq_absent.mp found.symm) there
    · rw [contentEntries_variant gone] at alike found
      exact ⟨by rw [← alike]; rfl, found⟩
  · rintro ⟨names, alike⟩
    have some : y ≠ .absent := by
      rintro rfl
      exact there (Value.content_eq_absent.mp alike.symm)
    rw [contentEntries_variant some, alike, ← payload]
    generalize contentEntries entries = shown at names name ⊢
    match shown, names with
    | [(_, a), (_, b)], names =>
      simp only [Entries.names_cons, Entries.names_nil, List.cons.injEq, and_true] at names
      obtain ⟨rfl, rfl⟩ := names
      obtain rfl : a = .string kind := by simpa [property, Entries.get?, Value.content] using name
      rfl

section Failures

variable {fresh origin : Origin} {e : ε} {f : Nat → Value → Except ε Value} {values : List Value}

private theorem exists_later {i : Nat} {item : Value}
    (later : ∃ j x, values[j]? = some x ∧ f (i + 1 + j) x = .error e) :
    ∃ j x, (item :: values)[j]? = some x ∧ f (i + j) x = .error e := by
  obtain ⟨j, x, found, failed⟩ := later
  exact ⟨j + 1, x, found, by rwa [← Nat.add_assoc, Nat.add_right_comm]⟩

theorem mapItems_eq_error {i : Nat} (failed : mapItems f i values = .error e) :
    ∃ j x, values[j]? = some x ∧ f (i + j) x = .error e := by
  induction values generalizing i with
  | nil => simp [mapItems] at failed
  | cons item rest ih =>
    rcases bind_eq_error.mp failed with first | ⟨_, -, others⟩
    · exact ⟨0, item, rfl, first⟩
    · rcases bind_eq_error.mp others with later | ⟨_, -, done⟩
      · exact exists_later (ih later)
      · simp at done

theorem changedItems_eq_error {i : Nat} (failed : changedItems f i values = .error e) :
    ∃ j x, values[j]? = some x ∧ f (i + j) x = .error e := by
  induction values generalizing i with
  | nil => simp [changedItems] at failed
  | cons item rest ih =>
    rcases bind_eq_error.mp failed with first | ⟨_, -, others⟩
    · exact ⟨0, item, rfl, first⟩
    · split at others
      · rcases bind_eq_error.mp others with later | ⟨_, -, done⟩
        · exact exists_later (ih later)
        · simp at done
      · rcases bind_eq_error.mp others with later | ⟨_, -, done⟩
        · exact exists_later (mapItems_eq_error later)
        · simp at done

theorem items_eq_error (failed : items fresh f origin values = .error e) :
    ∃ j x, values[j]? = some x ∧ f j x = .error e := by
  rcases bind_eq_error.mp failed with failed | ⟨changed, -, done⟩
  · obtain ⟨j, x, found, failed⟩ := changedItems_eq_error failed
    exact ⟨j, x, found, by rwa [Nat.zero_add] at failed⟩
  · cases changed <;> simp at done

theorem changedProperties_eq_error {source : List (String × Value)}
    {fs : List (String × (Value → Except ε Value))} {copy : Option (List (String × Value))}
    (failed : changedProperties source fs copy = .error e) :
    ∃ key f, (key, f) ∈ fs ∧ f (property key source) = .error e := by
  induction fs generalizing copy with
  | nil => simp [changedProperties] at failed
  | cons first rest ih =>
    rcases bind_eq_error.mp failed with here | ⟨_, -, later⟩
    · rcases bind_eq_error.mp here with here | ⟨_, -, done⟩
      · exact ⟨first.1, first.2, List.mem_cons_self, here⟩
      · cases copy with
        | some entries => simp at done
        | none =>
          dsimp only at done
          split at done <;> simp at done
    · obtain ⟨key, f, member, failed⟩ := ih later
      exact ⟨key, f, List.mem_cons_of_mem _ member, failed⟩

theorem properties_eq_error {source : List (String × Value)}
    {fs : List (String × (Value → Except ε Value))}
    (failed : properties fresh fs origin source = .error e) :
    ∃ key f, (key, f) ∈ fs ∧ f (property key source) = .error e := by
  rcases bind_eq_error.mp failed with failed | ⟨_, -, done⟩
  · exact changedProperties_eq_error failed
  · simp at done

theorem mappedPayload_eq_error {f : Value → Except ε Value} {kind : String} {v : Value}
    (failed : mappedPayload fresh kind f v = .error e) : f (payload v) = .error e := by
  rcases bind_eq_error.mp failed with failed | ⟨_, -, done⟩
  · exact failed
  · split at done <;> simp at done

end Failures

end WireSchema.Update
