import WireSchema.Proofs.Binary64
import WireSchema.Proofs.Content
import WireSchema.Proofs.Outcome

/-!
The values of documents: nothing native is in them and nothing is absent. The tree of such a value
is settled, that is, it is the tree of its own value.
-/

set_option autoImplicit false

namespace WireSchema

namespace Json

inductive Proper : Json → Prop where
  | null : Proper .null
  | bool (b : Bool) : Proper (.bool b)
  | integer (n : Int) : Proper (.integer n)
  | double (x : Binary64) : Proper (.double x)
  | string (s : String) : Proper (.string s)
  | array {items : List Json} : (∀ item ∈ items, Proper item) → Proper (.array items)
  | object {members : List (String × Json)} : Entries.Distinct members →
      (∀ name value, (name, value) ∈ members → Proper value) → Proper (.object members)

/-- The integers are of at most 64 bits and the floating-point numbers are finite. -/
inductive Sized : Json → Prop where
  | null : Sized .null
  | bool (b : Bool) : Sized (.bool b)
  | integer {n : Int} : -9223372036854775808 ≤ n → n ≤ 18446744073709551615 → Sized (.integer n)
  | double {x : Binary64} : x.isFinite = true → Sized (.double x)
  | string (s : String) : Sized (.string s)
  | array {items : List Json} : (∀ item ∈ items, Sized item) → Sized (.array items)
  | object {members : List (String × Json)} :
      (∀ name value, (name, value) ∈ members → Sized value) → Sized (.object members)

end Json

namespace Value

/-- Values that documents have: nothing native and nothing absent, and the keys of objects are
distinct. -/
inductive Plain : Value → Prop where
  | null : Plain .null
  | bool (b : Bool) : Plain (.bool b)
  | number (x : Binary64) : Plain (.number x)
  | string (s : String) : Plain (.string s)
  | array {origin : Origin} {items : List Value} : (∀ item ∈ items, Plain item) →
      Plain (.array origin items)
  | object {origin : Origin} {entries : List (String × Value)} : Entries.Distinct entries →
      (∀ key value, (key, value) ∈ entries → Plain value) → Plain (.object origin entries)

/-- Nothing in the value is absent, and the keys of objects are distinct. -/
inductive Whole : Value → Prop where
  | scalar {v : Value} : v.isContainer = false → v ≠ .absent → Whole v
  | array {origin : Origin} {items : List Value} : (∀ item ∈ items, Whole item) →
      Whole (.array origin items)
  | object {origin : Origin} {entries : List (String × Value)} : Entries.Distinct entries →
      (∀ key value, (key, value) ∈ entries → Whole value) → Whole (.object origin entries)

theorem Plain.whole {v : Value} (plain : v.Plain) : v.Whole := by
  induction plain with
  | array _ ih => exact .array ih
  | object distinct _ ih => exact .object distinct ih
  | _ => exact .scalar rfl (by simp)

theorem Whole.ne_absent {v : Value} (whole : v.Whole) : v ≠ .absent := by
  rintro rfl
  cases whole with
  | scalar _ there => exact there rfl

theorem Whole.proper {v : Value} (whole : v.Whole) : v.Proper := by
  induction whole with
  | scalar plain _ => exact .scalar plain
  | array _ ih => exact .array ih
  | object distinct _ ih => exact .object distinct ih

section Parts

variable {origin : Origin} {values : List Value} {entries : List (String × Value)}

theorem Plain.item (plain : Plain (.array origin values)) : ∀ x ∈ values, x.Plain := by
  cases plain with
  | array each => exact each

theorem Plain.distinct (plain : Plain (.object origin entries)) : Entries.Distinct entries := by
  cases plain with
  | object distinct _ => exact distinct

theorem Plain.entry (plain : Plain (.object origin entries)) {key : String} {value : Value}
    (member : (key, value) ∈ entries) : value.Plain := by
  cases plain with
  | object _ each => exact each key value member

theorem Plain.property (plain : Plain (.object origin entries)) {key : String}
    (within : key ∈ Entries.names entries) : (Update.property key entries).Plain := by
  obtain ⟨value, found⟩ := Entries.exists_get?_of_mem_names within
  rw [Update.property, found]
  exact plain.entry (Entries.mem_of_get? found)

theorem Plain.property_of_ne (plain : Plain (.object origin entries)) {key : String}
    (there : Update.property key entries ≠ .absent) : (Update.property key entries).Plain := by
  rcases property_mem key entries with gone | member
  · exact absurd gone there
  · exact plain.entry member

theorem Whole.distinct (whole : Whole (.object origin entries)) : Entries.Distinct entries :=
  whole.proper.distinct

theorem Whole.entry (whole : Whole (.object origin entries)) {key : String} {value : Value}
    (member : (key, value) ∈ entries) : value.Whole := by
  cases whole with
  | scalar plain _ => simp [isContainer] at plain
  | object _ each => exact each key value member

theorem Whole.item (whole : Whole (.array origin values)) : ∀ x ∈ values, x.Whole := by
  cases whole with
  | scalar plain _ => simp [isContainer] at plain
  | array each => exact each

theorem Whole.property_of_ne (whole : Whole (.object origin entries)) {key : String}
    (there : Update.property key entries ≠ .absent) : (Update.property key entries).Whole := by
  rcases property_mem key entries with gone | member
  · exact absurd gone there
  · exact whole.entry member

theorem Whole.filled (whole : Whole (.object origin entries)) : Filled entries :=
  fun _ member => (whole.entry member).ne_absent

end Parts

theorem length_ofItems (origin : Origin) (i : Nat) (items : List Json) :
    (ofItems origin i items).length = items.length := by
  induction items generalizing i with
  | nil => rfl
  | cons item rest ih => simp [ofItems, ih]

theorem getElem?_ofItems (origin : Origin) (i : Nat) (items : List Json) (j : Nat) :
    (ofItems origin i items)[j]? = items[j]?.map (ofJson (origin.enter (.index (i + j)))) := by
  induction items generalizing i j with
  | nil => rfl
  | cons item rest ih =>
    cases j with
    | zero => rfl
    | succ j =>
      have next : i + 1 + j = i + (j + 1) := by omega
      simpa [ofItems, next] using ih (i + 1) j

theorem ofMembers_eq (origin : Origin) (members : List (String × Json)) :
    ofMembers origin members =
      Entries.mapValues (fun name value => ofJson (origin.enter (.key name)) value) members := by
  induction members with
  | nil => rfl
  | cons member rest ih => simp [ofMembers, ih]

theorem plain_ofJson {json : Json} (proper : json.Proper) (origin : Origin) :
    (ofJson origin json).Plain := by
  induction proper generalizing origin with
  | null => exact .null
  | bool b => exact .bool b
  | integer n => exact .number _
  | double x => exact .number x
  | string s => exact .string s
  | @array items _ ih =>
    refine .array fun v member => ?_
    obtain ⟨j, found⟩ := List.mem_iff_getElem?.mp member
    rw [getElem?_ofItems, Option.map_eq_some_iff] at found
    obtain ⟨item, there, rfl⟩ := found
    exact ih item (List.mem_of_getElem? there) _
  | @object members distinct _ ih =>
    rw [ofJson, ofMembers_eq]
    refine .object (distinct.mapValues _) fun name value member => ?_
    obtain ⟨json, there, rfl⟩ := Entries.mem_mapValues.mp member
    exact ih name json there _

theorem ofJson_ne_absent (origin : Origin) (json : Json) : ofJson origin json ≠ .absent := by
  cases json <;> simp [ofJson]

theorem toJson_array {origin : Origin} {items : List Value} {json : Json} :
    (Value.array origin items).toJson = .ok json ↔
      ∃ trees, itemsJson items = .ok trees ∧ json = .array trees := by
  simp only [toJson, bind_eq_ok, pure_eq_ok, eq_comm (b := json)]

theorem toJson_object {origin : Origin} {entries : List (String × Value)} {json : Json} :
    (Value.object origin entries).toJson = .ok json ↔
      ∃ members, entriesJson entries = .ok members ∧ json = .object members := by
  simp only [toJson, bind_eq_ok, pure_eq_ok, eq_comm (b := json)]

theorem itemsJson_eq_ok {items : List Value} {trees : List Json} :
    itemsJson items = .ok trees ↔ trees.length = items.length ∧
      ∀ (j : Nat) (x : Value), items[j]? = some x →
        ∃ tree, trees[j]? = some tree ∧ x.toJson = .ok tree := by
  induction items generalizing trees with
  | nil => simp [itemsJson, eq_comm]
  | cons item rest ih =>
    simp only [itemsJson, bind_eq_ok, pure_eq_ok]
    constructor
    · rintro ⟨tree, made, more, others, rfl⟩
      obtain ⟨length, each⟩ := ih.mp others
      refine ⟨by simp [length], fun j x found => ?_⟩
      cases j with
      | zero =>
        obtain rfl : item = x := by simpa using found
        exact ⟨tree, rfl, made⟩
      | succ j => simpa using each j x (by simpa using found)
    · rintro ⟨length, each⟩
      obtain ⟨tree, first, made⟩ := each 0 item rfl
      cases trees with
      | nil => simp at first
      | cons head more =>
        obtain rfl : head = tree := by simpa using first
        refine ⟨head, made, more, ih.mpr ⟨by simpa using length, fun j x found => ?_⟩, rfl⟩
        simpa using each (j + 1) x (by simpa using found)

theorem exists_trees {entries : List (String × Value)} {members : List (String × Json)}
    (distinct : Entries.Distinct entries) (filled : Filled entries)
    (done : entriesJson entries = .ok members) :
    ∃ tree : String → Json, members = Entries.mapValues (fun key _ => tree key) entries ∧
      ∀ key value, (key, value) ∈ entries → value.toJson = .ok (tree key) := by
  induction entries generalizing members with
  | nil => exact ⟨fun _ => .null, (Except.ok.inj done).symm, by simp⟩
  | cons entry rest ih =>
    obtain ⟨name, value⟩ := entry
    obtain ⟨fresh, tail⟩ := Entries.distinct_cons.mp distinct
    have there : value.isAbsent = false :=
      isAbsent_eq_false.mpr (filled (name, value) List.mem_cons_self)
    simp only [entriesJson, there, Bool.false_eq_true, if_false, bind_eq_ok, pure_eq_ok] at done
    obtain ⟨json, made, more, others, rfl⟩ := done
    obtain ⟨tree, rfl, each⟩ :=
      ih tail (fun entry member => filled entry (List.mem_cons_of_mem _ member)) others
    have other : ∀ key v, (key, v) ∈ rest → key ≠ name := by
      intro key v member same
      have named := Entries.mem_names_of_mem member
      exact fresh (by rw [← same]; exact named)
    refine ⟨fun key => if key = name then json else tree key, ?_, ?_⟩
    · simp only [Entries.mapValues_cons, if_true]
      refine congrArg _ (Entries.mapValues_congr fun key v member => ?_)
      exact (if_neg (other key v member)).symm
    · intro key v member
      rcases List.mem_cons.mp member with same | later
      · obtain ⟨rfl, rfl⟩ := Prod.mk.inj same
        simpa using made
      · simpa only [if_neg (other key v later)] using each key v later

theorem entriesJson_mapValues {α : Type} {f : String → α → Value} {tree : String → Json}
    {entries : List (String × α)} (there : ∀ key a, (key, a) ∈ entries → f key a ≠ .absent)
    (each : ∀ key a, (key, a) ∈ entries → (f key a).toJson = .ok (tree key)) :
    entriesJson (Entries.mapValues f entries) =
      .ok (Entries.mapValues (fun key _ => tree key) entries) := by
  induction entries with
  | nil => rfl
  | cons entry rest ih =>
    obtain ⟨name, a⟩ := entry
    have first : (f name a).isAbsent = false :=
      isAbsent_eq_false.mpr (there name a List.mem_cons_self)
    have made := each name a List.mem_cons_self
    have others := ih (fun key a member => there key a (List.mem_cons_of_mem _ member))
      fun key a member => each key a (List.mem_cons_of_mem _ member)
    simp only [Entries.mapValues_cons, entriesJson, first, made, others, Bool.false_eq_true,
      if_false, ok_bind]
    rfl

theorem numberJson_eq_ok {x : Binary64} {json : Json} :
    numberJson x = .ok json ↔
      (∃ n, safeInteger? x = some n ∧ json = .integer n) ∨
        safeInteger? x = none ∧ x.isFinite = true ∧ json = .double x := by
  unfold numberJson
  cases safeInteger? x with
  | some n =>
    constructor
    · intro done
      exact Or.inl ⟨n, rfl, (Except.ok.inj done).symm⟩
    · rintro (⟨m, same, rfl⟩ | ⟨none, -⟩)
      · exact congrArg (fun n => Except.ok (Json.integer n)) (Option.some.inj same)
      · simp at none
  | none =>
    cases x.isFinite with
    | true => simp [eq_comm (b := json)]
    | false => simp

theorem exists_numberJson {x : Binary64} (finite : x.isFinite = true) :
    ∃ json, numberJson x = .ok json := by
  unfold numberJson
  cases safeInteger? x with
  | some n => exact ⟨_, rfl⟩
  | none => exact ⟨_, if_pos finite⟩

def HasTree (v : Value) : Prop :=
  ∃ json, v.toJson = .ok json

theorem hasTree_array {origin : Origin} {items : List Value} :
    HasTree (.array origin items) ↔ ∀ x ∈ items, x.HasTree := by
  have items : (∃ trees, itemsJson items = .ok trees) ↔ ∀ x ∈ items, x.HasTree := by
    induction items with
    | nil => simp [itemsJson]
    | cons item rest ih =>
      simp only [itemsJson, bind_eq_ok, pure_eq_ok, List.forall_mem_cons, ← ih]
      constructor
      · rintro ⟨_, json, made, more, others, -⟩
        exact ⟨⟨json, made⟩, more, others⟩
      · rintro ⟨⟨json, made⟩, more, others⟩
        exact ⟨_, json, made, more, others, rfl⟩
  simpa [HasTree, toJson_array] using items

theorem hasTree_object {origin : Origin} {entries : List (String × Value)} :
    HasTree (.object origin entries) ↔ ∀ key value, (key, value) ∈ entries → value.HasTree := by
  have entries : (∃ members, entriesJson entries = .ok members) ↔
      ∀ key value, (key, value) ∈ entries → value.HasTree := by
    induction entries with
    | nil => simp [entriesJson]
    | cons entry rest ih =>
      obtain ⟨name, value⟩ := entry
      have parts : (∀ key v, (key, v) ∈ (name, value) :: rest → v.HasTree) ↔
          value.HasTree ∧ ∀ key v, (key, v) ∈ rest → v.HasTree := by
        simp [or_imp, forall_and]
      rw [parts, ← ih]
      cases gone : value.isAbsent with
      | true =>
        have trivially : value.HasTree := ⟨.null, by rw [isAbsent_eq_true.mp gone]; rfl⟩
        simp [entriesJson, gone, trivially]
      | false =>
        simp only [entriesJson, gone, Bool.false_eq_true, if_false, bind_eq_ok, pure_eq_ok]
        constructor
        · rintro ⟨_, json, made, more, others, -⟩
          exact ⟨⟨json, made⟩, more, others⟩
        · rintro ⟨⟨json, made⟩, more, others⟩
          exact ⟨_, json, made, more, others, rfl⟩
  simpa [HasTree, toJson_object] using entries

theorem hasTree_property {origin : Origin} {entries : List (String × Value)}
    (tree : HasTree (.object origin entries)) (key : String) :
    (Update.property key entries).HasTree := by
  rcases property_mem key entries with gone | member
  · rw [gone]
    exact ⟨.null, rfl⟩
  · exact hasTree_object.mp tree key _ member

theorem hasTree_ofJson {json : Json} (sized : json.Sized) (origin : Origin) :
    (ofJson origin json).HasTree := by
  induction sized generalizing origin with
  | null => exact ⟨.null, rfl⟩
  | bool b => exact ⟨.bool b, rfl⟩
  | integer least greatest =>
    exact exists_numberJson (Binary64.isFinite_ofInt (by omega))
  | double finite => exact exists_numberJson finite
  | string s => exact ⟨.string s, rfl⟩
  | @array items _ ih =>
    refine hasTree_array.mpr fun x member => ?_
    obtain ⟨j, found⟩ := List.mem_iff_getElem?.mp member
    rw [getElem?_ofItems, Option.map_eq_some_iff] at found
    obtain ⟨item, there, rfl⟩ := found
    exact ih item (List.mem_of_getElem? there) _
  | @object members _ ih =>
    rw [ofJson, ofMembers_eq]
    refine hasTree_object.mpr fun name value member => ?_
    obtain ⟨json, there, rfl⟩ := Entries.mem_mapValues.mp member
    exact ih name json there _

theorem numberJson_settled {x : Binary64} {json : Json} (done : numberJson x = .ok json) :
    json.Proper ∧ ∃ y, (∀ origin, ofJson origin json = .number y) ∧ numberJson y = .ok json ∧
      y.isFinite = true ∧ ∀ n, safeInteger? x = some n → y.toInt? = some n := by
  rcases numberJson_eq_ok.mp done with ⟨n, safe, rfl⟩ | ⟨fraction, finite, rfl⟩
  · have kept := safeInteger_ofInt (safeInteger_eq_some.mp safe).2
    have integral := (safeInteger_eq_some.mp kept).1
    refine ⟨.integer n, .ofInt n, fun _ => rfl, numberJson_eq_ok.mpr (Or.inl ⟨n, kept, rfl⟩),
      Binary64.isFinite_of_toInt integral, fun m same => ?_⟩
    obtain rfl := Option.some.inj (safe.symm.trans same)
    exact integral
  · exact ⟨.double x, x, fun _ => rfl, done, finite, fun n safe => by simp [fraction] at safe⟩

theorem entriesJson_present (entries : List (String × Value)) :
    entriesJson (present entries) = entriesJson entries := by
  induction entries with
  | nil => rfl
  | cons entry rest ih =>
    obtain ⟨key, value⟩ := entry
    rw [present_cons, entriesJson]
    split
    · exact ih
    · next there => rw [entriesJson, if_neg there, ih]

theorem proper_of_toJson {v : Value} (tidy : v.Proper) {json : Json} (done : v.toJson = .ok json) :
    json.Proper := by
  induction v using byParts generalizing json with
  | scalar v plain =>
    cases v with
    | array | object => simp [isContainer] at plain
    | absent | null => exact Except.ok.inj done ▸ .null
    | bool b => exact Except.ok.inj done ▸ .bool b
    | string s => exact Except.ok.inj done ▸ .string s
    | number x => exact (numberJson_settled done).1
    | bigint | date | temporal => simp [toJson, mistyped] at done
  | array origin items ih =>
    obtain ⟨trees, each, rfl⟩ := toJson_array.mp done
    obtain ⟨length, each⟩ := itemsJson_eq_ok.mp each
    refine .array fun tree member => ?_
    obtain ⟨j, found⟩ := List.mem_iff_getElem?.mp member
    have within : j < items.length := length ▸ (List.getElem?_eq_some_iff.mp found).1
    have there := List.getElem?_eq_getElem within
    obtain ⟨_, again, made⟩ := each j _ there
    obtain rfl := Option.some.inj (found.symm.trans again)
    have inside := List.mem_of_getElem? there
    exact ih _ inside (tidy.items _ inside) made
  | object origin entries ih =>
    obtain ⟨members, made, rfl⟩ := toJson_object.mp done
    rw [← entriesJson_present] at made
    have distinct := distinct_present tidy.distinct
    have filled : Filled (present entries) := fun _ member => (mem_present.mp member).2
    obtain ⟨tree, rfl, trees⟩ := exists_trees distinct filled made
    refine .object (distinct.mapValues _) fun key json member => ?_
    obtain ⟨value, there, rfl⟩ := Entries.mem_mapValues.mp member
    have old := (mem_present.mp there).1
    exact ih key value old (tidy.entries key value old) (trees key value there)

private theorem toJson_ofJson_of_plain {v : Value} (plain : v.Plain) {json : Json}
    (done : v.toJson = .ok json) (origin : Origin) : (ofJson origin json).toJson = .ok json := by
  induction plain generalizing json origin with
  | null | bool | string =>
    obtain rfl := Except.ok.inj done
    rfl
  | number x =>
    obtain ⟨-, y, value, again, -⟩ := numberJson_settled done
    rw [value]
    exact again
  | @array o items _ ih =>
    obtain ⟨trees, each, rfl⟩ := toJson_array.mp done
    obtain ⟨length, each⟩ := itemsJson_eq_ok.mp each
    refine toJson_array.mpr ⟨trees, itemsJson_eq_ok.mpr ⟨?_, fun j x found => ?_⟩, rfl⟩
    · rw [length_ofItems]
    · rw [getElem?_ofItems, Option.map_eq_some_iff] at found
      obtain ⟨tree, here, rfl⟩ := found
      have within : j < items.length := length ▸ (List.getElem?_eq_some_iff.mp here).1
      have there := List.getElem?_eq_getElem within
      obtain ⟨_, same, made⟩ := each j _ there
      obtain rfl := Option.some.inj (here.symm.trans same)
      exact ⟨tree, here, ih _ (List.mem_of_getElem? there) made _⟩
  | @object o entries distinct each ih =>
    obtain ⟨members, made, rfl⟩ := toJson_object.mp done
    have whole : Whole (.object o entries) := (Plain.object distinct each).whole
    obtain ⟨tree, rfl, trees⟩ := exists_trees distinct whole.filled made
    refine toJson_object.mpr ⟨_, ?_, rfl⟩
    rw [ofMembers_eq, Entries.mapValues_mapValues]
    exact entriesJson_mapValues (fun _ _ _ => ofJson_ne_absent _ _)
      fun key value member => ih key value member (trees key value member) _

/-- The tree of a document's value is the tree of its own value. -/
theorem Plain.settled {v : Value} (plain : v.Plain) {json : Json} (done : v.toJson = .ok json) :
    json.Proper ∧ ∀ origin, (ofJson origin json).toJson = .ok json :=
  ⟨proper_of_toJson plain.whole.proper done, toJson_ofJson_of_plain plain done⟩

end Value

end WireSchema
