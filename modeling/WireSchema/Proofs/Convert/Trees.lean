import WireSchema.Proofs.Convert.Portable

/-!
Values across the boundary to document trees. Whatever holds nothing native has a tree; the way there
and back takes out the entries that hold nothing, puts null in place of anything else that is absent,
and leaves all the rest, the order of keys included.
-/

set_option autoImplicit false

namespace WireSchema.Value

/-- Something that no tree shows is in the value, at whatever depth: a big integer, a date, a date and
time value, or a number that is not finite. -/
inductive HoldsNative : Value → Prop where
  | bigint (origin : Origin) (n : Int) : HoldsNative (.bigint origin n)
  | date (t : Calendar.DateTime) : HoldsNative (.date t)
  | temporal (t : Calendar.Temporal) : HoldsNative (.temporal t)
  | number {x : Binary64} : x.isFinite = false → HoldsNative (.number x)
  | item {origin : Origin} {items : List Value} {v : Value} : v ∈ items → HoldsNative v →
      HoldsNative (.array origin items)
  | entry {origin : Origin} {entries : List (String × Value)} {key : String} {v : Value} :
      (key, v) ∈ entries → HoldsNative v → HoldsNative (.object origin entries)

mutual

def nulled : Value → Value
  | .absent => .null
  | .array origin items => .array origin (nulledItems items)
  | .object origin entries => .object origin (nulledEntries entries)
  | other => other

def nulledItems : List Value → List Value
  | [] => []
  | item :: rest => nulled item :: nulledItems rest

def nulledEntries : List (String × Value) → List (String × Value)
  | [] => []
  | (key, value) :: rest => (key, nulled value) :: nulledEntries rest

end

/-- The value without the entries that hold nothing, and with null in place of anything else that is
absent. -/
def shown (v : Value) : Value :=
  v.stripped.nulled

def keys : Value → List String
  | .object _ entries => Entries.names entries
  | _ => []

theorem nulled_array (origin : Origin) (items : List Value) :
    nulled (.array origin items) = .array origin (items.map nulled) := by
  have each : nulledItems items = items.map nulled := by
    induction items with
    | nil => rfl
    | cons item rest ih => rw [nulledItems, ih, List.map_cons]
  rw [nulled, each]

theorem nulled_object (origin : Origin) (entries : List (String × Value)) :
    nulled (.object origin entries) =
      .object origin (Entries.mapValues (fun _ => nulled) entries) := by
  have each : nulledEntries entries = Entries.mapValues (fun _ => nulled) entries := by
    induction entries with
    | nil => rfl
    | cons entry rest ih => rw [nulledEntries, ih, Entries.mapValues_cons]
  rw [nulled, each]

theorem shown_array (origin : Origin) (items : List Value) :
    shown (.array origin items) = .array origin (items.map shown) := by
  rw [shown, stripped_array, nulled_array, List.map_map]
  rfl

theorem shown_object (origin : Origin) (entries : List (String × Value)) :
    shown (.object origin entries) =
      .object origin (Entries.mapValues (fun _ => shown) (present entries)) := by
  rw [shown, stripped_object, nulled_object, Entries.mapValues_mapValues]
  rfl

theorem shown_ne_absent (v : Value) : v.shown ≠ .absent := by
  cases v <;> simp [shown, stripped, nulled]

theorem toJson_shown (v : Value) : v.shown.toJson = v.toJson := by
  induction v using byParts with
  | scalar v plain =>
    cases v with
    | array | object => simp [isContainer] at plain
    | _ => rfl
  | array origin items ih =>
    have each : itemsJson (items.map shown) = itemsJson items := by
      induction items with
      | nil => rfl
      | cons item rest others =>
        rw [List.map_cons, itemsJson, itemsJson, ih item List.mem_cons_self,
          others fun x member => ih x (List.mem_cons_of_mem _ member)]
    rw [shown_array, toJson, toJson, each]
  | object origin entries ih =>
    have each : entriesJson (Entries.mapValues (fun _ => shown) (present entries)) =
        entriesJson entries := by
      induction entries with
      | nil => rfl
      | cons entry rest others =>
        obtain ⟨key, value⟩ := entry
        have rest := others fun name v member => ih name v (List.mem_cons_of_mem _ member)
        rw [present_cons]
        cases gone : value.isAbsent with
        | true => simp only [if_true, entriesJson, gone, rest]
        | false =>
          have there : value.shown.isAbsent = false := isAbsent_eq_false.mpr (shown_ne_absent value)
          simp only [Bool.false_eq_true, if_false, Entries.mapValues_cons, entriesJson, gone, there,
            ih key value List.mem_cons_self, rest]
    rw [shown_object, toJson, toJson, each]

theorem plain_shown {v : Value} (proper : v.Proper) (fits : ¬v.HoldsNative) : v.shown.Plain := by
  induction v using byParts with
  | scalar v plain =>
    cases v with
    | array | object => simp [isContainer] at plain
    | absent | null => exact .null
    | bool b => exact .bool b
    | number x => exact .number x
    | string s => exact .string s
    | bigint origin n => exact absurd (.bigint origin n) fits
    | date t => exact absurd (.date t) fits
    | temporal t => exact absurd (.temporal t) fits
  | array origin items ih =>
    rw [shown_array]
    refine .array fun x member => ?_
    obtain ⟨item, there, rfl⟩ := List.mem_map.mp member
    exact ih item there (proper.items item there) fun native => fits (.item there native)
  | object origin entries ih =>
    rw [shown_object]
    refine .object ((distinct_present proper.distinct).mapValues _) fun key x member => ?_
    obtain ⟨value, there, rfl⟩ := Entries.mem_mapValues.mp member
    have old := (mem_present.mp there).1
    exact ih key value old (proper.entries key value old) fun native => fits (.entry old native)

theorem isFinite_of_numberJson {x : Binary64} {json : Json} (made : numberJson x = .ok json) :
    x.isFinite = true := by
  rcases numberJson_eq_ok.mp made with ⟨n, safe, -⟩ | ⟨-, finite, -⟩
  · exact Binary64.isFinite_of_toInt (safeInteger_eq_some.mp safe).1
  · exact finite

theorem hasTree_number_iff {x : Binary64} :
    HasTree (.number x) ↔ ¬HoldsNative (.number x) := by
  constructor
  · rintro ⟨json, made⟩ native
    cases native with
    | number infinite => simp [isFinite_of_numberJson made] at infinite
  · intro fits
    cases finite : x.isFinite with
    | true => exact exists_numberJson finite
    | false => exact absurd (.number finite) fits

theorem hasTree_iff {v : Value} : v.HasTree ↔ ¬v.HoldsNative := by
  induction v using byParts with
  | scalar v plain =>
    cases v with
    | array | object => simp [isContainer] at plain
    | absent | null | bool | string =>
      constructor
      · intro _ native
        cases native
      · exact fun _ => ⟨_, rfl⟩
    | number x => exact hasTree_number_iff
    | bigint origin n => simp [HasTree, toJson, mistyped, HoldsNative.bigint]
    | date t => simp [HasTree, toJson, mistyped, HoldsNative.date]
    | temporal t => simp [HasTree, toJson, mistyped, HoldsNative.temporal]
  | array origin items ih =>
    rw [hasTree_array]
    constructor
    · intro each native
      cases native with
      | item member inner => exact (ih _ member).mp (each _ member) inner
    · exact fun fits x member => (ih x member).mpr fun native => fits (.item member native)
  | object origin entries ih =>
    rw [hasTree_object]
    constructor
    · intro each native
      cases native with
      | entry member inner => exact (ih _ _ member).mp (each _ _ member) inner
    · exact fun fits key x member => (ih key x member).mpr fun native => fits (.entry member native)

theorem equal_of_alike {a b : Value} (alike : a.alike b = true) (fits : ¬b.HoldsNative) :
    a.equal b = true := by
  induction b using byParts generalizing a with
  | scalar b plain =>
    cases b with
    | array | object => simp [isContainer] at plain
    | number y =>
      cases a with
      | number x =>
        rcases Bool.or_eq_true_iff.mp alike with equal | undefined
        · exact equal
        · have infinite := Binary64.isFinite_of_isNaN (Bool.and_eq_true_iff.mp undefined).2
          exact absurd (.number infinite) fits
      | _ => exact alike
    | _ => cases a <;> exact alike
  | array origin items ih =>
    cases a with
    | array o others =>
      obtain ⟨length, each⟩ := alike_array.mp alike
      refine equalItemsBy_iff.mpr ⟨length, fun i x y found there => ?_⟩
      have member := List.mem_of_getElem? there
      exact ih y member (each i x y found there) fun native => fits (.item member native)
    | _ => exact alike
  | object origin entries ih =>
    cases a with
    | object o others =>
      obtain ⟨length, each⟩ := alike_object.mp alike
      refine Bool.and_eq_true_iff.mpr ⟨beq_iff_eq.mpr length, equalEntriesBy_iff.mpr ?_⟩
      intro key x member
      obtain ⟨y, found, inner⟩ := each key x member
      have there := Entries.mem_of_get? found
      exact ⟨y, found, ih key y there inner fun native => fits (.entry there native)⟩
    | _ => exact alike

theorem Resembles.part {shape : List (String × Value) → List (String × Value) → Prop} {v w : Value}
    (alike : Resembles shape v w) (step : Step) : Resembles shape (v.part step) (w.part step) := by
  have nothing : Resembles shape .absent .absent := .scalar rfl
  cases alike with
  | scalar plain =>
    cases v with
    | array | object => simp [isContainer] at plain
    | _ => cases step <;> exact nothing
  | number | bigint => cases step <;> exact nothing
  | @array o p vs ws length each =>
    cases step with
    | key name => exact nothing
    | index i =>
      cases found : vs[i]? with
      | none =>
        have missing : ws[i]? = none := by
          rw [List.getElem?_eq_none_iff] at found ⊢
          omega
        simpa [Value.part, found, missing] using nothing
      | some x =>
        obtain ⟨y, there⟩ := exists_beside length.symm found
        simpa [Value.part, found, there] using each i x y found there
  | @object o p es fs _ each =>
    cases step with
    | key name => exact each name
    | index i => exact nothing

theorem Resembles.keys_walk {v w : Value} (alike : Resembles Bared v w) (whole : v.Whole)
    (p : Path) : (v.walk p).keys = (w.walk p).keys := by
  induction p generalizing v w with
  | nil =>
    cases alike with
    | object shape _ => exact (shape.names.trans (congrArg _ whole.filled.present_eq)).symm
    | _ => rfl
  | cons step rest ih =>
    have inner := alike.part step
    rcases whole.part step with gone | there
    · have other := inner.absent_iff.mp gone
      rw [walk, walk, gone, other]
    · exact ih inner there

/-- A value has a tree if and only if nothing native is in it, at whatever depth. The value of the
tree is then equal to what is left of it once the entries that hold nothing are taken out and null
stands for anything else that is absent, with the same keys in the same order at every place. -/
theorem tree_exact {v : Value} (proper : v.Proper) :
    ((∃ json, v.toJson = .ok json) ↔ ¬v.HoldsNative) ∧
      ∀ json, v.toJson = .ok json → ∀ origin,
        (ofJson origin json).equal v.shown = true ∧
          ∀ p, ((ofJson origin json).walk p).keys = (v.shown.walk p).keys := by
  refine ⟨hasTree_iff, fun json made origin => ?_⟩
  have plain := plain_shown proper (hasTree_iff.mp ⟨json, made⟩)
  rw [← toJson_shown] at made
  have whole := (plain_ofJson (plain.settled made).1 origin).whole
  have resembles := resembles_ofJson plain made origin
  have alike := resembles.unrepeated.alike_stripped
  rw [whole.stripped_eq, plain.whole.stripped_eq] at alike
  exact ⟨equal_of_alike alike (hasTree_iff.mp ⟨json, made⟩), resembles.keys_walk whole⟩

/-- A key with nothing under it is left out; a missing item becomes null, a negative zero becomes a
zero, and the last integer of 53 bits stays what it is. -/
theorem tree_exact_object :
    ∃ v json, v = Value.object (.root 0) [("z", .absent),
        ("b", .array (.root 1) [.absent, .number (.zero true)]),
        ("a", .number (.ofInt 9007199254740991))] ∧
      json = Json.object [("b", .array [.null, .integer 0]), ("a", .integer 9007199254740991)] ∧
      v.Proper ∧ v.toJson = .ok json ∧ ¬v.HoldsNative ∧
      (ofJson (.root 2) json).equal v.shown = true ∧ v.shown.keys = ["b", "a"] := by
  have zero : numberJson (.zero true) = .ok (.integer 0) :=
    numberJson_eq_ok.mpr
      (.inl ⟨0, safeInteger_eq_some.mpr ⟨Binary64.toInt_of_isZero rfl, by decide⟩, rfl⟩)
  have last : numberJson (.ofInt 9007199254740991) = .ok (.integer 9007199254740991) :=
    numberJson_eq_ok.mpr (.inl ⟨_, safeInteger_ofInt (by decide), rfl⟩)
  refine ⟨_, _, rfl, rfl, ?_⟩
  have proper : Proper (.object (.root 0) [("z", .absent),
      ("b", .array (.root 1) [.absent, .number (.zero true)]),
      ("a", .number (.ofInt 9007199254740991))]) := by decide +zetaReduce
  have made : toJson (.object (.root 0) [("z", .absent),
      ("b", .array (.root 1) [.absent, .number (.zero true)]),
      ("a", .number (.ofInt 9007199254740991))]) =
      .ok (.object [("b", .array [.null, .integer 0]), ("a", .integer 9007199254740991)]) := by
    simp [toJson, entriesJson, itemsJson, isAbsent, zero, last]
  obtain ⟨fits, back⟩ := tree_exact proper
  exact ⟨proper, made, fits.mp ⟨_, made⟩, (back _ made (.root 2)).1, rfl⟩

end WireSchema.Value
