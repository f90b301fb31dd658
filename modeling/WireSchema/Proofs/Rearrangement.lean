import WireSchema.Proofs.Content
import WireSchema.Proofs.Convert.Engines

/-!
Values and schemas that differ only in the order of their names: of the keys of objects, and of the
fields and variants that are declared.
-/

set_option autoImplicit false

namespace WireSchema

theorem Entries.exists_get?_of_perm {α β : Type} {as : List (String × α)} {bs : List (String × β)}
    (names : (names as).Perm (names bs)) {name : String} {b : β} (there : get? name bs = some b) :
    ∃ a, get? name as = some a :=
  exists_get?_of_mem_names (names.mem_iff.mpr (mem_names_of_get? there))

namespace Value

open WireSchema.Update (property)

/-- Values that differ only in the order of the keys of their objects, at any depth, and in where
their parts came into being. -/
inductive Rearranged : Value → Value → Prop where
  | scalar {v : Value} : v.isContainer = false → Rearranged v v
  | bigint {o p : Origin} {n : Int} : Rearranged (.bigint o n) (.bigint p n)
  | array {o p : Origin} {vs ws : List Value} : vs.length = ws.length →
      (∀ (i : Nat) (v w : Value), vs[i]? = some v → ws[i]? = some w → Rearranged v w) →
      Rearranged (.array o vs) (.array p ws)
  | object {o p : Origin} {es fs : List (String × Value)} :
      (Entries.names es).Perm (Entries.names fs) →
      (∀ key, Rearranged (property key es) (property key fs)) →
      Rearranged (.object o es) (.object p fs)

/-- No object in the value has an entry that holds nothing. -/
inductive Dense : Value → Prop where
  | scalar {v : Value} : v.isContainer = false → Dense v
  | array {origin : Origin} {items : List Value} : (∀ item ∈ items, Dense item) →
      Dense (.array origin items)
  | object {origin : Origin} {entries : List (String × Value)} : Filled entries →
      (∀ key value, (key, value) ∈ entries → Dense value) → Dense (.object origin entries)

variable {v w : Value} {o p : Origin} {vs ws : List Value} {es fs : List (String × Value)}

theorem Dense.items (dense : Dense (.array o vs)) : ∀ item ∈ vs, Dense item := by
  cases dense with
  | scalar plain => simp [isContainer] at plain
  | array items => exact items

theorem Dense.filled (dense : Dense (.object o es)) : Filled es := by
  cases dense with
  | scalar plain => simp [isContainer] at plain
  | object filled _ => exact filled

theorem Dense.property (dense : Dense (.object o es)) (key : String) :
    Dense (property key es) := by
  cases dense with
  | scalar plain => simp [isContainer] at plain
  | object _ entries =>
    rcases property_mem key es with gone | member
    · rw [gone]
      exact .scalar rfl
    · exact entries key _ member

@[refl] theorem Rearranged.refl (v : Value) : Rearranged v v := by
  induction v using byParts with
  | scalar v plain => exact .scalar plain
  | array origin items ih =>
    refine .array rfl fun i x y found there => ?_
    obtain rfl := Option.some.inj (found.symm.trans there)
    exact ih x (List.mem_of_getElem? found)
  | object origin entries ih =>
    refine .object (List.Perm.refl _) fun key => ?_
    rcases property_mem key entries with gone | member
    · rw [gone]
      exact .scalar rfl
    · exact ih key _ member

theorem Rearranged.symm (alike : Rearranged v w) : Rearranged w v := by
  induction alike with
  | scalar plain => exact .scalar plain
  | bigint => exact .bigint
  | array length _ ih => exact .array length.symm fun i x y found there => ih i y x there found
  | object names _ ih => exact .object names.symm ih

theorem Rearranged.absent_iff (alike : Rearranged v w) : v = .absent ↔ w = .absent := by
  cases alike <;> simp

theorem Rearranged.string_iff {s : String} (alike : Rearranged v w) :
    v = .string s ↔ w = .string s := by
  cases alike <;> simp

theorem Rearranged.array_iff (alike : Rearranged v w) :
    (∃ o vs, v = .array o vs) ↔ ∃ p ws, w = .array p ws := by
  cases alike <;> simp

theorem Rearranged.object_iff (alike : Rearranged v w) :
    (∃ o es, v = .object o es) ↔ ∃ p fs, w = .object p fs := by
  cases alike <;> simp

theorem Rearranged.length_eq (alike : Rearranged (.array o vs) (.array p ws)) :
    vs.length = ws.length := by
  cases alike with
  | scalar _ => rfl
  | array length _ => exact length

theorem Rearranged.item (alike : Rearranged (.array o vs) (.array p ws)) {i : Nat} {x y : Value}
    (found : vs[i]? = some x) (there : ws[i]? = some y) : Rearranged x y := by
  cases alike with
  | scalar plain => simp [isContainer] at plain
  | array _ each => exact each i x y found there

theorem Rearranged.names (alike : Rearranged (.object o es) (.object p fs)) :
    (Entries.names es).Perm (Entries.names fs) := by
  cases alike with
  | scalar _ => exact List.Perm.refl _
  | object names _ => exact names

theorem Rearranged.property (alike : Rearranged (.object o es) (.object p fs)) (key : String) :
    Rearranged (property key es) (property key fs) := by
  cases alike with
  | scalar plain => simp [isContainer] at plain
  | object _ each => exact each key

theorem perm_names (distinct : Entries.Distinct es) (filled : Filled es)
    (distinct' : Entries.Distinct fs) (filled' : Filled fs)
    (alike : ∀ key, Update.property key es = .absent ↔ Update.property key fs = .absent) :
    (Entries.names es).Perm (Entries.names fs) := by
  rw [← filled.present_eq, ← filled'.present_eq]
  refine (List.perm_ext_iff_of_nodup (distinct_present distinct) (distinct_present distinct')).mpr
    fun key => ?_
  rw [mem_names_present distinct, mem_names_present distinct', Ne, alike key]

theorem Rearranged.of_entries (distinct : Entries.Distinct es)
    (names : (Entries.names es).Perm (Entries.names fs))
    (each : ∀ key x, (key, x) ∈ es → ∃ y, (key, y) ∈ fs ∧ Rearranged x y) :
    Rearranged (.object o es) (.object p fs) := by
  have distinct' : Entries.Distinct fs := names.nodup_iff.mp distinct
  refine .object names fun key => ?_
  by_cases there : key ∈ Entries.names es
  · obtain ⟨x, found⟩ := Entries.exists_get?_of_mem_names there
    have member := Entries.mem_of_get? found
    obtain ⟨y, member', alike⟩ := each key x member
    rwa [property_of_mem distinct member, property_of_mem distinct' member']
  · rw [property_of_not_mem there, property_of_not_mem (mt names.mem_iff.mpr there)]

theorem Rearranged.proper (alike : Rearranged v w) (tidy : v.Proper) : w.Proper := by
  induction alike with
  | scalar _ => exact tidy
  | bigint => exact .scalar rfl
  | array length _ ih =>
    refine .array fun y member => ?_
    obtain ⟨i, there⟩ := List.mem_iff_getElem?.mp member
    obtain ⟨x, found⟩ := exists_beside length there
    exact ih i x y found there (tidy.items _ (List.mem_of_getElem? found))
  | object names _ ih =>
    have distinct := (names.nodup_iff).mp tidy.distinct
    refine .object distinct fun key y member => ?_
    rw [← property_of_mem distinct member]
    exact ih key (tidy.property key)

theorem Rearranged.dense (alike : Rearranged v w) (tidy : v.Proper) (dense : v.Dense) : w.Dense := by
  induction alike with
  | scalar _ => exact dense
  | bigint => exact .scalar rfl
  | array length _ ih =>
    refine .array fun y member => ?_
    obtain ⟨i, there⟩ := List.mem_iff_getElem?.mp member
    obtain ⟨x, found⟩ := exists_beside length there
    have old := List.mem_of_getElem? found
    exact ih i x y found there (tidy.items _ old) (dense.items _ old)
  | @object _ _ es fs names each ih =>
    have distinct := (names.nodup_iff).mp tidy.distinct
    refine .object (fun entry member gone => ?_) fun key y member => ?_
    · have there := names.mem_iff.mpr (Entries.mem_names_of_mem member)
      refine dense.filled.property_ne there ((each entry.1).absent_iff.mpr ?_)
      exact (property_of_mem distinct member).trans gone
    · rw [← property_of_mem distinct member]
      exact ih key (tidy.property key) (dense.property key)

end Value

namespace Schema

inductive Rearranged : Schema → Schema → Prop where
  | leaf (l : Leaf) : Rearranged (.leaf l) (.leaf l)
  | option {a b : Schema} : Rearranged a b → Rearranged (.option a) (.option b)
  | array {a b : Schema} : Rearranged a b → Rearranged (.array a) (.array b)
  | tuple {as bs : List Schema} : as.length = bs.length →
      (∀ (i : Nat) (a b : Schema), as[i]? = some a → bs[i]? = some b → Rearranged a b) →
      Rearranged (.tuple as) (.tuple bs)
  | object {as bs : List (String × Schema)} : (Entries.names as).Perm (Entries.names bs) →
      (∀ name a b, Entries.get? name as = some a → Entries.get? name bs = some b →
        Rearranged a b) → Rearranged (.object as) (.object bs)
  | choice {as bs : List (String × Option Schema)} :
      (Entries.names as).Perm (Entries.names bs) →
      (∀ kind, Entries.get? kind as = some none ↔ Entries.get? kind bs = some none) →
      (∀ kind a b, Entries.get? kind as = some (some a) → Entries.get? kind bs = some (some b) →
        Rearranged a b) → Rearranged (.choice as) (.choice bs)

variable {s t : Schema}

theorem Rearranged.symm (alike : Rearranged s t) : Rearranged t s := by
  induction alike with
  | leaf l => exact .leaf l
  | option _ ih => exact .option ih
  | array _ ih => exact .array ih
  | tuple length _ ih => exact .tuple length.symm fun i a b found there => ih i b a there found
  | object names _ ih =>
    exact .object names.symm fun name a b found there => ih name b a there found
  | choice names bare _ ih =>
    exact .choice names.symm (fun kind => (bare kind).symm)
      fun kind a b found there => ih kind b a there found

theorem Rearranged.isOption_eq (alike : Rearranged s t) : t.isOption = s.isOption := by
  cases alike <;> rfl

theorem Rearranged.isObject_eq (alike : Rearranged s t) : t.isObject = s.isObject := by
  cases alike <;> rfl

theorem Rearranged.variant {as bs : List (String × Option Schema)}
    (alike : Rearranged (.choice as) (.choice bs)) (kind : String) :
    Option.Rel (Option.Rel Rearranged) (Entries.get? kind as) (Entries.get? kind bs) := by
  cases alike with
  | choice names bare each =>
    cases found : Entries.get? kind as with
    | none =>
      have missing := mt names.mem_iff.mpr (Entries.get?_eq_none_iff.mp found)
      rw [Entries.get?_eq_none missing]
      exact .none
    | some payload =>
      obtain ⟨payload', there⟩ := Entries.exists_get?_of_perm names.symm found
      rw [there]
      cases payload with
      | none =>
        obtain rfl := Option.some.inj (there.symm.trans ((bare kind).mp found))
        exact .some .none
      | some a =>
        cases payload' with
        | none => simp [(bare kind).mpr there] at found
        | some b => exact .some (.some (each kind a b found there))

theorem Rearranged.proper (alike : Rearranged s t) (proper : s.Proper) : t.Proper := by
  induction alike with
  | leaf l => exact proper
  | option _ ih => cases proper with | option inner => exact .option (ih inner)
  | array _ ih => cases proper with | array item => exact .array (ih item)
  | tuple length _ ih =>
    cases proper with
    | tuple elems =>
      refine .tuple fun b member => ?_
      obtain ⟨i, there⟩ := List.mem_iff_getElem?.mp member
      obtain ⟨a, found⟩ := exists_beside length there
      exact ih i a b found there (elems _ (List.mem_of_getElem? found))
  | object names _ ih =>
    cases proper with
    | object distinct fields =>
      have distinct' := names.nodup_iff.mp distinct
      refine .object distinct' fun name b member => ?_
      have there := Entries.get?_of_mem distinct' member
      obtain ⟨a, found⟩ := Entries.exists_get?_of_perm names there
      exact ih name a b found there (fields name a (Entries.mem_of_get? found))
  | choice names bare _ ih =>
    cases proper with
    | choice distinct payloads =>
      have distinct' := names.nodup_iff.mp distinct
      refine .choice distinct' fun kind b member => ?_
      have there := Entries.get?_of_mem distinct' member
      obtain ⟨payload, found⟩ := Entries.exists_get?_of_perm names there
      cases payload with
      | none => simp [(bare kind).mp found] at there
      | some a => exact ih kind a b found there (payloads kind a (Entries.mem_of_get? found))

end Schema

end WireSchema
