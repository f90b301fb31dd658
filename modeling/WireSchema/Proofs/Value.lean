import WireSchema.Value.Sameness
import WireSchema.Update.Properties
import WireSchema.Proofs.Entries

/-!
What a value holds apart from where its parts came into being, the values whose objects are maps,
and the values that were there before a pass began. Two values with the same content are equal for
everything but identity and entries that hold nothing.
-/

set_option autoImplicit false

namespace WireSchema

theorem exists_beside {α β : Type} {as : List α} {bs : List β} (length : as.length = bs.length)
    {i : Nat} {b : β} (there : bs[i]? = some b) : ∃ a, as[i]? = some a :=
  ⟨_, List.getElem?_eq_getElem (length ▸ (List.getElem?_eq_some_iff.mp there).1)⟩

namespace Value

open WireSchema.Update (property)

def isContainer : Value → Bool
  | .array _ _ | .object _ _ => true
  | _ => false

theorem byParts {P : Value → Prop} (scalar : ∀ v, v.isContainer = false → P v)
    (array : ∀ origin items, (∀ item ∈ items, P item) → P (.array origin items))
    (object : ∀ origin entries, (∀ key value, (key, value) ∈ entries → P value) →
      P (.object origin entries)) (v : Value) : P v := by
  refine @Value.rec P (fun items => ∀ item ∈ items, P item)
    (fun entries => ∀ key value, (key, value) ∈ entries → P value) (fun entry => P entry.2)
    (scalar _ rfl) (scalar _ rfl) (fun _ => scalar _ rfl) (fun _ => scalar _ rfl)
    (fun _ => scalar _ rfl) (fun _ _ => scalar _ rfl) (fun _ => scalar _ rfl)
    (fun _ => scalar _ rfl) array object (by simp)
    (fun _ _ first others => List.forall_mem_cons.mpr ⟨first, others⟩) (by simp)
    (fun _ _ first others => Entries.forall_mem_cons.mpr ⟨first, others⟩) (fun _ _ ih => ih) v

inductive Proper : Value → Prop where
  | scalar {v : Value} : v.isContainer = false → Proper v
  | array {origin : Origin} {items : List Value} : (∀ item ∈ items, Proper item) →
      Proper (.array origin items)
  | object {origin : Origin} {entries : List (String × Value)} : Entries.Distinct entries →
      (∀ key value, (key, value) ∈ entries → Proper value) → Proper (.object origin entries)

theorem Proper.items {origin : Origin} {items : List Value}
    (proper : Proper (.array origin items)) : ∀ item ∈ items, Proper item := by
  cases proper with
  | scalar plain => simp [isContainer] at plain
  | array items => exact items

theorem Proper.distinct {origin : Origin} {entries : List (String × Value)}
    (proper : Proper (.object origin entries)) : Entries.Distinct entries := by
  cases proper with
  | scalar plain => simp [isContainer] at plain
  | object distinct _ => exact distinct

theorem Proper.entries {origin : Origin} {entries : List (String × Value)}
    (proper : Proper (.object origin entries)) :
    ∀ key value, (key, value) ∈ entries → Proper value := by
  cases proper with
  | scalar plain => simp [isContainer] at plain
  | object _ entries => exact entries

theorem proper_array_iff {origin : Origin} {items : List Value} :
    Proper (.array origin items) ↔ ∀ item ∈ items, item.Proper :=
  ⟨Proper.items, .array⟩

theorem proper_object_iff {origin : Origin} {entries : List (String × Value)} :
    Proper (.object origin entries) ↔
      Entries.Distinct entries ∧ ∀ key value, (key, value) ∈ entries → value.Proper :=
  ⟨fun proper => ⟨proper.distinct, proper.entries⟩, fun ⟨distinct, each⟩ => .object distinct each⟩

mutual

def decideProper : (v : Value) → Decidable v.Proper
  | .absent | .null | .bool _ | .number _ | .string _ | .bigint _ _ | .date _ | .temporal _ =>
    .isTrue (.scalar rfl)
  | .array _ items =>
    have := decideItems items
    decidable_of_iff' _ proper_array_iff
  | .object _ entries =>
    have := decideEntries entries
    decidable_of_iff' _ proper_object_iff

def decideItems : (items : List Value) → Decidable (∀ item ∈ items, item.Proper)
  | [] => .isTrue (by simp)
  | item :: rest =>
    have := decideProper item
    have := decideItems rest
    decidable_of_iff' _ List.forall_mem_cons

def decideEntries : (entries : List (String × Value)) →
    Decidable (∀ key value, (key, value) ∈ entries → value.Proper)
  | [] => .isTrue (by simp)
  | (_, value) :: rest =>
    have := decideProper value
    have := decideEntries rest
    decidable_of_iff' _ Entries.forall_mem_cons

end

instance : DecidablePred Proper := decideProper

theorem property_mem (key : String) (entries : List (String × Value)) :
    property key entries = .absent ∨ (key, property key entries) ∈ entries := by
  unfold property
  cases found : Entries.get? key entries with
  | none => exact Or.inl rfl
  | some value => exact Or.inr (Entries.mem_of_get? found)

theorem property_of_mem {entries : List (String × Value)} (distinct : Entries.Distinct entries)
    {key : String} {x : Value} (member : (key, x) ∈ entries) : property key entries = x := by
  rw [property, Entries.get?_of_mem distinct member, Option.getD_some]

theorem property_of_not_mem {entries : List (String × Value)} {key : String}
    (missing : key ∉ Entries.names entries) : property key entries = .absent := by
  rw [property, Entries.get?_eq_none missing]
  rfl

theorem Proper.property {origin : Origin} {entries : List (String × Value)}
    (proper : Proper (.object origin entries)) (key : String) :
    Proper (property key entries) := by
  rcases property_mem key entries with missing | member
  · rw [missing]
    exact .scalar rfl
  · exact proper.entries _ _ member

@[simp] theorem isAbsent_eq_true {v : Value} : v.isAbsent = true ↔ v = .absent := by
  cases v <;> simp [isAbsent]

theorem isAbsent_eq_false {v : Value} : v.isAbsent = false ↔ v ≠ .absent := by
  cases v <;> simp [isAbsent]

@[simp] theorem isAbsent_absent : isAbsent .absent = true := rfl

@[simp] theorem same_refl (v : Value) : v.same v = true := by
  cases v <;> simp [same]
  next t => cases t <;> simp [Calendar.Temporal.equal]

/-- Everything in the value came into being before the pass of an origin. -/
def Predates (v : Value) (fresh : Origin) : Prop :=
  v.nextPass ≤ fresh.pass

theorem predates_freshOrigin (v : Value) : v.Predates v.freshOrigin :=
  Nat.le_refl _

theorem predates_absent (fresh : Origin) : Predates .absent fresh :=
  Nat.zero_le _

theorem Predates.enter {v : Value} {fresh : Origin} (old : v.Predates fresh) (step : Step) :
    v.Predates (fresh.enter step) := old

private theorem nextPass_item_le {item : Value} {items : List Value} (member : item ∈ items) :
    item.nextPass ≤ nextPassItems items := by
  induction items with
  | nil => simp at member
  | cons first rest ih =>
    simp only [nextPassItems]
    rcases List.mem_cons.mp member with rfl | member
    · exact Nat.le_max_left _ _
    · exact Nat.le_trans (ih member) (Nat.le_max_right _ _)

private theorem nextPass_entry_le {key : String} {value : Value}
    {entries : List (String × Value)} (member : (key, value) ∈ entries) :
    value.nextPass ≤ nextPassEntries entries := by
  induction entries with
  | nil => simp at member
  | cons first rest ih =>
    simp only [nextPassEntries]
    rcases List.mem_cons.mp member with rfl | member
    · exact Nat.le_max_left _ _
    · exact Nat.le_trans (ih member) (Nat.le_max_right _ _)

theorem Predates.item {origin fresh : Origin} {items : List Value} {item : Value}
    (old : (Value.array origin items).Predates fresh) (member : item ∈ items) :
    item.Predates fresh :=
  Nat.le_trans (nextPass_item_le member)
    (Nat.le_trans (Nat.le_max_right _ _) (by simpa only [Predates, nextPass] using old))

theorem Predates.entry {origin fresh : Origin} {entries : List (String × Value)} {key : String}
    {value : Value} (old : (Value.object origin entries).Predates fresh)
    (member : (key, value) ∈ entries) : value.Predates fresh :=
  Nat.le_trans (nextPass_entry_le member)
    (Nat.le_trans (Nat.le_max_right _ _) (by simpa only [Predates, nextPass] using old))

theorem Predates.property {origin fresh : Origin} {entries : List (String × Value)}
    (old : (Value.object origin entries).Predates fresh) (key : String) :
    (property key entries).Predates fresh := by
  rcases property_mem key entries with missing | member
  · rw [missing]
    exact predates_absent fresh
  · exact old.entry member

theorem Predates.get {v : Value} {fresh : Origin} (old : v.Predates fresh) (key : String) :
    (v.get key).Predates fresh := by
  cases v with
  | object origin entries => exact old.property key
  | _ => exact predates_absent fresh

theorem Predates.array_origin_ne {origin fresh : Origin} {items : List Value}
    (old : (Value.array origin items).Predates fresh) : fresh ≠ origin := by
  rintro rfl
  simp only [Predates, nextPass] at old
  omega

theorem Predates.object_origin_ne {origin fresh : Origin} {entries : List (String × Value)}
    (old : (Value.object origin entries).Predates fresh) : fresh ≠ origin := by
  rintro rfl
  simp only [Predates, nextPass] at old
  omega

end Value

end WireSchema
