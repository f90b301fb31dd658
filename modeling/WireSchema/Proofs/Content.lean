import WireSchema.Proofs.Value

/-!
Two readings of a value that leave identity out. `unplaced` keeps everything else; `content` also
leaves out the entries that hold nothing, which no document shows.
-/

set_option autoImplicit false

namespace WireSchema.Value

open WireSchema.Update (property)

mutual

/-- The value as if every part of it had come into being at one place. -/
def unplaced : Value → Value
  | .bigint _ n => .bigint (.root 0) n
  | .array _ items => .array (.root 0) (unplacedItems items)
  | .object _ entries => .object (.root 0) (unplacedEntries entries)
  | other => other

def unplacedItems : List Value → List Value
  | [] => []
  | item :: rest => unplaced item :: unplacedItems rest

def unplacedEntries : List (String × Value) → List (String × Value)
  | [] => []
  | (key, value) :: rest => (key, unplaced value) :: unplacedEntries rest

end

mutual

/-- The value without places and without entries that hold nothing, at every depth. -/
def content : Value → Value
  | .bigint _ n => .bigint (.root 0) n
  | .array _ items => .array (.root 0) (contentItems items)
  | .object _ entries => .object (.root 0) (contentEntries entries)
  | other => other

def contentItems : List Value → List Value
  | [] => []
  | item :: rest => content item :: contentItems rest

def contentEntries : List (String × Value) → List (String × Value)
  | [] => []
  | (key, value) :: rest =>
    if value.isAbsent then contentEntries rest else (key, content value) :: contentEntries rest

end

def present (entries : List (String × Value)) : List (String × Value) :=
  entries.filter fun entry => !entry.2.isAbsent

theorem present_cons (key : String) (value : Value) (rest : List (String × Value)) :
    present ((key, value) :: rest) =
      if value.isAbsent then present rest else (key, value) :: present rest := by
  cases gone : value.isAbsent <;> simp [present, gone]

def Filled (entries : List (String × Value)) : Prop :=
  ∀ entry ∈ entries, entry.2 ≠ .absent

theorem Filled.present_eq {entries : List (String × Value)} (filled : Filled entries) :
    present entries = entries :=
  List.filter_eq_self.mpr fun entry member => by
    simp [isAbsent_eq_false.mpr (filled entry member)]

theorem Filled.property_ne {entries : List (String × Value)} (filled : Filled entries)
    {key : String} (member : key ∈ Entries.names entries) : property key entries ≠ .absent := by
  obtain ⟨value, found⟩ := Entries.exists_get?_of_mem_names member
  rw [property, found]
  exact filled (key, value) (Entries.mem_of_get? found)

theorem distinct_present {entries : List (String × Value)} (distinct : Entries.Distinct entries) :
    Entries.Distinct (present entries) :=
  distinct.filter _

theorem mem_present {entries : List (String × Value)} {key : String} {x : Value} :
    (key, x) ∈ present entries ↔ (key, x) ∈ entries ∧ x ≠ .absent := by
  simp [present, List.mem_filter, isAbsent_eq_false]

theorem get?_of_property {entries : List (String × Value)} {key : String}
    (there : property key entries ≠ .absent) :
    Entries.get? key entries = some (property key entries) := by
  unfold property at there ⊢
  cases found : Entries.get? key entries with
  | none => simp [found] at there
  | some x => rfl

theorem property_present {entries : List (String × Value)} (distinct : Entries.Distinct entries)
    (key : String) : property key (present entries) = property key entries := by
  by_cases there : property key entries = .absent
  · rw [there]
    rcases property_mem key (present entries) with gone | member
    · exact gone
    · obtain ⟨old, some⟩ := mem_present.mp member
      exact absurd ((property_of_mem distinct old).symm.trans there) some
  · have old := Entries.mem_of_get? (get?_of_property there)
    exact property_of_mem (distinct_present distinct) (mem_present.mpr ⟨old, there⟩)

theorem mem_names_present {entries : List (String × Value)} (distinct : Entries.Distinct entries)
    {key : String} : key ∈ Entries.names (present entries) ↔ property key entries ≠ .absent := by
  constructor
  · intro member
    obtain ⟨x, found⟩ := Entries.exists_get?_of_mem_names member
    have there := (mem_present.mp (Entries.mem_of_get? found)).2
    rw [← property_present distinct, property, found]
    exact there
  · intro there
    have old := Entries.mem_of_get? (get?_of_property there)
    exact Entries.mem_names_of_mem (mem_present.mpr ⟨old, there⟩)

theorem contentItems_eq_map (items : List Value) : contentItems items = items.map content := by
  induction items with
  | nil => rfl
  | cons item rest ih => simp [contentItems, ih]

@[simp] theorem unplaced_array (origin : Origin) (items : List Value) :
    unplaced (.array origin items) = .array (.root 0) (items.map unplaced) := by
  have each : unplacedItems items = items.map unplaced := by
    induction items with
    | nil => rfl
    | cons item rest ih => simp [unplacedItems, ih]
  rw [unplaced, each]

theorem contentEntries_eq (entries : List (String × Value)) :
    contentEntries entries = Entries.mapValues (fun _ value => content value) (present entries) := by
  induction entries with
  | nil => rfl
  | cons entry rest ih =>
    obtain ⟨key, value⟩ := entry
    cases empty : value.isAbsent <;> simp [contentEntries, present, empty, ih]

@[simp] theorem content_array (origin : Origin) (items : List Value) :
    content (.array origin items) = .array (.root 0) (items.map content) := by
  rw [content, contentItems_eq_map]

theorem content_object (origin : Origin) (entries : List (String × Value)) :
    content (.object origin entries) = .object (.root 0) (contentEntries entries) := by
  rw [content]

@[simp] theorem isAbsent_content (v : Value) : v.content.isAbsent = v.isAbsent := by
  cases v <;> rfl

theorem content_eq_absent {v : Value} : v.content = .absent ↔ v = .absent := by
  rw [← isAbsent_eq_true, isAbsent_content, isAbsent_eq_true]

theorem contentEntries_of_present_eq {as bs : List (String × Value)}
    (alike : present as = present bs) : contentEntries as = contentEntries bs := by
  rw [contentEntries_eq, contentEntries_eq, alike]

theorem property_mapValues_of_absent {f : Value → Value} (nothing : f .absent = .absent)
    (entries : List (String × Value)) (key : String) :
    property key (Entries.mapValues (fun _ => f) entries) = f (property key entries) := by
  unfold property
  rw [Entries.get?_mapValues]
  cases Entries.get? key entries with
  | none => exact nothing.symm
  | some x => rfl

theorem property_contentEntries {entries : List (String × Value)}
    (distinct : Entries.Distinct entries) (key : String) :
    property key (contentEntries entries) = content (property key entries) := by
  rw [contentEntries_eq, property_mapValues_of_absent rfl, property_present distinct]

theorem contentEntries_mapValues {f g : String → Value → Value} {entries : List (String × Value)}
    (distinct : Entries.Distinct entries) :
    contentEntries (Entries.mapValues f entries) = contentEntries (Entries.mapValues g entries) ↔
      ∀ key value, (key, value) ∈ entries → content (f key value) = content (g key value) := by
  constructor
  · intro alike key value member
    have found := Entries.get?_of_mem distinct member
    have left := property_contentEntries (distinct.mapValues f) key
    have right := property_contentEntries (distinct.mapValues g) key
    rw [alike, right] at left
    simpa [property, Entries.get?_mapValues, found] using left.symm
  · intro alike
    clear distinct
    induction entries with
    | nil => rfl
    | cons entry rest ih =>
      have first := alike entry.1 entry.2 List.mem_cons_self
      have rest := ih fun key value member => alike key value (List.mem_cons_of_mem _ member)
      have empty := congrArg isAbsent first
      simp only [isAbsent_content] at empty
      simp only [Entries.mapValues_cons, contentEntries, empty, first, rest]

end WireSchema.Value
