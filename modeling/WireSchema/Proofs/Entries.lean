import Mathlib.Data.List.Forall2
import WireSchema.Entries

/-!
What looking up, setting and erasing do to a list of entries whose names are distinct. Everything
is stated through the look-up and through the list itself, so that nothing else opens the
recursions.
-/

set_option autoImplicit false

namespace WireSchema.Entries

variable {α : Type} {β : Type}

@[simp] theorem names_nil : names ([] : List (String × α)) = [] := rfl

@[simp] theorem names_cons (entry : String × α) (rest : List (String × α)) :
    names (entry :: rest) = entry.1 :: names rest := rfl

@[simp] theorem names_append (as bs : List (String × α)) :
    names (as ++ bs) = names as ++ names bs := by
  simp [names]

@[simp] theorem get?_nil (name : String) : get? name ([] : List (String × α)) = none := rfl

theorem get?_cons (name : String) (entry : String × α) (rest : List (String × α)) :
    get? name (entry :: rest) = if entry.1 = name then some entry.2 else get? name rest := rfl

theorem set_nil (name : String) (value : α) : set name value [] = [(name, value)] := rfl

theorem set_cons (name : String) (value : α) (entry : String × α) (rest : List (String × α)) :
    set name value (entry :: rest) =
      if entry.1 = name then (entry.1, value) :: rest else entry :: set name value rest := rfl

theorem erase_cons (name : String) (entry : String × α) (rest : List (String × α)) :
    erase name (entry :: rest) =
      if entry.1 = name then rest else entry :: erase name rest := rfl

instance (entries : List (String × α)) : Decidable (Distinct entries) :=
  inferInstanceAs (Decidable (names entries).Nodup)

theorem distinct_cons {entry : String × α} {rest : List (String × α)} :
    Distinct (entry :: rest) ↔ entry.1 ∉ names rest ∧ Distinct rest := by
  simp [Distinct]

theorem forall_mem_cons {P : String → α → Prop} {entry : String × α} {rest : List (String × α)} :
    (∀ name a, (name, a) ∈ entry :: rest → P name a) ↔
      P entry.1 entry.2 ∧ ∀ name a, (name, a) ∈ rest → P name a := by
  have each := List.forall_mem_cons (p := fun e : String × α => P e.1 e.2) (a := entry) (l := rest)
  simpa only [Prod.forall] using each

theorem mem_names_of_mem {entry : String × α} {entries : List (String × α)}
    (member : entry ∈ entries) : entry.1 ∈ names entries :=
  List.mem_map.mpr ⟨entry, member, rfl⟩

theorem get?_eq_none_iff {name : String} {entries : List (String × α)} :
    get? name entries = none ↔ name ∉ names entries := by
  induction entries with
  | nil => simp
  | cons entry rest ih =>
    obtain ⟨n, a⟩ := entry
    simp only [get?_cons, names_cons, List.mem_cons, not_or]
    split
    · next same => simp [same]
    · next other => simp [ih, Ne.symm other]

theorem get?_eq_none {name : String} {entries : List (String × α)}
    (missing : name ∉ names entries) : get? name entries = none :=
  get?_eq_none_iff.mpr missing

theorem mem_of_get? {name : String} {a : α} {entries : List (String × α)}
    (found : get? name entries = some a) : (name, a) ∈ entries := by
  induction entries with
  | nil => simp at found
  | cons entry rest ih =>
    obtain ⟨n, b⟩ := entry
    simp only [get?_cons] at found
    split at found
    · next same =>
      obtain rfl := Option.some.inj found
      exact same ▸ List.mem_cons_self
    · exact List.mem_cons_of_mem _ (ih found)

theorem mem_names_of_get? {name : String} {a : α} {entries : List (String × α)}
    (found : get? name entries = some a) : name ∈ names entries :=
  mem_names_of_mem (mem_of_get? found)

theorem get?_of_mem {name : String} {a : α} {entries : List (String × α)}
    (distinct : Distinct entries) (member : (name, a) ∈ entries) :
    get? name entries = some a := by
  induction entries with
  | nil => simp at member
  | cons entry rest ih =>
    obtain ⟨fresh, tail⟩ := distinct_cons.mp distinct
    rcases List.mem_cons.mp member with rfl | member
    · simp [get?_cons]
    · have other : entry.1 ≠ name := fun same => fresh (same ▸ mem_names_of_mem member)
      simp only [get?_cons, if_neg other]
      exact ih tail member

theorem exists_get?_of_mem_names {name : String} {entries : List (String × α)}
    (member : name ∈ names entries) : ∃ a, get? name entries = some a := by
  cases found : get? name entries with
  | none => exact absurd member (get?_eq_none_iff.mp found)
  | some a => exact ⟨a, rfl⟩

def mapValues (f : String → α → β) (entries : List (String × α)) : List (String × β) :=
  entries.map fun entry => (entry.1, f entry.1 entry.2)

@[simp] theorem mapValues_nil (f : String → α → β) : mapValues f [] = [] := rfl

@[simp] theorem mapValues_cons (f : String → α → β) (entry : String × α)
    (rest : List (String × α)) :
    mapValues f (entry :: rest) = (entry.1, f entry.1 entry.2) :: mapValues f rest := rfl

@[simp] theorem names_mapValues (f : String → α → β) (entries : List (String × α)) :
    names (mapValues f entries) = names entries := by
  simp [names, mapValues]

theorem get?_mapValues (f : String → α → β) (name : String) (entries : List (String × α)) :
    get? name (mapValues f entries) = (get? name entries).map (f name) := by
  induction entries with
  | nil => rfl
  | cons entry rest ih =>
    obtain ⟨n, a⟩ := entry
    simp only [mapValues_cons, get?_cons]
    split
    · next same => simp [same]
    · exact ih

theorem mem_mapValues {f : String → α → β} {name : String} {b : β} {entries : List (String × α)} :
    (name, b) ∈ mapValues f entries ↔ ∃ a, (name, a) ∈ entries ∧ b = f name a := by
  simp only [mapValues, List.mem_map, Prod.exists, Prod.mk.injEq]
  constructor
  · rintro ⟨_, a, member, rfl, rfl⟩
    exact ⟨a, member, rfl⟩
  · rintro ⟨a, member, rfl⟩
    exact ⟨name, a, member, rfl, rfl⟩

theorem mapValues_congr {f g : String → α → β} {entries : List (String × α)}
    (agree : ∀ name a, (name, a) ∈ entries → f name a = g name a) :
    mapValues f entries = mapValues g entries := by
  apply List.map_congr_left
  rintro ⟨name, a⟩ member
  simp [agree name a member]

theorem mapValues_id {f : String → α → α} {entries : List (String × α)}
    (keep : ∀ name a, (name, a) ∈ entries → f name a = a) : mapValues f entries = entries := by
  induction entries with
  | nil => rfl
  | cons entry rest ih =>
    rw [mapValues_cons, keep _ _ List.mem_cons_self,
      ih fun name a member => keep name a (List.mem_cons_of_mem _ member)]

theorem mapValues_append (f : String → α → β) (as bs : List (String × α)) :
    mapValues f (as ++ bs) = mapValues f as ++ mapValues f bs := by
  simp [mapValues]

theorem mapValues_mapValues {γ : Type} (g : String → β → γ) (f : String → α → β)
    (entries : List (String × α)) :
    mapValues g (mapValues f entries) = mapValues (fun name a => g name (f name a)) entries := by
  simp [mapValues]

theorem set_eq_mapValues {name : String} {value : α} {entries : List (String × α)}
    (distinct : Distinct entries) (member : name ∈ names entries) :
    set name value entries = mapValues (fun n a => if n = name then value else a) entries := by
  induction entries with
  | nil => simp at member
  | cons entry rest ih =>
    obtain ⟨fresh, tail⟩ := distinct_cons.mp distinct
    simp only [set_cons, mapValues_cons]
    by_cases same : entry.1 = name
    · subst same
      simp only [if_true, List.cons.injEq, true_and]
      refine (mapValues_id fun n a found => ?_).symm
      have other : n ≠ entry.1 := fun same => fresh (same ▸ mem_names_of_mem found)
      exact if_neg other
    · have later : name ∈ names rest :=
        (List.mem_cons.mp member).resolve_left (Ne.symm same)
      simp [same, ih tail later]

theorem set_of_not_mem {name : String} {value : α} {entries : List (String × α)}
    (missing : name ∉ names entries) : set name value entries = entries ++ [(name, value)] := by
  induction entries with
  | nil => rfl
  | cons entry rest ih =>
    simp only [names_cons, List.mem_cons, not_or] at missing
    simp [set_cons, Ne.symm missing.1, ih missing.2]

theorem erase_eq_filter {name : String} {entries : List (String × α)}
    (distinct : Distinct entries) :
    erase name entries = entries.filter fun entry => entry.1 ≠ name := by
  induction entries with
  | nil => rfl
  | cons entry rest ih =>
    obtain ⟨fresh, tail⟩ := distinct_cons.mp distinct
    simp only [erase_cons]
    by_cases same : entry.1 = name
    · subst same
      have others : ∀ other ∈ rest, decide (other.1 ≠ entry.1) = true := fun other found =>
        decide_eq_true fun same => fresh (same ▸ mem_names_of_mem found)
      rw [List.filter_cons_of_neg (by simp), List.filter_eq_self.mpr others, if_pos rfl]
    · simp [same, ih tail]

theorem names_set (name : String) (value : α) (entries : List (String × α)) :
    names (set name value entries) =
      if name ∈ names entries then names entries else names entries ++ [name] := by
  induction entries with
  | nil => rfl
  | cons entry rest ih =>
    rw [set_cons]
    by_cases same : entry.1 = name
    · simp [same]
    · by_cases later : name ∈ names rest
      · simp [same, ih, later]
      · simp [same, ih, later, Ne.symm same]

theorem names_erase (name : String) (entries : List (String × α)) :
    names (erase name entries) = (names entries).erase name := by
  induction entries with
  | nil => rfl
  | cons entry rest ih =>
    rw [erase_cons]
    by_cases same : entry.1 = name
    · simp [same]
    · simp [same, ih]

theorem get?_set_of_ne {name other : String} {value : α} {entries : List (String × α)}
    (differ : other ≠ name) : get? name (set other value entries) = get? name entries := by
  induction entries with
  | nil => simp [set_nil, get?_cons, differ]
  | cons entry rest ih =>
    simp only [set_cons]
    split
    · next same => simp [get?_cons, differ, same]
    · simp [get?_cons, ih]

theorem get?_set_self (name : String) (value : α) (entries : List (String × α)) :
    get? name (set name value entries) = some value := by
  induction entries with
  | nil => simp [set_nil, get?_cons]
  | cons entry rest ih =>
    simp only [set_cons]
    split
    · next same => simp [get?_cons, same]
    · next other => simp [get?_cons, other, ih]

theorem get?_erase_of_ne {name other : String} {entries : List (String × α)}
    (differ : other ≠ name) : get? name (erase other entries) = get? name entries := by
  induction entries with
  | nil => rfl
  | cons entry rest ih =>
    simp only [erase_cons]
    split
    · next same => simp [get?_cons, differ, same]
    · simp [get?_cons, ih]

theorem mem_of_mem_erase {name : String} {entry : String × α} {entries : List (String × α)}
    (member : entry ∈ erase name entries) : entry ∈ entries := by
  induction entries with
  | nil => exact member
  | cons first rest ih =>
    simp only [erase_cons] at member
    split at member
    · exact List.mem_cons_of_mem _ member
    · rcases List.mem_cons.mp member with rfl | later
      · exact List.mem_cons_self
      · exact List.mem_cons_of_mem _ (ih later)

theorem eq_or_mem_of_mem_set {name : String} {value : α} {entry : String × α}
    {entries : List (String × α)} (member : entry ∈ set name value entries) :
    entry = (name, value) ∨ entry ∈ entries := by
  induction entries with
  | nil => exact Or.inl (List.mem_singleton.mp member)
  | cons first rest ih =>
    simp only [set_cons] at member
    split at member
    · next same =>
      rcases List.mem_cons.mp member with rfl | later
      · exact Or.inl (by rw [same])
      · exact Or.inr (List.mem_cons_of_mem _ later)
    · rcases List.mem_cons.mp member with rfl | later
      · exact Or.inr List.mem_cons_self
      · exact (ih later).imp_right (List.mem_cons_of_mem _)

theorem Distinct.filter {entries : List (String × α)} (distinct : Distinct entries)
    (p : String × α → Bool) : Distinct (entries.filter p) :=
  List.Nodup.sublist (List.Sublist.map _ List.filter_sublist) distinct

theorem Distinct.erase {entries : List (String × α)} (distinct : Distinct entries)
    (name : String) : Distinct (erase name entries) := by
  rw [erase_eq_filter distinct]
  exact distinct.filter _

theorem Distinct.mapValues {entries : List (String × α)} (distinct : Distinct entries)
    (f : String → α → β) : Distinct (mapValues f entries) := by
  rwa [Distinct, names_mapValues]

theorem Distinct.set {entries : List (String × α)} (distinct : Distinct entries)
    (name : String) (value : α) : Distinct (set name value entries) := by
  by_cases member : name ∈ names entries
  · rw [set_eq_mapValues distinct member]
    exact distinct.mapValues _
  · rw [set_of_not_mem member, Distinct, names_append]
    refine List.nodup_append.mpr ⟨distinct, by simp, ?_⟩
    intro a here b there same
    have single : b = name := by simpa using there
    exact member (single ▸ same ▸ here)

theorem names_filter {p : String × α → Bool} {q : String → Bool} {entries : List (String × α)}
    (agree : ∀ entry ∈ entries, p entry = q entry.1) :
    names (entries.filter p) = (names entries).filter q := by
  rw [names, names, List.filter_map]
  exact congrArg (List.map Prod.fst) (List.filter_congr agree)

theorem distinct_append {as bs : List (String × α)} :
    Distinct (as ++ bs) ↔ Distinct as ∧ Distinct bs ∧ ∀ name ∈ names as, name ∉ names bs := by
  rw [Distinct, names_append, List.nodup_append]
  constructor
  · rintro ⟨first, second, apart⟩
    exact ⟨first, second, fun name here there => apart name here name there rfl⟩
  · rintro ⟨first, second, apart⟩
    exact ⟨first, second, fun name here other there same => apart name here (same ▸ there)⟩

def only (kept : String → Bool) (entries : List (String × α)) : List (String × α) :=
  entries.filter fun entry => kept entry.1

section Only

variable {kept : String → Bool} {entry : String × α} {rest : List (String × α)}

theorem only_cons_of_kept (stays : kept entry.1 = true) :
    only kept (entry :: rest) = entry :: only kept rest :=
  List.filter_cons_of_pos stays

theorem only_cons_of_left (goes : kept entry.1 = false) :
    only kept (entry :: rest) = only kept rest :=
  List.filter_cons_of_neg (by simp [goes])

theorem only_mapValues (f : String → α → β) (entries : List (String × α)) :
    only kept (mapValues f entries) = mapValues f (only kept entries) := by
  rw [only, mapValues, List.filter_map]
  rfl

theorem Distinct.only {entries : List (String × α)} (distinct : Distinct entries)
    (kept : String → Bool) : Distinct (only kept entries) :=
  distinct.filter _

end Only

private theorem distinct_foldl_set (pairs : List (String × α)) {entries : List (String × α)}
    (distinct : Distinct entries) :
    Distinct (pairs.foldl (fun entries pair => set pair.1 pair.2 entries) entries) := by
  induction pairs generalizing entries with
  | nil => exact distinct
  | cons pair rest ih => exact ih (distinct.set pair.1 pair.2)

theorem distinct_ofList (pairs : List (String × α)) : Distinct (ofList pairs) :=
  distinct_foldl_set pairs (by simp [Distinct])

private theorem foldl_set_of_distinct (pairs : List (String × α)) {entries : List (String × α)}
    (distinct : Distinct (entries ++ pairs)) :
    pairs.foldl (fun entries pair => set pair.1 pair.2 entries) entries = entries ++ pairs := by
  induction pairs generalizing entries with
  | nil => simp
  | cons pair rest ih =>
    have missing : pair.1 ∉ names entries := fun member =>
      (distinct_append.mp distinct).2.2 pair.1 member (by simp)
    rw [List.foldl_cons, set_of_not_mem missing, ih (by simpa using distinct)]
    simp

theorem ofList_of_distinct {pairs : List (String × α)} (distinct : Distinct pairs) :
    ofList pairs = pairs :=
  foldl_set_of_distinct pairs distinct

private theorem mem_of_mem_foldl_set {entry : String × α} (pairs : List (String × α))
    {entries : List (String × α)}
    (member : entry ∈ pairs.foldl (fun entries pair => set pair.1 pair.2 entries) entries) :
    entry ∈ entries ∨ entry ∈ pairs := by
  induction pairs generalizing entries with
  | nil => exact Or.inl member
  | cons pair rest ih =>
    rcases ih member with old | later
    · rcases eq_or_mem_of_mem_set old with rfl | old
      · exact Or.inr List.mem_cons_self
      · exact Or.inl old
    · exact Or.inr (List.mem_cons_of_mem _ later)

theorem mem_of_mem_ofList {entry : String × α} {pairs : List (String × α)}
    (member : entry ∈ ofList pairs) : entry ∈ pairs :=
  (mem_of_mem_foldl_set pairs member).resolve_left (by simp)

def Matched (R : α → β → Prop) (as : List (String × α)) (bs : List (String × β)) : Prop :=
  List.Forall₂ (fun a b => a.1 = b.1 ∧ R a.2 b.2) as bs

section Matched

variable {R S : α → β → Prop} {as : List (String × α)} {bs : List (String × β)}

theorem Matched.imp (weaker : ∀ a b, R a b → S a b) (matched : Matched R as bs) :
    Matched S as bs :=
  List.Forall₂.imp (fun _ _ both => ⟨both.1, weaker _ _ both.2⟩) matched

theorem Matched.names_eq (matched : Matched R as bs) : names bs = names as := by
  induction matched with
  | nil => rfl
  | cons first _ ih => rw [names_cons, names_cons, first.1, ih]

theorem Matched.exists_left (matched : Matched R as bs) {name : String} {b : β}
    (member : (name, b) ∈ bs) : ∃ a, (name, a) ∈ as ∧ R a b := by
  induction matched with
  | nil => simp at member
  | @cons a _ _ _ first _ ih =>
    rcases List.mem_cons.mp member with rfl | member
    · exact ⟨a.2, List.mem_cons.mpr (Or.inl (Prod.ext first.1.symm rfl)), first.2⟩
    · obtain ⟨a, there, related⟩ := ih member
      exact ⟨a, List.mem_cons_of_mem _ there, related⟩

theorem Matched.exists_right (matched : Matched R as bs) {name : String} {a : α}
    (member : (name, a) ∈ as) : ∃ b, (name, b) ∈ bs ∧ R a b := by
  induction matched with
  | nil => simp at member
  | @cons _ b _ _ first _ ih =>
    rcases List.mem_cons.mp member with rfl | member
    · exact ⟨b.2, List.mem_cons.mpr (Or.inl (Prod.ext first.1 rfl)), first.2⟩
    · obtain ⟨b, there, related⟩ := ih member
      exact ⟨b, List.mem_cons_of_mem _ there, related⟩

theorem Matched.get? (matched : Matched R as bs) (name : String) :
    Option.Rel R (get? name as) (get? name bs) := by
  induction matched with
  | nil => exact .none
  | @cons a b _ _ first _ ih =>
    simp only [get?_cons, ← first.1]
    split
    · exact .some first.2
    · exact ih

end Matched

end WireSchema.Entries
