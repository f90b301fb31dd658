import WireSchema.Proofs.Alike
import WireSchema.Proofs.Document

/-!
Values that differ in nothing that a conversion can tell: the same scalars, where big integers may
be at different places and equal numbers may be different ones, arrays item by item, and objects key
by key. What the keys themselves must have in common is left open. A value resembles what is left of
it when the entries that hold nothing are taken out.
-/

set_option autoImplicit false

namespace WireSchema.Value

open WireSchema.Update (property)

mutual

/-- The value without the entries that hold nothing, at every depth. All the rest of it, the origins
included, stays what it is. -/
def stripped : Value → Value
  | .array origin items => .array origin (strippedItems items)
  | .object origin entries => .object origin (strippedEntries entries)
  | other => other

def strippedItems : List Value → List Value
  | [] => []
  | item :: rest => stripped item :: strippedItems rest

def strippedEntries : List (String × Value) → List (String × Value)
  | [] => []
  | (key, value) :: rest =>
    if value.isAbsent then strippedEntries rest
    else (key, stripped value) :: strippedEntries rest

end

theorem stripped_array (origin : Origin) (items : List Value) :
    stripped (.array origin items) = .array origin (items.map stripped) := by
  have each : strippedItems items = items.map stripped := by
    induction items with
    | nil => rfl
    | cons item rest ih => rw [strippedItems, ih, List.map_cons]
  rw [stripped, each]

theorem stripped_object (origin : Origin) (entries : List (String × Value)) :
    stripped (.object origin entries) =
      .object origin (Entries.mapValues (fun _ => stripped) (present entries)) := by
  have each : strippedEntries entries =
      Entries.mapValues (fun _ => stripped) (present entries) := by
    induction entries with
    | nil => rfl
    | cons entry rest ih =>
      obtain ⟨key, value⟩ := entry
      cases empty : value.isAbsent <;> simp [strippedEntries, present, empty, ih]
  rw [stripped, each]

theorem stripped_of_scalar {v : Value} (plain : v.isContainer = false) : v.stripped = v := by
  cases v with
  | array | object => simp [isContainer] at plain
  | _ => rfl

theorem property_stripped {entries : List (String × Value)} (distinct : Entries.Distinct entries)
    (key : String) :
    property key (Entries.mapValues (fun _ => stripped) (present entries)) =
      stripped (property key entries) := by
  rw [property_mapValues_of_absent rfl, property_present distinct]

theorem Whole.stripped_eq {v : Value} (whole : v.Whole) : v.stripped = v := by
  induction whole with
  | scalar plain _ => exact stripped_of_scalar plain
  | @array origin items _ ih =>
    rw [stripped_array, List.map_congr_left ih, List.map_id']
  | @object origin entries distinct each ih =>
    have filled : Filled entries := fun entry member => (each entry.1 entry.2 member).ne_absent
    rw [stripped_object, filled.present_eq, Entries.mapValues_id ih]

/-- Values of the same content, as far as conversions look at it. The keys of objects are compared
by `shape`. -/
inductive Resembles (shape : List (String × Value) → List (String × Value) → Prop) :
    Value → Value → Prop where
  | scalar {v : Value} : v.isContainer = false → Resembles shape v v
  | number {x y : Binary64} : alikeNumbers x y = true → Resembles shape (.number x) (.number y)
  | bigint {o p : Origin} {n : Int} : Resembles shape (.bigint o n) (.bigint p n)
  | array {o p : Origin} {vs ws : List Value} : vs.length = ws.length →
      (∀ (i : Nat) (v w : Value), vs[i]? = some v → ws[i]? = some w → Resembles shape v w) →
      Resembles shape (.array o vs) (.array p ws)
  | object {o p : Origin} {es fs : List (String × Value)} : shape es fs →
      (∀ key, Resembles shape (property key es) (property key fs)) →
      Resembles shape (.object o es) (.object p fs)

structure Unrepeated (es fs : List (String × Value)) : Prop where
  left : Entries.Distinct es
  right : Entries.Distinct fs

structure Bared (es fs : List (String × Value)) : Prop extends Unrepeated es fs where
  names : Entries.names fs = Entries.names (present es)

section Resembles

variable {shape shape' : List (String × Value) → List (String × Value) → Prop} {v w : Value}

theorem Resembles.mono (weaker : ∀ es fs, shape es fs → shape' es fs)
    (alike : Resembles shape v w) : Resembles shape' v w := by
  induction alike with
  | scalar plain => exact .scalar plain
  | number equal => exact .number equal
  | bigint => exact .bigint
  | array length _ ih => exact .array length ih
  | object keys _ ih => exact .object (weaker _ _ keys) ih

theorem Resembles.unrepeated (alike : Resembles Bared v w) : Resembles Unrepeated v w :=
  alike.mono fun _ _ bared => bared.toUnrepeated

theorem Resembles.isAbsent_eq (alike : Resembles shape v w) : w.isAbsent = v.isAbsent := by
  cases alike <;> rfl

theorem Resembles.absent_iff (alike : Resembles shape v w) : v = .absent ↔ w = .absent := by
  rw [← isAbsent_eq_true, ← isAbsent_eq_true, alike.isAbsent_eq]

theorem Resembles.string_eq {s : String} (alike : Resembles shape (.string s) w) :
    w = .string s := by
  cases alike with
  | scalar _ => rfl

end Resembles

theorem resembles_stripped {v : Value} (proper : v.Proper) : Resembles Bared v v.stripped := by
  induction v using byParts with
  | scalar v plain =>
    rw [stripped_of_scalar plain]
    exact .scalar plain
  | array origin items ih =>
    rw [stripped_array]
    refine .array (List.length_map _).symm fun i x y found there => ?_
    rw [List.getElem?_map, found] at there
    obtain rfl := Option.some.inj there
    have member := List.mem_of_getElem? found
    exact ih x member (proper.items x member)
  | object origin entries ih =>
    rw [stripped_object]
    have distinct := proper.distinct
    have keys : Bared entries (Entries.mapValues (fun _ => stripped) (present entries)) := by
      refine ⟨⟨distinct, (distinct_present distinct).mapValues _⟩, ?_⟩
      rw [Entries.names_mapValues]
    refine .object keys fun key => ?_
    rw [property_stripped distinct]
    rcases property_mem key entries with gone | member
    · rw [gone]
      exact .scalar rfl
    · exact ih key _ member (proper.entries key _ member)

private theorem length_present {es fs : List (String × Value)} (keys : Unrepeated es fs)
    (alike : ∀ key, property key es = .absent ↔ property key fs = .absent) :
    (present es).length = (present fs).length := by
  have names : (Entries.names (present es)).Perm (Entries.names (present fs)) := by
    refine (List.perm_ext_iff_of_nodup (distinct_present keys.left)
      (distinct_present keys.right)).mpr fun key => ?_
    rw [mem_names_present keys.left, mem_names_present keys.right, Ne, alike key]
  have length := names.length_eq
  rwa [Entries.names, Entries.names, List.length_map, List.length_map] at length

theorem Resembles.alike_stripped {v w : Value} (alike : Resembles Unrepeated v w) :
    v.stripped.alike w.stripped = true := by
  induction alike with
  | scalar plain =>
    rw [stripped_of_scalar plain]
    exact alike_refl (.scalar plain)
  | number equal => exact equal
  | @bigint o p n => exact beq_self_eq_true n
  | @array o p vs ws length _ ih =>
    rw [stripped_array, stripped_array]
    refine alike_array.mpr ⟨by simpa using length, fun i a b left right => ?_⟩
    rw [List.getElem?_map, Option.map_eq_some_iff] at left right
    obtain ⟨x, found, rfl⟩ := left
    obtain ⟨y, there, rfl⟩ := right
    exact ih i x y found there
  | @object o p es fs keys each ih =>
    rw [stripped_object, stripped_object]
    have lengths := length_present keys fun key => (each key).absent_iff
    refine alike_object.mpr ⟨by simpa [Entries.mapValues] using lengths, fun key a member => ?_⟩
    obtain ⟨x, there, rfl⟩ := Entries.mem_mapValues.mp member
    obtain ⟨old, some⟩ := mem_present.mp there
    have own := property_of_mem keys.left old
    have other : property key fs ≠ .absent := fun gone =>
      some (own ▸ (each key).absent_iff.mpr gone)
    have found : Entries.get? key (present fs) = .some (property key fs) := by
      refine Entries.get?_of_mem (distinct_present keys.right) (mem_present.mpr ⟨?_, other⟩)
      exact Entries.mem_of_get? (get?_of_property other)
    refine ⟨stripped (property key fs), by rw [Entries.get?_mapValues, found]; rfl, ?_⟩
    rw [← own]
    exact ih key

end WireSchema.Value
