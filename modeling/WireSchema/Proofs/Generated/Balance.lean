import Mathlib.Data.List.Nodup
import WireSchema.Generated.Deserializer
import WireSchema.Proofs.Generated.Growth
import WireSchema.Proofs.Generated.Mentions
import WireSchema.Proofs.Generated.Sharing

/-!
Programs in balance: what is mentioned is imported or defined, and what is imported or defined is
mentioned. While code is generated, what it mentions so far stands as one more function after the
helpers: a name is imported when the text that mentions it is made, and a helper takes over what its
body mentions.
-/

set_option autoImplicit false

namespace WireSchema.Generated

open WireSchema.Text

/-- The names of the runtime, and where they are imported from. -/
def runtime : List (String × String) :=
  [("Value", rootPath), ("Error", rootPath), ("TemporalKind", rootPath),
    ("parse_boolean", jsonPath), ("parse_string", jsonPath), ("parse_array", jsonPath),
    ("parse_length", jsonPath), ("parse_integer", intPath), ("parse_u32", intPath),
    ("parse_i32", intPath), ("serialize_number", numberPath), ("parse_number", numberPath),
    ("parse_bigint", bigintPath), ("parse_u64", bigintPath), ("parse_i64", bigintPath),
    ("to_iso_string", datePath), ("parse_date", datePath), ("parse_temporal", temporalPath),
    ("shallow_copy", accessPath), ("map_field", accessPath), ("discriminant", accessPath),
    ("map_payload", accessPath), ("map_array", cowPath), ("map_cow", cowPath),
    ("set_cow_property", cowPath), ("finish_cow", cowPath)]

namespace Program

def imported (p : Program) : List String :=
  p.imports.flatMap Prod.snd

/-- Every name is imported from the place that it has in the runtime, and once there. -/
structure Homed (p : Program) : Prop where
  paths : Entries.Distinct p.imports
  names : ∀ path names, (path, names) ∈ p.imports → names.Nodup
  homes : ∀ path names, (path, names) ∈ p.imports →
    ∀ name ∈ names, Entries.get? name runtime = some path

variable {p : Program} {path name : String}

private theorem mem_addName_iff {other : String} {names : List String} :
    other ∈ addName name names ↔ other ∈ names ∨ other = name := by
  rw [addName]
  split
  · next found =>
    have member : name ∈ names := by simpa using found
    exact ⟨Or.inl, fun either => either.elim id fun same => same ▸ member⟩
  · simp

private theorem nodup_concat {names : List String} (nodup : names.Nodup) (missing : name ∉ names) :
    (names ++ [name]).Nodup := by
  rw [← List.concat_eq_append]
  exact nodup.concat missing

private theorem nodup_addName {names : List String} (nodup : names.Nodup) :
    (addName name names).Nodup := by
  rw [addName]
  split
  · exact nodup
  · next missing => exact nodup_concat nodup (by simpa using missing)

private theorem paths_addImport (imports : List (String × List String)) :
    Entries.names (addImport path name imports) =
      if path ∈ Entries.names imports then Entries.names imports
      else Entries.names imports ++ [path] := by
  induction imports with
  | nil => rfl
  | cons entry rest ih =>
    obtain ⟨first, names⟩ := entry
    rw [addImport]
    by_cases same : first = path
    · simp [same]
    · rw [if_neg same, Entries.names_cons, ih, Entries.names_cons]
      by_cases later : path ∈ Entries.names rest
      · simp [later]
      · simp [later, Ne.symm same]

private theorem mem_addImport {imports : List (String × List String)} {at_ : String}
    {names : List String} (member : (at_, names) ∈ addImport path name imports) :
    (at_, names) ∈ imports ∨ at_ = path ∧ ∃ old, (old = [] ∨ (path, old) ∈ imports) ∧
      names = addName name old := by
  induction imports with
  | nil =>
    obtain ⟨rfl, rfl⟩ : at_ = path ∧ names = [name] := by simpa [addImport] using member
    exact Or.inr ⟨rfl, [], Or.inl rfl, rfl⟩
  | cons entry rest ih =>
    obtain ⟨first, old⟩ := entry
    rw [addImport] at member
    split at member
    · next same =>
      subst same
      rcases List.mem_cons.mp member with here | there
      · obtain ⟨rfl, rfl⟩ := Prod.mk.inj here
        exact Or.inr ⟨rfl, old, Or.inr List.mem_cons_self, rfl⟩
      · exact Or.inl (List.mem_cons_of_mem _ there)
    · rcases List.mem_cons.mp member with here | there
      · exact Or.inl (here ▸ List.mem_cons_self)
      · rcases ih there with kept | ⟨rfl, old, known, rfl⟩
        · exact Or.inl (List.mem_cons_of_mem _ kept)
        · exact Or.inr ⟨rfl, old, known.imp id (List.mem_cons_of_mem _), rfl⟩

theorem mem_imported_importing {other : String} :
    other ∈ (p.importing path name).imported ↔ other ∈ p.imported ∨ other = name := by
  obtain ⟨imports, helpers⟩ := p
  change other ∈ (addImport path name imports).flatMap Prod.snd ↔
    other ∈ imports.flatMap Prod.snd ∨ other = name
  induction imports with
  | nil => simp [addImport]
  | cons entry rest ih =>
    obtain ⟨first, names⟩ := entry
    rw [addImport]
    split
    · simp only [List.flatMap_cons, List.mem_append, mem_addName_iff]
      tauto
    · simp only [List.flatMap_cons, List.mem_append, ih]
      tauto

theorem Homed.importing (homed : p.Homed) (home : Entries.get? name runtime = some path) :
    (p.importing path name).Homed where
  paths := by
    change (Entries.names (addImport path name p.imports)).Nodup
    rw [paths_addImport]
    split
    · exact homed.paths
    · next missing => exact nodup_concat homed.paths missing
  names := by
    intro at_ names member
    rcases mem_addImport member with kept | ⟨rfl, old, known, rfl⟩
    · exact homed.names at_ names kept
    · refine nodup_addName ?_
      rcases known with rfl | known
      · exact List.nodup_nil
      · exact homed.names at_ old known
  homes := by
    intro at_ names member other inside
    rcases mem_addImport member with kept | ⟨rfl, old, known, rfl⟩
    · exact homed.homes at_ names kept other inside
    · rcases mem_addName_iff.mp inside with inside | rfl
      · rcases known with rfl | known
        · simp at inside
        · exact homed.homes at_ old known other inside
      · exact home

theorem Homed.home (homed : p.Homed) (member : name ∈ p.imported) :
    ∃ path, Entries.get? name runtime = some path := by
  obtain ⟨⟨path, names⟩, there, inside⟩ := List.mem_flatMap.mp member
  exact ⟨path, homed.homes path names there name inside⟩

theorem Homed.nodup (homed : p.Homed) : p.imported.Nodup := by
  refine List.nodup_flatMap.mpr ⟨fun entry member => homed.names entry.1 entry.2 member, ?_⟩
  have apart : p.imports.Pairwise fun a b => a.1 ≠ b.1 := List.pairwise_map.mp homed.paths
  refine apart.imp_of_mem fun {a b} left right differ name one two => differ ?_
  have home := homed.homes a.1 a.2 left name one
  have home' := homed.homes b.1 b.2 right name two
  exact Option.some.inj (home.symm.trans home')

/-- A function mentions a name: a helper by its number, or, after all of them, the one that is to
hold the pending names. -/
def Mentions (p : Program) (pending : List String) (i : Nat) (name : String) : Prop :=
  (∃ body, p.helpers[i]? = some body ∧ name ∈ body.mentioned) ∨
    i = p.helpers.length ∧ name ∈ pending

/-- What is mentioned is imported or a helper before it, and nothing else is imported or defined. -/
structure Balanced (p : Program) (pending : List String) : Prop where
  homed : p.Homed
  known : ∀ i name, p.Mentions pending i name → name ∈ p.imported ∨ ∃ k < i, name = helperName k
  used : ∀ name ∈ p.imported, ∃ i, p.Mentions pending i name
  called : ∀ k < p.helpers.length, ∃ i, k < i ∧ p.Mentions pending i (helperName k)

variable {pending others : List String}

theorem balanced_empty : empty.Balanced [] where
  homed := ⟨List.nodup_nil, by simp [empty], by simp [empty]⟩
  known := by simp [Mentions, empty]
  used := by simp [imported, empty]
  called := by simp [empty]

private theorem runtime_not_numbered : ∀ entry ∈ runtime, numbered entry.1 = false := by
  decide

theorem ne_helperName_of_home (home : Entries.get? name runtime = some path) (k : Nat) :
    name ≠ helperName k :=
  ne_helperName (runtime_not_numbered _ (Entries.mem_of_get? home)) k

theorem Balanced.apart (balanced : p.Balanced pending) (member : name ∈ p.imported) (k : Nat) :
    name ≠ helperName k := by
  obtain ⟨path, home⟩ := balanced.homed.home member
  exact ne_helperName_of_home home k

theorem Balanced.backward (balanced : p.Balanced pending) {i k : Nat}
    (mentions : p.Mentions pending i (helperName k)) : k < i := by
  rcases balanced.known i _ mentions with member | ⟨j, before, same⟩
  · exact absurd rfl (balanced.apart member k)
  · exact helperName_injective same ▸ before

theorem Balanced.congr (balanced : p.Balanced pending)
    (same : ∀ name, name ∈ pending ↔ name ∈ others) : p.Balanced others := by
  have alike : ∀ i name, p.Mentions pending i name ↔ p.Mentions others i name := by
    intro i name
    simp only [Mentions, same]
  refine ⟨balanced.homed, fun i name mentions => ?_, fun name member => ?_, fun k within => ?_⟩
  · exact balanced.known i name ((alike i name).mpr mentions)
  · obtain ⟨i, mentions⟩ := balanced.used name member
    exact ⟨i, (alike i name).mp mentions⟩
  · obtain ⟨i, before, mentions⟩ := balanced.called k within
    exact ⟨i, before, (alike i _).mp mentions⟩

theorem Balanced.importing (balanced : p.Balanced pending)
    (home : Entries.get? name runtime = some path) :
    (p.importing path name).Balanced (name :: pending) where
  homed := balanced.homed.importing home
  known := by
    intro i other mentions
    rw [mem_imported_importing]
    rcases mentions with ⟨body, here, member⟩ | ⟨last, member⟩
    · exact (balanced.known i other (Or.inl ⟨body, here, member⟩)).imp Or.inl id
    · rcases List.mem_cons.mp member with rfl | member
      · exact Or.inl (Or.inr rfl)
      · exact (balanced.known i other (Or.inr ⟨last, member⟩)).imp Or.inl id
  used := by
    intro other member
    rcases mem_imported_importing.mp member with member | rfl
    · obtain ⟨i, mentions⟩ := balanced.used other member
      exact ⟨i, mentions.imp id fun last => ⟨last.1, List.mem_cons_of_mem _ last.2⟩⟩
    · exact ⟨p.helpers.length, Or.inr ⟨rfl, List.mem_cons_self⟩⟩
  called := by
    intro k within
    obtain ⟨i, before, mentions⟩ := balanced.called k within
    exact ⟨i, before, mentions.imp id fun last => ⟨last.1, List.mem_cons_of_mem _ last.2⟩⟩

/-- A helper mentions what its text does, so one found by its text mentions the same. -/
private theorem mentioned_of_render {body body' : Body} (same : body.render = body'.render) :
    body.mentioned = body'.mentioned := by
  rw [← mentions_helper, same, mentions_helper]

private theorem Balanced.shared {body : Body} (balanced : p.Balanced (body.mentioned ++ others))
    {k : Nat} (found : p.helperIndex? body.render = some k) :
    p.Balanced (helperName k :: others) := by
  obtain ⟨old, here, same⟩ := helperIndex_eq_some found
  have within := (List.getElem?_eq_some_iff.mp here).1
  have held : ∀ {pending name}, name ∈ body.mentioned → p.Mentions pending k name :=
    fun member => Or.inl ⟨old, here, mentioned_of_render same ▸ member⟩
  refine ⟨balanced.homed, fun i name mentions => ?_, fun name member => ?_, fun j before => ?_⟩
  · rcases mentions with helper | ⟨rfl, member⟩
    · exact balanced.known i name (Or.inl helper)
    · rcases List.mem_cons.mp member with rfl | member
      · exact Or.inr ⟨k, within, rfl⟩
      · exact balanced.known _ name (Or.inr ⟨rfl, List.mem_append_right _ member⟩)
  · obtain ⟨i, helper | ⟨rfl, member⟩⟩ := balanced.used name member
    · exact ⟨i, Or.inl helper⟩
    · rcases List.mem_append.mp member with member | member
      · exact ⟨k, held member⟩
      · exact ⟨_, Or.inr ⟨rfl, List.mem_cons_of_mem _ member⟩⟩
  · obtain ⟨i, after, helper | ⟨rfl, member⟩⟩ := balanced.called j before
    · exact ⟨i, after, Or.inl helper⟩
    · rcases List.mem_append.mp member with member | member
      · exact ⟨k, balanced.backward (held member), held member⟩
      · exact ⟨_, after, Or.inr ⟨rfl, List.mem_cons_of_mem _ member⟩⟩

private theorem mentions_concat {body : Body} {i : Nat} :
    Mentions { p with helpers := p.helpers ++ [body] } pending i name ↔
      (∃ old, p.helpers[i]? = some old ∧ name ∈ old.mentioned) ∨
        i = p.helpers.length ∧ name ∈ body.mentioned ∨
          i = p.helpers.length + 1 ∧ name ∈ pending := by
  simp only [Mentions, List.length_append, List.length_singleton, List.getElem?_append,
    List.getElem?_singleton]
  by_cases before : i < p.helpers.length
  · simp [before, show i ≠ p.helpers.length by omega]
  · simp [before, show i - p.helpers.length = 0 ↔ i = p.helpers.length by omega]

private theorem Balanced.concat {body : Body} (balanced : p.Balanced (body.mentioned ++ others)) :
    Balanced { p with helpers := p.helpers ++ [body] }
      (helperName p.helpers.length :: others) := by
  refine ⟨⟨balanced.homed.paths, balanced.homed.names, balanced.homed.homes⟩,
    fun i name mentions => ?_, fun name member => ?_, fun k within => ?_⟩
  · rcases mentions_concat.mp mentions with helper | ⟨rfl, member⟩ | ⟨rfl, member⟩
    · exact balanced.known i name (Or.inl helper)
    · exact balanced.known _ name (Or.inr ⟨rfl, List.mem_append_left _ member⟩)
    · rcases List.mem_cons.mp member with rfl | member
      · exact Or.inr ⟨_, Nat.lt_succ_self _, rfl⟩
      · have known := balanced.known _ name (Or.inr ⟨rfl, List.mem_append_right _ member⟩)
        exact known.imp id fun ⟨k, before, same⟩ => ⟨k, Nat.lt_succ_of_lt before, same⟩
  · obtain ⟨i, helper | ⟨rfl, pending⟩⟩ := balanced.used name member
    · exact ⟨i, mentions_concat.mpr (Or.inl helper)⟩
    · rcases List.mem_append.mp pending with inside | beside
      · exact ⟨_, mentions_concat.mpr (Or.inr (Or.inl ⟨rfl, inside⟩))⟩
      · exact ⟨_, mentions_concat.mpr
          (Or.inr (Or.inr ⟨rfl, List.mem_cons_of_mem _ beside⟩))⟩
  · rw [List.length_append, List.length_singleton] at within
    by_cases last : k = p.helpers.length
    · exact ⟨_, last ▸ Nat.lt_succ_self _,
        mentions_concat.mpr (Or.inr (Or.inr ⟨rfl, last ▸ List.mem_cons_self⟩))⟩
    · obtain ⟨i, after, helper | ⟨rfl, pending⟩⟩ := balanced.called k (by omega)
      · exact ⟨i, after, mentions_concat.mpr (Or.inl helper)⟩
      · rcases List.mem_append.mp pending with inside | beside
        · exact ⟨_, after, mentions_concat.mpr (Or.inr (Or.inl ⟨rfl, inside⟩))⟩
        · exact ⟨_, Nat.lt_succ_of_lt after, mentions_concat.mpr
            (Or.inr (Or.inr ⟨rfl, List.mem_cons_of_mem _ beside⟩))⟩

/-- A helper that is defined takes over what its body mentions. -/
theorem Balanced.define {body : Body} (balanced : p.Balanced (body.mentioned ++ others)) :
    (p.define body).2.Balanced (helperName (p.define body).1 :: others) := by
  rw [Program.define]
  cases found : p.helperIndex? body.render with
  | some k => exact balanced.shared found
  | none => exact balanced.concat

/-- A step that turns what was to be mentioned before into what its result mentions. -/
def Turns {α : Type} (before : List String) (step : Program → α × Program)
    (after : α → List String) : Prop :=
  ∀ (p : Program) (others : List String), p.Balanced (before ++ others) →
    (step p).2.Balanced (after (step p).1 ++ others)

section Steps

variable {α β : Type} {before between beside : List String} {after : α → List String}
  {step : Program → α × Program}

theorem turns_pure (a : α) (same : ∀ name, name ∈ before ↔ name ∈ after a) :
    Turns before (fun p => (a, p)) after :=
  fun _ _ balanced => balanced.congr fun name => by simp only [List.mem_append, same]

theorem Turns.bind {last : β → List String} {next : α → Program → β × Program}
    (first : Turns before step after) (then_ : ∀ a, Turns (after a) (next a) last) :
    Turns before (fun p => next (step p).1 (step p).2) last :=
  fun p others balanced => then_ _ _ others (first p others balanced)

/-- What stands beside is left as it is. -/
theorem Turns.frame (turns : Turns before step after) (beside : List String) :
    Turns (beside ++ before) step fun a => beside ++ after a := by
  intro p others balanced
  have held : p.Balanced (before ++ (beside ++ others)) :=
    balanced.congr fun name => by simp only [List.mem_append]; tauto
  exact (turns p (beside ++ others) held).congr fun name => by
    simp only [List.mem_append]
    tauto

theorem Turns.adding (turns : Turns [] step after) (beside : List String) :
    Turns beside step fun a => beside ++ after a := by
  have framed := turns.frame beside
  rwa [List.append_nil] at framed

theorem turns_import (path name : String) (home : Entries.get? name runtime = some path) :
    Turns before (fun p => ((), p.importing path name)) fun _ => name :: before :=
  fun _ _ balanced => balanced.importing home

theorem turns_importing (a : α) (home : Entries.get? name runtime = some path)
    (same : ∀ other, other ∈ name :: before ↔ other ∈ after a) :
    Turns before (fun p => (a, p.importing path name)) after :=
  (turns_import path name home).bind fun _ => turns_pure a same

theorem turns_helper {body : Body} (same : ∀ name, name ∈ before ↔ name ∈ body.mentioned) :
    Turns before (fun p => (Code.helper (p.define body).1, (p.define body).2)) Code.mentioned := by
  intro p others balanced
  have held : p.Balanced (body.mentioned ++ others) :=
    balanced.congr fun name => by simp only [List.mem_append, same]
  exact held.define

end Steps

private theorem turns_calling (r : Routine) {before : List String} {after : Code → List String}
    (same : ∀ name, name ∈ r.name :: before ↔ name ∈ after (.routine r)) :
    Turns before (fun p => p.calling r) after :=
  have home : Entries.get? r.name runtime = some r.path := by cases r <;> rfl
  turns_importing (Code.routine r) home same

theorem turns_leafWriter (options : WriteOptions) (l : Leaf) :
    Turns [] (fun p => p.leafWriter options l) Code.mentioned := by
  cases l with
  | bool | string | int | u32 | i32 | json =>
    exact turns_pure _ (by simp [Code.mentioned])
  | bigint | u64 | i64 => exact turns_importing _ rfl (by simp [Code.mentioned])
  | number =>
    simp only [leafWriter]
    split
    · exact turns_pure _ (by simp [Code.mentioned])
    · exact turns_calling _ (by simp [Code.mentioned, Routine.name])
  | date =>
    simp only [leafWriter]
    split
    · exact turns_pure _ (by simp [Code.mentioned])
    · exact (turns_import rootPath "Value" rfl).bind fun _ =>
        turns_importing _ rfl (by simp [Code.mentioned, or_comm])
  | temporal kind =>
    simp only [leafWriter]
    split
    · exact turns_pure _ (by simp [Code.mentioned])
    · exact (turns_import rootPath "Value" rfl).bind fun _ =>
        turns_importing _ rfl (by simp [Code.mentioned, or_comm])

theorem mentioned_of_isIdentity {code : Code} (same : code.isIdentity = true) :
    code.mentioned = [] := by
  rw [Code.eq_identity same, Code.mentioned]

theorem turns_optional (code : Code) :
    Turns code.mentioned (fun p => p.optional code) Code.mentioned := by
  simp only [optional]
  split
  · next same => exact turns_pure _ (by simp [Code.mentioned, mentioned_of_isIdentity same])
  · exact turns_importing _ rfl (by simp [Code.mentioned])

theorem turns_eachWriter (sparing : Bool) (code : Code) :
    Turns code.mentioned (fun p => p.eachWriter sparing code) Code.mentioned := by
  simp only [eachWriter]
  split
  · next same => exact turns_pure _ (by simp [Code.mentioned, mentioned_of_isIdentity same])
  · cases sparing with
    | true => exact turns_importing _ rfl (by simp [Code.mentioned])
    | false => exact turns_importing _ rfl (by simp [Code.mentioned])

theorem turns_positionsWriter (codes : List Code) :
    Turns (codes.flatMap Code.mentioned) (fun p => p.positionsWriter codes) Code.mentioned := by
  simp only [positionsWriter]
  split
  · next same =>
    refine turns_pure _ fun name => ?_
    have none : ∀ code ∈ codes, name ∉ code.mentioned := fun code member => by
      simp [mentioned_of_isIdentity (List.all_eq_true.mp same code member)]
    simpa [Code.mentioned] using none
  · refine (turns_import rootPath "Value" rfl).bind fun _ => turns_importing _ rfl ?_
    simp [Code.mentioned, Code.mentionedAll_eq_flatMap]

def fieldsMention (fields : List (String × Code)) : List String :=
  fields.flatMap fun field => field.2.mentioned

-- Properties that are left alone mention nothing, so leaving them out loses nothing.
private theorem mem_fieldsMention_filter (fields : List (String × Code)) (name : String) :
    name ∈ fieldsMention (fields.filter fun field => !field.2.isIdentity) ↔
      name ∈ fieldsMention fields := by
  simp only [fieldsMention, List.mem_flatMap, List.mem_filter]
  refine ⟨fun ⟨field, inside, mentioned⟩ => ⟨field, inside.1, mentioned⟩,
    fun ⟨field, inside, mentioned⟩ => ⟨field, ⟨inside, ?_⟩, mentioned⟩⟩
  cases same : field.2.isIdentity with
  | true => simp [mentioned_of_isIdentity same] at mentioned
  | false => rfl

private theorem mem_flatMap_cons {fields : List (String × Code)} (some : fields ≠ [])
    (first name : String) :
    name ∈ (fields.flatMap fun field => first :: field.2.mentioned) ↔
      name = first ∨ name ∈ fieldsMention fields := by
  obtain ⟨field, rest, rfl⟩ := List.exists_cons_of_ne_nil some
  simp only [fieldsMention, List.mem_flatMap, List.mem_cons]
  constructor
  · rintro ⟨field, inside, rfl | mentioned⟩
    · exact Or.inl rfl
    · exact Or.inr ⟨field, inside, mentioned⟩
  · rintro (rfl | ⟨field, inside, mentioned⟩)
    · exact ⟨field, Or.inl rfl, Or.inl rfl⟩
    · exact ⟨field, inside, Or.inr mentioned⟩

theorem turns_objectWriter (sparing : Bool) (fields : List (String × Code)) :
    Turns (fieldsMention fields) (fun p => p.objectWriter sparing fields) Code.mentioned := by
  have kept := mem_fieldsMention_filter fields
  simp only [objectWriter]
  split
  · next none =>
    rw [List.isEmpty_iff.mp none] at kept
    exact turns_pure _ fun name =>
      (kept name).symm.trans (by simp [fieldsMention, Code.mentioned])
  · next some =>
    have full : (fields.filter fun field => !field.2.isIdentity) ≠ [] := by simpa using some
    split
    · refine (turns_import cowPath "set_cow_property" rfl).bind fun _ =>
        (turns_import cowPath "finish_cow" rfl).bind fun _ => turns_helper fun name => ?_
      simp only [Body.mentioned, List.mem_append, mem_flatMap_cons full, kept, List.mem_cons,
        List.not_mem_nil, or_false]
      tauto
    · refine (turns_import rootPath "Value" rfl).bind fun _ =>
        (turns_import accessPath "shallow_copy" rfl).bind fun _ =>
          (turns_import accessPath "map_field" rfl).bind fun _ => turns_helper fun name => ?_
      simp only [Body.mentioned, List.mem_append, mem_flatMap_cons full, kept, List.mem_cons,
        List.not_mem_nil, or_false]
      tauto

def carried : Arm → List String
  | .keep => []
  | .whole code | .payload code => code.mentioned

theorem carried_armOf (spread : Bool) (code : Code) :
    carried (armOf spread code) = code.mentioned := by
  rw [armOf]
  split
  · next same => rw [mentioned_of_isIdentity same, carried]
  · cases spread <;> rfl

def armsCarry (arms : List (String × Arm)) : List String :=
  arms.flatMap fun arm => carried arm.2

def armsMention (arms : List (String × Arm)) : List String :=
  arms.flatMap fun arm => arm.2.mentioned

theorem turns_importingArms (arms : List (String × Arm)) :
    Turns (armsCarry arms) (fun p => ((), importingArms arms p)) fun _ => armsMention arms := by
  induction arms with
  | nil => exact turns_pure () (by simp [armsCarry, armsMention])
  | cons arm rest ih =>
    obtain ⟨kind, arm⟩ := arm
    cases arm with
    | keep => exact ih
    | whole code => exact ih.frame code.mentioned
    | payload code =>
      exact (turns_import accessPath "map_payload" rfl).bind fun _ =>
        ih.frame ("map_payload" :: code.mentioned)

theorem turns_choiceWriter (lenient : Bool) (arms : List (String × Arm)) :
    Turns (armsCarry arms) (fun p => p.choiceWriter lenient arms) Code.mentioned := by
  simp only [choiceWriter]
  split
  · next idle =>
    refine turns_pure _ fun name => ?_
    have none : ∀ arm ∈ arms, carried arm.2 = [] := by
      intro arm member
      have keeps := List.all_eq_true.mp idle arm member
      cases kind : arm.2 with
      | keep => rfl
      | _ => simp [kind] at keeps
    simp only [armsCarry, Code.mentioned, List.mem_flatMap, List.not_mem_nil, iff_false]
    rintro ⟨arm, member, inside⟩
    simp [none arm member] at inside
  · have error : Turns ("discriminant" :: armsMention arms)
        (fun p => ((), p.importing rootPath (if lenient then "Value" else "Error")))
        fun _ => (if lenient then "Value" else "Error") :: "discriminant" :: armsMention arms := by
      cases lenient with
      | true => exact turns_import rootPath "Value" rfl
      | false => exact turns_import rootPath "Error" rfl
    refine (turns_import accessPath "discriminant" rfl).bind fun _ =>
      ((turns_importingArms arms).frame ["discriminant"]).bind fun _ =>
        error.bind fun _ => turns_helper fun name => ?_
    simp only [Body.mentioned, armsMention, List.mem_append, List.mem_cons, List.not_mem_nil,
      or_false]
    tauto

section Writer

variable {options : WriteOptions}

private theorem turns_elemWriters {elems : List Schema}
    (each : ∀ elem ∈ elems, Turns [] (fun p => p.writer options elem) Code.mentioned) :
    Turns [] (fun p => elemWriters options elems p)
      fun codes => codes.flatMap Code.mentioned := by
  induction elems with
  | nil => exact turns_pure _ (by simp)
  | cons elem rest ih =>
    have first := each elem List.mem_cons_self
    have others := ih fun elem member => each elem (List.mem_cons_of_mem _ member)
    exact first.bind fun code => (others.adding code.mentioned).bind fun codes =>
      turns_pure (code :: codes) (by simp)

private theorem turns_fieldWriters {fields : List (String × Schema)}
    (each : ∀ key field, (key, field) ∈ fields →
      Turns [] (fun p => p.writer options field) Code.mentioned) :
    Turns [] (fun p => fieldWriters options fields p) fieldsMention := by
  induction fields with
  | nil => exact turns_pure _ (by simp [fieldsMention])
  | cons field rest ih =>
    obtain ⟨key, field⟩ := field
    have first := each key field List.mem_cons_self
    have others := ih fun key field member => each key field (List.mem_cons_of_mem _ member)
    exact first.bind fun code => (others.adding code.mentioned).bind fun codes =>
      turns_pure ((key, code) :: codes) (by simp [fieldsMention])

private theorem turns_variantWriters {variants : List (String × Option Schema)}
    (each : ∀ kind payload, (kind, some payload) ∈ variants →
      Turns [] (fun p => p.writer options payload) Code.mentioned) :
    Turns [] (fun p => variantWriters options variants p) armsCarry := by
  induction variants with
  | nil => exact turns_pure _ (by simp [armsCarry])
  | cons variant rest ih =>
    obtain ⟨kind, payload⟩ := variant
    have others := ih fun kind payload member => each kind payload (List.mem_cons_of_mem _ member)
    cases payload with
    | none =>
      refine others.bind fun arms => turns_pure ((kind, .keep) :: arms) fun name => ?_
      simp [armsCarry, carried]
    | some payload =>
      have first := each kind payload List.mem_cons_self
      exact first.bind fun code => (others.adding code.mentioned).bind fun arms =>
        turns_pure ((kind, armOf (payload.kind = .object) code) :: arms)
          (by simp [armsCarry, carried_armOf])

/-- Writing code for a schema keeps a program in balance with the code beside it. -/
theorem turns_writer (options : WriteOptions) (schema : Schema) :
    Turns [] (fun p => p.writer options schema) Code.mentioned := by
  induction schema using Schema.byParts with
  | leaf l => exact turns_leafWriter options l
  | option inner ih => exact ih.bind turns_optional
  | array item ih => exact ih.bind (turns_eachWriter _)
  | tuple elems ih => exact (turns_elemWriters ih).bind turns_positionsWriter
  | object fields ih => exact (turns_fieldWriters ih).bind (turns_objectWriter _)
  | choice variants ih => exact (turns_variantWriters ih).bind (turns_choiceWriter _)

end Writer

theorem turns_leafReader (l : Leaf) : Turns [] (fun p => p.leafReader l) Code.mentioned := by
  cases l with
  | json => exact turns_pure _ (by simp [Code.mentioned])
  | temporal kind =>
    exact (turns_import rootPath "TemporalKind" rfl).bind fun _ =>
      turns_importing _ rfl (by simp [Code.mentioned])
  | _ => exact turns_calling _ (by simp [Code.mentioned])

theorem turns_eachReader (code : Code) :
    Turns code.mentioned (fun p => p.eachReader code) Code.mentioned := by
  simp only [eachReader, calling]
  split
  · next same =>
    exact turns_importing _ rfl (by simp [Code.mentioned, mentioned_of_isIdentity same])
  · exact (turns_import jsonPath "parse_array" rfl).bind fun _ =>
      turns_importing _ rfl (by simp [Code.mentioned])

theorem turns_positionsReader (codes : List Code) :
    Turns (codes.flatMap Code.mentioned) (fun p => p.positionsReader codes) Code.mentioned := by
  refine (turns_import rootPath "Value" rfl).bind fun _ => turns_importing _ rfl ?_
  simp [Code.mentioned, Code.mentionedAll_eq_flatMap]

private theorem balanced_elemReaders {elems : List Schema}
    (each : ∀ elem ∈ elems, ∀ {p q : Program} {code : Code} {others : List String},
      p.reader elem = (.ok code, q) → p.Balanced others → q.Balanced (code.mentioned ++ others))
    {p q : Program} {codes : List Code} {others : List String}
    (made : elemReaders elems p = (.ok codes, q)) (balanced : p.Balanced others) :
    q.Balanced (codes.flatMap Code.mentioned ++ others) := by
  induction elems generalizing p q codes others with
  | nil =>
    obtain ⟨rfl, rfl⟩ : codes = [] ∧ q = p := by
      simpa [elemReaders, eq_comm] using made
    exact balanced
  | cons elem rest ih =>
    rw [elemReaders] at made
    split at made
    · next code r here =>
      split at made
      · next more last there =>
        obtain ⟨rfl, rfl⟩ : code :: more = codes ∧ last = q := by simpa using made
        have first := each elem List.mem_cons_self here balanced
        have second := ih (fun elem member => each elem (List.mem_cons_of_mem _ member)) there first
        exact second.congr fun name => by
          simp only [List.flatMap_cons, List.mem_append]
          tauto
      · simp at made
    · simp at made

theorem balanced_reader {schema : Schema} {p q : Program} {code : Code} {others : List String}
    (made : p.reader schema = (.ok code, q)) (balanced : p.Balanced others) :
    q.Balanced (code.mentioned ++ others) := by
  induction schema using Schema.byParts generalizing p q code others with
  | leaf l =>
    rw [reader] at made
    obtain ⟨rfl, rfl⟩ : (p.leafReader l).1 = code ∧ (p.leafReader l).2 = q := by simpa using made
    exact turns_leafReader l p others balanced
  | option inner ih =>
    rw [reader] at made
    split at made
    · next part r here =>
      obtain ⟨rfl, rfl⟩ : (r.optional part).1 = code ∧ (r.optional part).2 = q := by
        simpa using made
      exact turns_optional part r others (ih here balanced)
    · simp at made
  | array item ih =>
    rw [reader] at made
    split at made
    · next part r here =>
      obtain ⟨rfl, rfl⟩ : (r.eachReader part).1 = code ∧ (r.eachReader part).2 = q := by
        simpa using made
      exact turns_eachReader part r others (ih here balanced)
    · simp at made
  | tuple elems ih =>
    rw [reader] at made
    split at made
    · next parts r here =>
      obtain ⟨rfl, rfl⟩ : (r.positionsReader parts).1 = code ∧ (r.positionsReader parts).2 = q := by
        simpa using made
      exact turns_positionsReader parts r others
        (balanced_elemReaders (fun elem member => ih elem member) here balanced)
    · simp at made
  | object fields _ => simp [reader] at made
  | choice variants _ => simp [reader] at made

end Program

end WireSchema.Generated
