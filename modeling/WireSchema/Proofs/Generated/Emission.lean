import WireSchema.Generated.Serializer
import WireSchema.Proofs.Generated.Dispatch
import WireSchema.Proofs.Generated.Properties
import WireSchema.Proofs.Generated.Sharing

/-!
What is generated for a schema tracks the interpreter in every program that a compiler can have
built up before, and goes on doing so while the program grows.
-/

set_option autoImplicit false

namespace WireSchema.Generated

open WireSchema.Convert (convertEach convertProperties placedFields)

variable {options : WriteOptions} {p q : Program}

structure Spells (options : WriteOptions) (program : Program) (schema : Schema) (code : Code) :
    Prop where
  writes : code.Writes program.helpers.length
  idle : code.isIdentity = schema.idle options
  tracks : Tracks options schema (program.run code)

structure Grows (p q : Program) : Prop where
  sound : q.Sound
  helpers : p.helpers <+: q.helpers

structure Emits (options : WriteOptions) (schema : Schema) (program : Program)
    (made : Code × Program) : Prop where
  grows : Grows program made.2
  spells : Spells options made.2 schema made.1

theorem Grows.trans {r : Program} (first : Grows p q) (second : Grows q r) : Grows p r :=
  ⟨second.sound, first.helpers.trans second.helpers⟩

theorem Program.Sound.grows_of_helpers (sound : p.Sound) (same : q.helpers = p.helpers) :
    Grows p q :=
  ⟨fun i body here => sound i body (same ▸ here), same ▸ List.prefix_rfl⟩

theorem Spells.mono {schema : Schema} {code : Code} (spells : Spells options p schema code)
    (grown : p.helpers <+: q.helpers) : Spells options q schema code where
  writes := spells.writes.mono grown.length_le
  idle := spells.idle
  tracks := by
    rw [Program.run_of_prefix grown spells.writes]
    exact spells.tracks

theorem spells_identity {schema : Schema} (idle : schema.idle options = true) :
    Spells options p schema .identity where
  writes := .identity
  idle := idle.symm
  tracks := by
    rw [Program.run, Code.run]
    exact tracks_identity idle

-- A leaf that may pass is converted by an expression of its own unless it does.
private theorem emits_unless (sound : p.Sound) {l : Leaf} {passed : Bool} {code : Code}
    (helpers : q.helpers = p.helpers) (writes : code.Writes q.helpers.length)
    (other : code.isIdentity = false) (converts : l.converts options = !passed)
    (run : passed = false → ∀ fresh v, q.run code fresh v = l.write options v) :
    Emits options (.leaf l) p (if passed then (.identity, p) else (code, q)) := by
  cases passed with
  | true => exact ⟨sound.grows_of_helpers rfl, spells_identity (by rw [Schema.idle, converts]; rfl)⟩
  | false =>
    refine ⟨sound.grows_of_helpers helpers, writes, by rw [Schema.idle, converts]; exact other, ?_⟩
    have same : q.run code = fun _ v => l.write options v :=
      funext fun fresh => funext (run rfl fresh)
    rw [if_neg (by simp), same]
    exact tracks_leaf l

theorem emits_leaf (sound : p.Sound) (l : Leaf) :
    Emits options (.leaf l) p (p.leafWriter options l) := by
  cases l with
  | bool | string | int | u32 | i32 | json =>
    exact ⟨sound.grows_of_helpers rfl, spells_identity rfl⟩
  | bigint | u64 | i64 =>
    refine @emits_unless _ _ _ sound _ false _ rfl .bigintText rfl rfl fun _ _ _ => ?_
    rfl
  | number =>
    refine emits_unless sound rfl .number rfl rfl fun changed _ _ => ?_
    rw [Leaf.write, if_neg (by simp [changed])]
    rfl
  | date =>
    refine emits_unless sound rfl .dateText rfl rfl fun changed _ _ => ?_
    rw [Leaf.write, if_neg (by simp [changed])]
    rfl
  | temporal kind =>
    refine emits_unless sound rfl (.temporalText kind) rfl rfl fun changed _ _ => ?_
    rw [Leaf.write, if_neg (by simp [changed])]
    rfl

theorem emits_optional (sound : p.Sound) {inner : Schema} {code : Code}
    (part : Spells options p inner code) : Emits options (.option inner) p (p.optional code) := by
  rw [Program.optional]
  cases identity : code.isIdentity with
  | true => exact ⟨sound.grows_of_helpers rfl, spells_identity (part.idle ▸ identity)⟩
  | false =>
    refine ⟨sound.grows_of_helpers rfl, .whenPresent part.writes, ?_, ?_⟩
    · rw [Schema.idle, ← part.idle, identity]
      rfl
    · exact tracks_option part.tracks

theorem emits_each (sound : p.Sound) {item : Schema} {code : Code}
    (part : Spells options p item code) :
    Emits options (.array item) p (p.eachWriter (options.cow && !item.alwaysCopies) code) := by
  rw [Program.eachWriter]
  cases identity : code.isIdentity with
  | true => exact ⟨sound.grows_of_helpers rfl, spells_identity (part.idle ▸ identity)⟩
  | false =>
    have busy : item.idle options = false := part.idle ▸ identity
    refine ⟨sound.grows_of_helpers rfl, .each _ part.writes, ?_, ?_⟩
    · rw [Schema.idle, busy]
      rfl
    · cases sparing : (options.cow && !item.alwaysCopies) with
      | true => exact tracks_convertEach part.tracks busy sparing
      | false => exact tracks_copyEach part.tracks busy (by simp [Sparing, sparing])

theorem emits_positions (sound : p.Sound) {elems : List Schema} {codes : List Code}
    (parts : List.Forall₂ (Spells options p) elems codes) :
    Emits options (.tuple elems) p (p.positionsWriter codes) := by
  have idle : codes.all Code.isIdentity = (Schema.tuple elems).idle options := by
    rw [Schema.idle]
    induction parts with
    | nil => rfl
    | cons part _ ih => rw [List.all_cons, part.idle, ih, Schema.idleElems]
  rw [Program.positionsWriter]
  cases identity : codes.all Code.isIdentity with
  | true => exact ⟨sound.grows_of_helpers rfl, spells_identity (idle ▸ identity)⟩
  | false =>
    obtain ⟨length, each⟩ := List.forall₂_iff_get.mp parts
    refine ⟨sound.grows_of_helpers rfl, .positions fun code member => ?_, idle ▸ identity.symm, ?_⟩
    · obtain ⟨i, within, rfl⟩ := List.mem_iff_getElem.mp member
      exact (each i (length ▸ within) within).writes
    · show Tracks options _ (p.run (.positions codes))
      rw [Program.run, Code.run, Code.runs_eq_map]
      refine tracks_copyPositions (by simp [length]) (fun j elem c here code => ?_)
        (idle ▸ identity)
      obtain ⟨within, rfl⟩ := List.getElem?_eq_some_iff.mp here
      rw [List.getElem?_map, List.getElem?_eq_getElem (length ▸ within)] at code
      obtain rfl := Option.some.inj code
      exact (each j within (length ▸ within)).tracks

theorem emits_helper (sound : p.Sound) {schema : Schema} {body : Body} (same : q.helpers = p.helpers)
    (writes : body.Writes p.helpers.length) (busy : schema.idle options = false)
    (tracks : ∀ r : Program, p.helpers <+: r.helpers →
      Tracks options schema (body.run (lookup (helperRuns r.helpers)))) :
    Emits options schema p (.helper (q.define body).1, (q.define body).2) := by
  have sound' : q.Sound := (sound.grows_of_helpers same).sound
  obtain ⟨sound'', grown, here⟩ := sound'.define (same ▸ writes)
  rw [same] at grown
  refine ⟨⟨sound'', grown⟩, ?_, busy.symm, ?_⟩
  · exact .helper (List.getElem?_eq_some_iff.mp here).1
  · rw [sound''.run_helper here]
    exact tracks _ grown

section Fields

variable {fields : List (String × Schema)} {codes : List (String × Code)}
  (parts : Entries.Matched (Spells options p) fields codes)

def changed (codes : List (String × Code)) : List (String × Code) :=
  codes.filter fun field => !field.2.isIdentity

def changedRuns (program : Program) (codes : List (String × Code)) :
    List (String × Conversion Fault) :=
  Entries.mapValues (fun _ code => program.run code) (changed codes)

include parts in
theorem covers_changed (distinct : Entries.Distinct fields) : Covers options fields (changedRuns p codes) := by
  have unique : Entries.Distinct codes := by
    rwa [Entries.Distinct, parts.names_eq]
  have runs : Entries.Distinct (changedRuns p codes) := (unique.filter _).mapValues _
  refine ⟨runs, ?_, ?_, ?_⟩
  · intro key c member
    obtain ⟨code, there, rfl⟩ := Entries.mem_mapValues.mp member
    obtain ⟨field, declared, spells⟩ := parts.exists_left (List.mem_filter.mp there).1
    exact ⟨field, declared, spells.tracks⟩
  · intro key field member idle
    cases found : Entries.get? key (changedRuns p codes) with
    | none => rfl
    | some c =>
      obtain ⟨code, there, rfl⟩ := Entries.mem_mapValues.mp (Entries.mem_of_get? found)
      obtain ⟨there, busy⟩ := List.mem_filter.mp there
      obtain ⟨field', member', spells⟩ := parts.exists_left there
      obtain rfl : field = field' := Option.some.inj
        ((Entries.get?_of_mem distinct member).symm.trans (Entries.get?_of_mem distinct member'))
      simp [spells.idle, idle] at busy
  · intro key field member busy
    obtain ⟨code, there, spells⟩ := parts.exists_right member
    refine ⟨p.run code, Entries.get?_of_mem runs (Entries.mem_mapValues.mpr ⟨code, ?_, rfl⟩),
      spells.tracks⟩
    exact List.mem_filter.mpr ⟨there, by simp [spells.idle, busy]⟩

theorem changed_isEmpty {fields : List (String × Schema)} {codes : List (String × Code)}
    (alike : Entries.Matched (fun field code => code.isIdentity = field.idle options) fields codes) :
    (changed codes).isEmpty = (Schema.object fields).idle options := by
  rw [Schema.idle]
  induction alike with
  | nil => rfl
  | @cons field code _ _ first _ ih =>
    rw [Schema.idleFields, ← first.2, ← ih, changed, List.filter_cons]
    cases code.2.isIdentity <;> rfl

private theorem locatedParts_runs (codes : List (String × Code)) (fresh : Origin) :
    placedFields fresh (locatedParts (changedRuns p codes)) =
      fieldRuns (lookup (helperRuns p.helpers)) fresh (changed codes) := by
  rw [fieldRuns_eq, locatedParts, changedRuns, Entries.mapValues_mapValues,
    Convert.placedFields_mapValues]
  rfl

private theorem run_sparing (codes : List (String × Code)) :
    (Body.sparing (changed codes)).run (lookup (helperRuns p.helpers)) =
      convertProperties (locatedParts (changedRuns p codes)) := by
  funext fresh v
  simp only [Body.run, convertProperties, locatedParts_runs, Update.properties]
  cases v <;> rfl

private theorem run_copying (codes : List (String × Code)) :
    (Body.copying (changed codes)).run (lookup (helperRuns p.helpers)) =
      copyProperties (locatedParts (changedRuns p codes)) := by
  funext fresh v
  rw [Body.run, copyProperties, locatedParts_runs]

include parts in
theorem emits_object (sound : p.Sound) :
    Emits options (.object fields) p
      (p.objectWriter (options.cow && !Schema.allFieldsCopy fields) codes) := by
  have idle := changed_isEmpty (parts.imp fun _ _ part => part.idle)
  have writes : ∀ key code, (key, code) ∈ changed codes → code.Writes p.helpers.length := by
    intro key code member
    obtain ⟨field, -, spells⟩ := parts.exists_left (List.mem_filter.mp member).1
    exact spells.writes
  have later : ∀ r : Program, p.helpers <+: r.helpers → Entries.Distinct fields →
      Covers options fields (changedRuns r codes) := fun r grown =>
    covers_changed (parts.imp fun _ _ part => part.mono grown)
  rw [Program.objectWriter]
  change Emits options _ p (if (changed codes).isEmpty then _ else _)
  cases none : (changed codes).isEmpty with
  | true => exact ⟨sound.grows_of_helpers rfl, spells_identity (idle ▸ none)⟩
  | false =>
    have busy : (Schema.object fields).idle options = false := idle ▸ none
    cases sparing : (options.cow && !Schema.allFieldsCopy fields) with
    | true =>
      refine emits_helper sound rfl (.sparing writes) busy fun r grown => ?_
      change Tracks options _ (Body.run _ (.sparing (changed codes)))
      rw [run_sparing]
      exact tracks_sparing (later r grown) busy sparing
    | false =>
      refine emits_helper sound rfl (.copying writes) busy fun r grown => ?_
      change Tracks options _ (Body.run _ (.copying (changed codes)))
      rw [run_copying]
      exact tracks_copying (later r grown) busy (by simp [Sparing, sparing])

end Fields

inductive ArmSpells (options : WriteOptions) (program : Program) : Option Schema → Arm → Prop where
  | bare : ArmSpells options program none .keep
  | payload {payload : Schema} {code : Code} : Spells options program payload code →
      ArmSpells options program (some payload) (Program.armOf payload.isObject code)

theorem ArmSpells.mono {payload : Option Schema} {arm : Arm} (spells : ArmSpells options p payload arm)
    (grown : p.helpers <+: q.helpers) : ArmSpells options q payload arm := by
  cases spells with
  | bare => exact .bare
  | payload part => exact .payload (part.mono grown)

theorem ArmSpells.writes {payload : Option Schema} {arm : Arm}
    (spells : ArmSpells options p payload arm) : arm.Writes p.helpers.length := by
  cases spells with
  | bare => exact .keep
  | @payload payload code part =>
    rw [Program.armOf]
    cases identity : code.isIdentity with
    | true => exact .keep
    | false =>
      cases payload.isObject with
      | true => exact .whole part.writes identity
      | false => exact .payload part.writes

theorem ArmSpells.tracks {payload : Option Schema} {arm : Arm}
    (spells : ArmSpells options p payload arm) :
    ArmTracks options (lookup (helperRuns p.helpers)) payload arm := by
  cases spells with
  | bare => exact .bare
  | @payload payload code part =>
    rw [Program.armOf]
    cases identity : code.isIdentity with
    | true => exact .idle (part.idle ▸ identity)
    | false =>
      cases object : payload.isObject with
      | true =>
        obtain ⟨fields, rfl⟩ := Schema.isObject_eq_true.mp object
        exact .whole part.tracks
      | false => exact .payload object part.tracks

def keeps : Arm → Bool
  | .keep => true
  | _ => false

theorem keeps_armOf (spread : Bool) (code : Code) :
    keeps (Program.armOf spread code) = code.isIdentity := by
  rw [Program.armOf]
  cases code.isIdentity with
  | true => rfl
  | false => cases spread <;> rfl

def KeepsIdle (options : WriteOptions) (payload : Option Schema) (arm : Arm) : Prop :=
  keeps arm = payload.all fun inner => inner.idle options

theorem ArmSpells.keepsIdle {payload : Option Schema} {arm : Arm}
    (spells : ArmSpells options p payload arm) : KeepsIdle options payload arm := by
  cases spells with
  | bare => rfl
  | payload part => exact (keeps_armOf _ _).trans part.idle

theorem all_keeps {variants : List (String × Option Schema)} {arms : List (String × Arm)}
    (alike : Entries.Matched (KeepsIdle options) variants arms) :
    (arms.all fun arm => keeps arm.2) = (Schema.choice variants).idle options := by
  rw [Schema.idle]
  induction alike with
  | nil => rfl
  | @cons variant arm _ _ first _ ih =>
    obtain ⟨kind, payload⟩ := variant
    obtain ⟨-, first⟩ := first
    rw [List.all_cons, ih, first]
    cases payload <;> rfl

section Variants

variable {variants : List (String × Option Schema)} {arms : List (String × Arm)}
  (parts : Entries.Matched (ArmSpells options p) variants arms)

theorem importingArms_helpers (arms : List (String × Arm)) (program : Program) :
    (Program.importingArms arms program).helpers = program.helpers := by
  induction arms generalizing program with
  | nil => rfl
  | cons arm rest ih =>
    obtain ⟨kind, arm⟩ := arm
    cases arm with
    | keep => rw [Program.importingArms, ih]; simp
    | whole code => rw [Program.importingArms, ih]; simp
    | payload code => rw [Program.importingArms, ih, Program.helpers_importing]

include parts in
theorem emits_choice (sound : p.Sound) :
    Emits options (.choice variants) p (p.choiceWriter options.choiceFallthrough arms) := by
  have idle := all_keeps (parts.imp fun _ _ part => part.keepsIdle)
  rw [Program.choiceWriter]
  change Emits options _ p (if (arms.all fun arm => keeps arm.2) then _ else _)
  cases kept : (arms.all fun arm => keeps arm.2) with
  | true => exact ⟨sound.grows_of_helpers rfl, spells_identity (idle ▸ kept)⟩
  | false =>
    refine emits_helper sound ?_ (.dispatch _ fun kind arm member => ?_) (idle ▸ kept)
      fun r grown => tracks_dispatch fun kind => ?_
    · rw [Program.helpers_importing, importingArms_helpers, Program.helpers_importing]
    · obtain ⟨payload, -, spells⟩ := parts.exists_left member
      exact spells.writes
    · exact (parts.imp fun _ _ part => (part.mono grown).tracks).get? kind

end Variants

end WireSchema.Generated
