import WireSchema.Generated.Module
import WireSchema.Proofs.Generated.Balance

/-!
Generated modules are closed, and nothing in them is superfluous.
-/

set_option autoImplicit false

namespace WireSchema.Generated

open WireSchema.Text

structure Function where
  name : String
  body : String

structure ModuleText where
  imports : List (String × List String)
  helpers : List Function
  offered : Function

namespace Function

def text (f : Function) : String :=
  "fn " ++ f.name ++ functionText f.body

def mentions (f : Function) : List String :=
  Generated.mentions (functionText f.body)

end Function

namespace ModuleText

def text (m : ModuleText) : String :=
  String.join (m.imports.map Program.importLine) ++ (if m.imports.isEmpty then "" else "\n") ++
    String.join (m.helpers.map fun f => f.text ++ "\n") ++ "pub " ++ m.offered.text

def imported (m : ModuleText) : List String :=
  m.imports.flatMap Prod.snd

def functions (m : ModuleText) : List Function :=
  m.helpers ++ [m.offered]

/-- What a module mentions is what it imports and defines. -/
structure Closed (m : ModuleText) : Prop where
  once : m.imported.Nodup
  numbered : m.helpers.map Function.name = (List.range m.helpers.length).map helperName
  /-- A name that is mentioned and not that of a helper is imported. -/
  known : ∀ f ∈ m.functions, ∀ name ∈ f.mentions, (∀ k, name ≠ helperName k) → name ∈ m.imported
  /-- A helper that is mentioned comes before the function that mentions it. -/
  backward : ∀ i f, m.functions[i]? = some f → ∀ k, helperName k ∈ f.mentions → k < i
  used : ∀ name ∈ m.imported, ∃ f ∈ m.functions, name ∈ f.mentions
  called : ∀ k < m.helpers.length,
    ∃ i f, k < i ∧ m.functions[i]? = some f ∧ helperName k ∈ f.mentions
  apart : ∀ name ∈ m.imported, ∀ k, name ≠ helperName k
  fresh : m.offered.name ∉ m.imported ∧ ∀ k, m.offered.name ≠ helperName k

end ModuleText

namespace Program

def moduleText (name : String) (code : Code) (p : Program) : ModuleText where
  imports := p.imports
  helpers := p.helpers.mapIdx fun i body => ⟨helperName i, body.render⟩
  offered := ⟨name, "Ok(" ++ code.applied "input" ++ ")"⟩

variable {p : Program} {name : String} {code : Code}

private theorem helperText_eq (index : Nat) (body : Body) :
    helperText index body = Function.text ⟨helperName index, body.render⟩ ++ "\n" := by
  rw [helperText, Function.text, functionText, ← String.toList_inj]
  simp

private theorem helperTexts_eq (index : Nat) (bodies : List Body) :
    helperTexts index bodies =
      bodies.mapIdx fun i body => helperText (index + i) body := by
  induction bodies generalizing index with
  | nil => rfl
  | cons body rest ih =>
    rw [helperTexts, ih, List.mapIdx_cons]
    simp [Nat.add_assoc, Nat.add_comm 1]

theorem text_moduleText (name : String) (code : Code) (p : Program) :
    (p.moduleText name code).text = p.render ++ exported name code := by
  have helpers : (p.helpers.mapIdx fun i body =>
      Function.mk (helperName i) body.render).map (fun f => f.text ++ "\n") =
        helperTexts 0 p.helpers := by
    rw [helperTexts_eq]
    exact List.ext_getElem (by simp) fun i _ _ => by simp [helperText_eq]
  rw [ModuleText.text, moduleText, helpers, render, exported, Function.text, functionText,
    ← String.toList_inj]
  simp

private theorem functions_moduleText {i : Nat} {f : Function} :
    (p.moduleText name code).functions[i]? = some f ↔
      (∃ body, p.helpers[i]? = some body ∧ f = ⟨helperName i, body.render⟩) ∨
        i = p.helpers.length ∧ f = (p.moduleText name code).offered := by
  simp only [ModuleText.functions, moduleText, List.getElem?_append, List.length_mapIdx,
    List.getElem?_mapIdx, List.getElem?_singleton]
  by_cases before : i < p.helpers.length
  · simp [before, show i ≠ p.helpers.length by omega, eq_comm]
  · simp [before, show i - p.helpers.length = 0 ↔ i = p.helpers.length by omega, eq_comm]

private theorem mentions_moduleText {i : Nat} {other : String} :
    (∃ f, (p.moduleText name code).functions[i]? = some f ∧ other ∈ f.mentions) ↔
      p.Mentions code.mentioned i other := by
  have helper : ∀ body : Body, Function.mentions ⟨helperName i, body.render⟩ = body.mentioned :=
    mentions_helper
  have offered : (p.moduleText name code).offered.mentions = code.mentioned :=
    mentions_offered code
  simp only [functions_moduleText]
  constructor
  · rintro ⟨f, ⟨body, here, rfl⟩ | ⟨last, rfl⟩, member⟩
    · exact Or.inl ⟨body, here, helper body ▸ member⟩
    · exact Or.inr ⟨last, offered ▸ member⟩
  · rintro (⟨body, here, member⟩ | ⟨last, member⟩)
    · exact ⟨_, Or.inl ⟨body, here, rfl⟩, (helper body).symm ▸ member⟩
    · exact ⟨_, Or.inr ⟨last, rfl⟩, offered.symm ▸ member⟩

/-- The module of a balanced program is closed, whatever new name it offers its function under. -/
theorem Balanced.closed (balanced : p.Balanced code.mentioned)
    (unknown : Entries.get? name runtime = none) (other : numbered name = false) :
    (p.moduleText name code).Closed where
  once := balanced.homed.nodup
  numbered := by
    refine List.ext_getElem (by simp [moduleText]) fun i _ _ => ?_
    simp [moduleText]
  known := by
    intro f member mentioned inside foreign
    obtain ⟨i, here⟩ := List.mem_iff_getElem?.mp member
    rcases balanced.known i mentioned (mentions_moduleText.mp ⟨f, here, inside⟩) with
      imported | ⟨k, -, same⟩
    · exact imported
    · exact absurd same (foreign k)
  backward := fun i f here k inside => balanced.backward (mentions_moduleText.mp ⟨f, here, inside⟩)
  used := by
    intro imported member
    obtain ⟨i, mentions⟩ := balanced.used imported member
    obtain ⟨f, here, inside⟩ := (@mentions_moduleText p name code i imported).mpr mentions
    exact ⟨f, List.mem_of_getElem? here, inside⟩
  called := by
    intro k within
    obtain ⟨i, before, mentions⟩ := balanced.called k (by simpa [moduleText] using within)
    obtain ⟨f, here, inside⟩ := mentions_moduleText.mpr mentions
    exact ⟨i, f, before, here, inside⟩
  apart := fun imported member => balanced.apart member
  fresh := by
    refine ⟨fun member => ?_, ne_helperName other⟩
    obtain ⟨path, home⟩ := balanced.homed.home member
    exact absurd (unknown.symm.trans home) (by simp)

end Program

private def offeredStarts : List String :=
  ["serialize_fast_", "deserialize_"]

private theorem offered_not_imported {start : String} (offered : start ∈ offeredStarts)
    (name : String) : Entries.get? (start ++ name) runtime = none := by
  have apart : ∀ start ∈ offeredStarts, ∀ entry ∈ runtime,
      start.toList.isPrefixOf entry.1.toList = false := by decide
  cases found : Entries.get? (start ++ name) runtime with
  | none => rfl
  | some path =>
    have other := apart start offered _ (Entries.mem_of_get? found)
    simp [List.isPrefixOf_iff_prefix.mpr] at other

private theorem offered_not_numbered {start : String} (offered : start ∈ offeredStarts)
    (name : String) : numbered (start ++ name) = false := by
  obtain rfl | rfl : start = "serialize_fast_" ∨ start = "deserialize_" := by
    simpa [offeredStarts] using offered
  · simp [numbered]
  · simp [numbered]

private theorem Program.Balanced.closed_offered {p : Program} {code : Code}
    (balanced : p.Balanced code.mentioned) {start : String} (offered : start ∈ offeredStarts)
    (name : String) : (p.moduleText (start ++ name) code).Closed :=
  balanced.closed (offered_not_imported offered name) (offered_not_numbered offered name)

/-- The module for a schema mentions what it imports and defines and nothing else, and imports and
defines nothing that it does not mention; so does the module that reads, where there is one. -/
theorem modules_closed {name : String} (valid : isName name.toList = true) (schema : Schema)
    (options : WriteOptions) :
    let written := Program.empty.writer options schema
    let serializer := written.2.moduleText ("serialize_fast_" ++ name) written.1
    (serializerModule name schema options = .ok serializer.text ∧ serializer.Closed) ∧
      ∀ text, deserializerModule name schema = .ok text →
        ∃ code program, Program.empty.reader schema = (.ok code, program) ∧
          let deserializer := program.moduleText ("deserialize_" ++ name) code
          text = deserializer.text ∧ deserializer.Closed := by
  intro written serializer
  have passes : checkName name = .ok () := by rw [checkName, if_pos valid]
  refine ⟨⟨?_, ?_⟩, fun text made => ?_⟩
  · rw [serializerModule, passes, Program.text_moduleText]
    rfl
  · have balanced := Program.turns_writer options schema .empty [] Program.balanced_empty
    rw [List.append_nil] at balanced
    exact balanced.closed_offered (by decide) name
  · rcases read : Program.empty.reader schema with ⟨_ | code, program⟩
    · simp only [deserializerModule, passes, read] at made
      cases made
    · simp only [deserializerModule, passes, read] at made
      have same : program.render ++ Program.exported ("deserialize_" ++ name) code = text :=
        Except.ok.inj made
      have balanced := Program.balanced_reader read Program.balanced_empty
      rw [List.append_nil] at balanced
      refine ⟨code, program, rfl, ?_, balanced.closed_offered (by decide) name⟩
      rw [Program.text_moduleText, same]

/-- An object that holds a choice takes two helpers; a pair of a number and an optional date can be
read. -/
theorem modules_closed_nested :
    let nested : Schema := .object [("id", .leaf .bigint),
      ("event", .choice [("at", some (.leaf .date)), ("never", none)])]
    let pair : Schema := .tuple [.leaf .number, .option (.leaf .date)]
    let written := Program.empty.writer .off nested
    let serializer := written.2.moduleText "serialize_fast_it" written.1
    isName "it".toList = true ∧
      (serializer.helpers.length = 2 ∧
        serializerModule "it" nested .off = .ok serializer.text ∧ serializer.Closed) ∧
        ∃ text, deserializerModule "it" pair = .ok text ∧
          ∃ code program, Program.empty.reader pair = (.ok code, program) ∧
            let deserializer := program.moduleText "deserialize_it" code
            text = deserializer.text ∧ deserializer.Closed := by
  intro nested pair written serializer
  have valid : isName "it".toList = true := by decide
  obtain ⟨text, made⟩ : ∃ text, deserializerModule "it" pair = .ok text := ⟨_, rfl⟩
  obtain ⟨writes, -⟩ := modules_closed valid nested .off
  obtain ⟨-, reads⟩ := modules_closed valid pair .off
  exact ⟨valid, ⟨rfl, writes⟩, text, made, reads text made⟩

end WireSchema.Generated
