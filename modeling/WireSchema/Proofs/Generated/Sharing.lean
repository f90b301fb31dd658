import Mathlib.Data.List.Induction
import WireSchema.Generated.Meaning
import WireSchema.Proofs.Entries
import WireSchema.Proofs.Generated.Bodies

/-!
Programs grow at their end only and every helper calls only those before it, so what an expression
does in a program it does in every later one. A helper that is defined again is found again: its
text tells its body.
-/

set_option autoImplicit false

namespace WireSchema.Generated

theorem Code.Writes.mono {m n : Nat} (le : m ≤ n) {code : Code} (writes : code.Writes m) :
    code.Writes n := by
  induction writes with
  | identity => exact .identity
  | helper within => exact .helper (Nat.lt_of_lt_of_le within le)
  | number => exact .number
  | bigintText => exact .bigintText
  | dateText => exact .dateText
  | temporalText kind => exact .temporalText kind
  | whenPresent _ ih => exact .whenPresent ih
  | each sparing _ ih => exact .each sparing ih
  | positions _ ih => exact .positions ih

theorem Arm.Writes.mono {m n : Nat} (le : m ≤ n) {arm : Arm} (writes : arm.Writes m) :
    arm.Writes n := by
  cases writes with
  | keep => exact .keep
  | whole code other => exact .whole (code.mono le) other
  | payload code => exact .payload (code.mono le)

theorem Body.Writes.mono {m n : Nat} (le : m ≤ n) {body : Body} (writes : body.Writes m) :
    body.Writes n := by
  cases writes with
  | copying fields => exact .copying fun key code member => (fields key code member).mono le
  | sparing fields => exact .sparing fun key code member => (fields key code member).mono le
  | dispatch lenient arms => exact .dispatch lenient fun kind arm member => (arms kind arm member).mono le

theorem Code.runs_eq_map (helpers : Nat → Conversion Fault) (codes : List Code) :
    Code.runs helpers codes = codes.map (Code.run helpers) := by
  induction codes with
  | nil => rw [Code.runs, List.map_nil]
  | cons code rest ih => rw [Code.runs, List.map_cons, ih]

theorem fieldRuns_eq (helpers : Nat → Conversion Fault) (fresh : Origin)
    (fields : List (String × Code)) :
    fieldRuns helpers fresh fields = Entries.mapValues
      (fun key code v => located (.key key) (code.run helpers (fresh.enter (.key key)) v)) fields := by
  simp [fieldRuns, Entries.mapValues]

section Calls

variable {bound : Nat} {f g : Nat → Conversion Fault} (agree : ∀ i < bound, f i = g i)

include agree

theorem Code.Writes.run_congr {code : Code} (writes : code.Writes bound) :
    code.run f = code.run g := by
  induction writes with
  | identity => rw [Code.run, Code.run]
  | helper within => rw [Code.run, Code.run, agree _ within]
  | number => rw [Code.run, Code.run]
  | bigintText => rw [Code.run, Code.run]
  | dateText => rw [Code.run, Code.run]
  | temporalText kind => rw [Code.run, Code.run]
  | whenPresent _ ih => rw [Code.run, Code.run, ih]
  | each sparing _ ih => rw [Code.run, Code.run, ih]
  | positions _ ih =>
    rw [Code.run, Code.run, Code.runs_eq_map, Code.runs_eq_map, List.map_congr_left ih]

private theorem fieldRuns_congr {fields : List (String × Code)}
    (writes : ∀ key code, (key, code) ∈ fields → code.Writes bound) (fresh : Origin) :
    fieldRuns f fresh fields = fieldRuns g fresh fields := by
  rw [fieldRuns_eq, fieldRuns_eq]
  refine Entries.mapValues_congr fun key code member => ?_
  rw [(writes key code member).run_congr agree]

theorem Body.Writes.run_congr {body : Body} (writes : body.Writes bound) :
    body.run f = body.run g := by
  cases writes with
  | copying fields =>
    simp only [Body.run, fieldRuns_congr agree fields]
  | sparing fields =>
    simp only [Body.run, fieldRuns_congr agree fields]
  | @dispatch arms lenient writes =>
    funext fresh v
    rw [Body.run, Body.run]
    refine bind_congr fun kind => ?_
    cases found : Entries.get? kind arms with
    | none => rfl
    | some arm =>
      cases writes kind arm (Entries.mem_of_get? found) with
      | keep => rfl
      | whole code _ => dsimp only; rw [code.run_congr agree]
      | payload code => dsimp only; rw [code.run_congr agree]

end Calls

theorem helperRuns_append (helpers : List Body) (body : Body) :
    helperRuns (helpers ++ [body]) =
      helperRuns helpers ++ [body.run (lookup (helperRuns helpers))] := by
  rw [helperRuns, List.foldl_append]
  rfl

@[simp] theorem length_helperRuns (helpers : List Body) :
    (helperRuns helpers).length = helpers.length := by
  induction helpers using List.reverseRecOn with
  | nil => rfl
  | append_singleton helpers body ih => rw [helperRuns_append]; simp [ih]

theorem helperRuns_prefix {helpers later : List Body} (grown : helpers <+: later) :
    helperRuns helpers <+: helperRuns later := by
  obtain ⟨more, rfl⟩ := grown
  induction more using List.reverseRecOn with
  | nil => simp
  | append_singleton more body ih =>
    rw [← List.append_assoc, helperRuns_append]
    exact ih.trans (List.prefix_append _ _)

theorem lookup_of_grown {helpers later : List Body} (grown : helpers <+: later) {i : Nat}
    (within : i < helpers.length) :
    lookup (helperRuns later) i = lookup (helperRuns helpers) i := by
  obtain ⟨more, split⟩ := helperRuns_prefix grown
  rw [lookup, lookup, ← split, List.getElem?_append_left (by simpa using within)]

namespace Program

/-- Every helper belongs to a writer and calls only helpers before it. -/
def Sound (program : Program) : Prop :=
  ∀ (i : Nat) (body : Body), program.helpers[i]? = some body → body.Writes i

theorem sound_empty : empty.Sound := by
  intro i body here
  simp [empty] at here

@[simp] theorem helpers_importing (path name : String) (program : Program) :
    (program.importing path name).helpers = program.helpers := rfl

/-- What an expression does in a program it does in every later one. -/
theorem run_of_prefix {p q : Program} (grown : p.helpers <+: q.helpers) {code : Code}
    (writes : code.Writes p.helpers.length) : q.run code = p.run code :=
  writes.run_congr fun _ within => lookup_of_grown grown within

theorem Sound.run_helper {program : Program} (sound : program.Sound) {i : Nat} {body : Body}
    (here : program.helpers[i]? = some body) :
    program.run (.helper i) = body.run (lookup (helperRuns program.helpers)) := by
  obtain ⟨within, rfl⟩ := List.getElem?_eq_some_iff.mp here
  have front : program.helpers.take i <+: program.helpers := List.take_prefix i _
  have length : (program.helpers.take i).length = i := by
    rw [List.length_take]
    omega
  have upto : program.helpers.take i ++ [program.helpers[i]] <+: program.helpers := by
    rw [List.take_append_getElem within]
    exact List.take_prefix _ _
  have found : lookup (helperRuns (program.helpers.take i ++ [program.helpers[i]])) i =
      program.helpers[i].run (lookup (helperRuns (program.helpers.take i))) := by
    rw [helperRuns_append, lookup, List.getElem?_append_right (by simp [length])]
    simp [length]
  have last : i < (program.helpers.take i ++ [program.helpers[i]]).length := by
    rw [List.length_append, length, List.length_singleton]
    omega
  rw [run, Code.run, lookup_of_grown upto last, found]
  refine (sound i _ here).run_congr fun j before => ?_
  exact (lookup_of_grown front (by omega)).symm

theorem helperIndex_eq_some {program : Program} {text : String} {i : Nat}
    (found : program.helperIndex? text = some i) :
    ∃ body, program.helpers[i]? = some body ∧ body.render = text := by
  obtain ⟨within, same, -⟩ := List.findIdx?_eq_some_iff_getElem.mp found
  exact ⟨program.helpers[i], List.getElem?_eq_getElem within, by simpa using same⟩

/-- A helper that is defined stands in the program from then on, whether it was there before or
not. -/
theorem Sound.define {program : Program} (sound : program.Sound) {body : Body}
    (writes : body.Writes program.helpers.length) :
    (program.define body).2.Sound ∧ program.helpers <+: (program.define body).2.helpers ∧
      (program.define body).2.helpers[(program.define body).1]? = some body := by
  unfold Program.define
  cases found : program.helperIndex? body.render with
  | some i =>
    obtain ⟨old, here, same⟩ := helperIndex_eq_some found
    have within := (List.getElem?_eq_some_iff.mp here).1
    have shared : old = body :=
      ((sound i old here).mono (Nat.le_of_lt within)).render_injective writes same
    exact ⟨sound, List.prefix_rfl, shared ▸ here⟩
  | none =>
    refine ⟨fun i other here => ?_, List.prefix_append _ _, by simp⟩
    by_cases before : i < program.helpers.length
    · exact sound i other (by simpa [List.getElem?_append_left before] using here)
    · have last : i = program.helpers.length ∧ body = other := by
        obtain ⟨within, there⟩ := List.getElem?_eq_some_iff.mp here
        rw [List.length_append, List.length_singleton] at within
        have same : i = program.helpers.length := by omega
        subst same
        exact ⟨rfl, by simpa using there⟩
      obtain ⟨rfl, rfl⟩ := last
      exact writes

end Program

end WireSchema.Generated
