import Mathlib.Data.Option.Basic
import WireSchema.Proofs.Generated.Tracking

/-!
Choices in generated code. An arm keeps the object, converts it as a whole, or converts the payload
it holds; only then an object may be made anew that the interpreter keeps.
-/

set_option autoImplicit false

namespace WireSchema.Generated

open WireSchema.Convert
open WireSchema.Schema (HandedBack MeetsUndeclared writer_spares)
open WireSchema.Update (property kindKey valueKey)
open WireSchema.Value (present)

variable {options : WriteOptions}

inductive ArmTracks (options : WriteOptions) (helpers : Nat → Conversion Fault) :
    Option Schema → Arm → Prop where
  | bare : ArmTracks options helpers none .keep
  | idle {payload : Schema} : payload.idle options = true →
      ArmTracks options helpers (some payload) .keep
  | whole {fields : List (String × Schema)} {code : Code} :
      Tracks options (.object fields) (code.run helpers) →
      ArmTracks options helpers (some (.object fields)) (.whole code)
  | payload {payload : Schema} {code : Code} : payload.isObject = false →
      Tracks options payload (code.run helpers) →
      ArmTracks options helpers (some payload) (.payload code)

def armRun (helpers : Nat → Conversion Fault) (kind : String) : Arm → Conversion Fault
  | .keep => fun _ v => .ok v
  | .whole code => code.run helpers
  | .payload code => fun fresh v => Update.mappedPayload fresh kind
      (fun x => located (.key valueKey) (code.run helpers (fresh.enter (.key valueKey)) x)) v

theorem run_dispatch_of_arm {helpers : Nat → Conversion Fault} {arms : List (String × Arm)}
    {lenient : Bool} {fresh origin : Origin} {entries : List (String × Value)} {kind : String}
    {arm : Arm} (named : property kindKey entries = .string kind)
    (found : Entries.get? kind arms = some arm) :
    (Body.dispatch arms lenient).run helpers fresh (.object origin entries) =
      armRun helpers kind arm fresh (.object origin entries) := by
  have kinded := Schema.discriminant_eq_ok.mpr ⟨origin, entries, rfl, named⟩
  simp only [Body.run, kinded, ok_bind, found]
  cases arm <;> rfl

theorem ArmTracks.discerning {helpers : Nat → Conversion Fault} {kind : String}
    {payload : Option Schema} {arm : Arm} (tracks : ArmTracks options helpers payload arm) :
    Discerning (armRun helpers kind arm) := by
  intro fresh v old r done same
  cases tracks with
  | bare => exact (Except.ok.inj done).symm
  | idle _ => exact (Except.ok.inj done).symm
  | whole part => exact part.discerning fresh v old r done same
  | payload _ _ =>
    rw [armRun] at done
    exact mappedPayload_discerning old r done same

/-- The payload that an object holds comes back itself from the interpreter alone, and there is more
to see of the object than the name of its variant and the payload, or not in this order. -/
def Remade (options : WriteOptions) (payload : Schema) (entries : List (String × Value)) : Prop :=
  HandedBack options (fun _ => True) payload (property valueKey entries) ∧
    ¬HandedBack options (Sparing options) payload (property valueKey entries) ∧
      Entries.names (present entries) ≠ [kindKey, valueKey]

theorem recast_choice_iff {variants : List (String × Option Schema)} {origin : Origin}
    {entries : List (String × Value)} {kind : String} {payload : Option Schema}
    (named : property kindKey entries = .string kind)
    (declared : Entries.get? kind variants = some payload) :
    Recast options (.choice variants) (.object origin entries) ↔
      ∃ inner, payload = some inner ∧
        if inner.isObject then Recast options inner (.object origin entries)
        else Recast options inner (property valueKey entries) ∨ Remade options inner entries := by
  constructor
  · intro recast
    cases recast with
    | spread again found recast =>
      obtain rfl := Value.string.inj (named.symm.trans again)
      obtain rfl := Option.some.inj (declared.symm.trans found)
      exact ⟨_, rfl, recast⟩
    | within again found other recast =>
      obtain rfl := Value.string.inj (named.symm.trans again)
      obtain rfl := Option.some.inj (declared.symm.trans found)
      exact ⟨_, rfl, by rw [other]; exact Or.inl recast⟩
    | here again found other back copied more =>
      obtain rfl := Value.string.inj (named.symm.trans again)
      obtain rfl := Option.some.inj (declared.symm.trans found)
      exact ⟨_, rfl, by rw [other]; exact Or.inr ⟨back, copied, more⟩⟩
  · rintro ⟨inner, rfl, recast⟩
    cases object : inner.isObject with
    | true =>
      obtain ⟨fields, rfl⟩ := Schema.isObject_eq_true.mp object
      exact .spread named declared recast
    | false =>
      rw [object] at recast
      rcases recast with recast | ⟨back, copied, more⟩
      · exact .within named declared object recast
      · exact .here named declared object back copied more

section Choice

variable {variants : List (String × Option Schema)} {fresh origin : Origin}
  {entries : List (String × Value)} {kind : String}

/-- The answer for a payload decides that for the object which holds it. -/
private theorem held_answer {payload : Schema} {mapped mapped' : Value}
    (old : (Value.object origin entries).Predates fresh)
    (tidy : (Value.object origin entries).Proper)
    (named : property kindKey entries = .string kind)
    (declared : Entries.get? kind variants = some (some payload))
    (other : payload.isObject = false)
    (kept : mapped = property valueKey entries ↔
      HandedBack options (fun _ => True) payload (property valueKey entries))
    (answer : Answer options payload (property valueKey entries) mapped mapped')
    (same : mapped.same (property valueKey entries) = true ↔ mapped = property valueKey entries)
    (same' : mapped'.same (property valueKey entries) = true ↔ mapped' = property valueKey entries)
    (fixes : property valueKey entries = .absent → mapped' = property valueKey entries) :
    Answer options (.choice variants) (.object origin entries)
      (if mapped.same (property valueKey entries) then .object origin entries
        else Update.variantValue fresh kind mapped)
      (if mapped'.same (property valueKey entries) then .object origin entries
        else Update.variantValue fresh kind mapped') := by
  have whole : Recast options (.choice variants) (.object origin entries) ↔
      Recast options payload (property valueKey entries) ∨ Remade options payload entries := by
    rw [recast_choice_iff named declared]
    simp [other]
  have wider : HandedBack options (Sparing options) payload (property valueKey entries) →
      HandedBack options (fun _ => True) payload (property valueKey entries) :=
    HandedBack.mono fun _ _ => trivial
  have made : ∀ y, Update.variantValue fresh kind y ≠ .object origin entries := fun y equal =>
    old.object_origin_ne (Value.object.inj equal).1
  constructor
  · rw [Schema.handedBack_choice named declared]
    simp only [Option.some.injEq, forall_eq', other, Bool.false_eq_true, if_false, ← answer.back]
    by_cases unchanged' : mapped' = property valueKey entries
    · rw [if_pos (same'.mpr unchanged')]
      exact iff_of_true rfl unchanged'
    · rw [if_neg (mt same'.mp unchanged')]
      exact iff_of_false (made mapped') unchanged'
  · rw [whole, not_or, ← answer.content, Remade, ← kept, ← answer.back]
    by_cases unchanged' : mapped' = property valueKey entries
    · have unchanged : mapped = property valueKey entries :=
        kept.mpr (wider (answer.back.mp unchanged'))
      rw [if_pos (same.mpr unchanged), if_pos (same'.mpr unchanged'), unchanged, unchanged']
      simp
    · rw [if_neg (mt same'.mp unchanged')]
      by_cases unchanged : mapped = property valueKey entries
      · have there : property valueKey entries ≠ .absent := fun gone => unchanged' (fixes gone)
        rw [if_pos (same.mpr unchanged), Update.content_variantValue_iff tidy.distinct named there,
          unchanged]
        simp only [unchanged', not_false_iff, true_and, ne_eq, not_not]
        exact and_comm
      · rw [if_neg (mt same.mp unchanged), Update.content_variantValue_inj]
        simp [unchanged]

private theorem idle_answer {payload : Schema} (named : property kindKey entries = .string kind)
    (found : Entries.get? kind variants = some (some payload))
    (idle : payload.idle options = true) :
    Answer options (.choice variants) (.object origin entries) (.object origin entries)
      (.object origin entries) := by
  constructor
  · exact iff_of_true rfl ((Schema.handedBack_choice named found).mpr fun inner same =>
      .idle (Option.some.inj same ▸ idle))
  · refine iff_of_true rfl fun recast => ?_
    obtain ⟨inner, same, recast⟩ := (recast_choice_iff named found).mp recast
    obtain rfl := Option.some.inj same
    split at recast
    · exact not_recast_of_idle idle recast
    · rcases recast with recast | ⟨-, copied, -⟩
      · exact not_recast_of_idle idle recast
      · exact copied (.idle idle)

private theorem ArmTracks.answers {helpers : Nat → Conversion Fault} {payload : Option Schema}
    {arm : Arm} {w : Value} (tracks : ArmTracks options helpers payload arm)
    (proper : (Schema.choice variants).Proper) (old : (Value.object origin entries).Predates fresh)
    (tidy : (Value.object origin entries).Proper)
    (declared : ¬MeetsUndeclared (.choice variants) (.object origin entries))
    (named : property kindKey entries = .string kind)
    (found : Entries.get? kind variants = some payload)
    (done : Schema.writer options (.choice variants) fresh (.object origin entries) = .ok w)
    (made : Schema.VariantWritten options (some payload) fresh origin entries kind w) :
    ∃ w', armRun helpers kind arm fresh (.object origin entries) = .ok w' ∧
      Answer options (.choice variants) (.object origin entries) w w' := by
  cases tracks with
  | bare =>
    obtain rfl : w = .object origin entries := made
    refine ⟨_, rfl, iff_of_true rfl (.bare named found), iff_of_true rfl fun recast => ?_⟩
    obtain ⟨inner, none, -⟩ := (recast_choice_iff named found).mp recast
    simp at none
  | @idle payload idle =>
    have answer : Answer options (.choice variants) (.object origin entries)
        (.object origin entries) (.object origin entries) := idle_answer named found idle
    obtain rfl : w = .object origin entries :=
      (writer_spares options proper fresh _ w old tidy declared done).mpr
        ((answer.back.mp rfl).mono fun _ _ => trivial)
    exact ⟨_, rfl, answer⟩
  | @whole fields code part =>
    rcases made with ⟨_, same, made⟩ | ⟨other, -⟩
    · obtain rfl := Schema.object.inj same
      obtain ⟨w', run, answer⟩ := part.answers (proper.payload found) fresh _ w old tidy
        (fun met => declared (.spread named found met)) made
      refine ⟨w', run, ?_, ?_⟩
      · rw [answer.back, Schema.handedBack_choice named found]
        simp [Schema.isObject]
      · rw [answer.content, recast_choice_iff named found]
        simp [Schema.isObject]
    · simp [Schema.isObject] at other
  | @payload payload code other part =>
    rcases made with ⟨_, rfl, -⟩ | ⟨-, mapped, made, rfl⟩
    · simp [Schema.isObject] at other
    · have older := (old.property valueKey).enter (.key valueKey)
      have met := fun met => declared (.held named found other met)
      obtain ⟨mapped', run, answer⟩ := part.answers (proper.payload found) _ _ mapped older
        (tidy.property valueKey) met made
      have kept := writer_spares options (proper.payload found) _ _ mapped older
        (tidy.property valueKey) met made
      rw [armRun]
      refine ⟨_, Schema.mappedPayload_eq_ok.mpr ⟨mapped', ?_, rfl⟩, ?_⟩
      · exact located_eq_ok.mpr run
      refine held_answer old tidy named found other kept answer ?_ ?_ ?_
      · exact (Schema.writer_discerning options payload _ _ older).same_iff made
      · exact (part.discerning _ _ older).same_iff run
      · intro gone
        rw [gone] at run ⊢
        exact part.fixes _ mapped' run

private theorem discerning_dispatch {helpers : Nat → Conversion Fault} {arms : List (String × Arm)}
    {lenient : Bool} (each : ∀ kind arm, Entries.get? kind arms = some arm →
      Discerning (armRun helpers kind arm)) :
    Discerning ((Body.dispatch arms lenient).run helpers) := by
  intro fresh v old r done same
  have opened := done
  simp only [Body.run, bind_eq_ok, Schema.discriminant_eq_ok] at opened
  obtain ⟨kind, ⟨origin, entries, rfl, named⟩, rest⟩ := opened
  cases found : Entries.get? kind arms with
  | none =>
    rw [found] at rest
    dsimp only at rest
    split at rest
    · rw [← pure_eq_ok.mp rest] at same
      simp [Value.same] at same
    · simp at rest
  | some arm =>
    rw [run_dispatch_of_arm named found] at done
    exact each kind arm found fresh _ old r done same

theorem tracks_dispatch {helpers : Nat → Conversion Fault} {arms : List (String × Arm)}
    {lenient : Bool} (parts : ∀ kind, Option.Rel (ArmTracks options helpers)
      (Entries.get? kind variants) (Entries.get? kind arms)) :
    Tracks options (.choice variants) ((Body.dispatch arms lenient).run helpers) where
  discerning := discerning_dispatch fun kind arm found => by
    have related := parts kind
    rw [found] at related
    generalize Entries.get? kind variants = payload at related
    cases related with
    | some tracks => exact tracks.discerning
  fixes := by
    intro fresh r done
    simp [Body.run, Update.discriminant, Value.asObject, Value.mistyped] at done
  answers := by
    intro proper fresh v w old tidy declared done
    obtain ⟨origin, entries, kind, payload, rfl, named, found, made⟩ :=
      Schema.writer_choice_declared declared done
    have related := parts kind
    rw [found] at related
    generalize armed : Entries.get? kind arms = reached at related
    cases related with
    | some tracks =>
      rw [run_dispatch_of_arm named armed]
      exact tracks.answers proper old tidy declared named found done made

end Choice

end WireSchema.Generated
