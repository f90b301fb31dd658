import WireSchema.Generated.Meaning
import WireSchema.Proofs.Convert.HandedBack

/-!
Generated conversions against the interpreter, one shape of code at a time. They differ in what they
copy: code that always copies never hands a held payload back, so an object around it that the
interpreter would have kept is made anew from its variant's name and the payload alone.
-/

set_option autoImplicit false

namespace WireSchema.Generated

open WireSchema.Convert
open WireSchema.Schema (HandedBack MeetsUndeclared writer_spares)
open WireSchema.Update (property kindKey valueKey Keeps)
open WireSchema.Value (present content contentEntries)

/-- The compounds of which generated code makes a copy on a change only. -/
def Sparing (options : WriteOptions) : Schema → Prop
  | .array item => (options.cow && !item.alwaysCopies) = true
  | .object fields => (options.cow && !Schema.allFieldsCopy fields) = true
  | _ => False

/-- Somewhere in the value the interpreter keeps an object because its held payload comes back
itself, whereas generated code copies the payload and makes the object anew, which is not the same
unless it shows the variant's name and the payload in this order and nothing else. -/
inductive Recast (options : WriteOptions) : Schema → Value → Prop where
  | option {inner : Schema} {v : Value} : v ≠ .absent → Recast options inner v →
      Recast options (.option inner) v
  | array {item : Schema} {origin : Origin} {values : List Value} {x : Value} : x ∈ values →
      Recast options item x → Recast options (.array item) (.array origin values)
  | tuple {elems : List Schema} {origin : Origin} {values : List Value} {i : Nat} {elem : Schema}
      {x : Value} : elems[i]? = some elem → values[i]? = some x → Recast options elem x →
      Recast options (.tuple elems) (.array origin values)
  | object {fields : List (String × Schema)} {origin : Origin} {entries : List (String × Value)}
      {key : String} {field : Schema} : (key, field) ∈ fields →
      Recast options field (property key entries) →
      Recast options (.object fields) (.object origin entries)
  | spread {variants : List (String × Option Schema)} {fields : List (String × Schema)}
      {origin : Origin} {entries : List (String × Value)} {kind : String} :
      property kindKey entries = .string kind →
      Entries.get? kind variants = some (some (.object fields)) →
      Recast options (.object fields) (.object origin entries) →
      Recast options (.choice variants) (.object origin entries)
  | within {variants : List (String × Option Schema)} {payload : Schema} {origin : Origin}
      {entries : List (String × Value)} {kind : String} :
      property kindKey entries = .string kind →
      Entries.get? kind variants = some (some payload) → payload.isObject = false →
      Recast options payload (property valueKey entries) →
      Recast options (.choice variants) (.object origin entries)
  | here {variants : List (String × Option Schema)} {payload : Schema} {origin : Origin}
      {entries : List (String × Value)} {kind : String} :
      property kindKey entries = .string kind →
      Entries.get? kind variants = some (some payload) → payload.isObject = false →
      HandedBack options (fun _ => True) payload (property valueKey entries) →
      ¬HandedBack options (Sparing options) payload (property valueKey entries) →
      Entries.names (present entries) ≠ [kindKey, valueKey] →
      Recast options (.choice variants) (.object origin entries)

theorem not_recast_absent {options : WriteOptions} {schema : Schema} :
    ¬Recast options schema .absent := by
  intro recast
  cases recast with
  | option there _ => exact there rfl

theorem not_recast_of_idle {options : WriteOptions} {schema : Schema} {v : Value}
    (idle : schema.idle options = true) : ¬Recast options schema v := by
  intro recast
  induction recast with
  | option _ _ ih => exact ih idle
  | array _ _ ih => exact ih idle
  | tuple here _ _ ih => exact ih (Schema.idleElems_iff.mp idle _ (List.mem_of_getElem? here))
  | object member _ ih => exact ih (Schema.idleFields_iff.mp idle _ _ member)
  | spread _ found _ ih =>
    exact ih (Schema.idleVariants_iff.mp idle _ _ (Entries.mem_of_get? found))
  | within _ found _ _ ih =>
    exact ih (Schema.idleVariants_iff.mp idle _ _ (Entries.mem_of_get? found))
  | here _ found _ _ copied _ =>
    exact copied (.idle (Schema.idleVariants_iff.mp idle _ _ (Entries.mem_of_get? found)))

structure Answer (options : WriteOptions) (schema : Schema) (v w w' : Value) : Prop where
  back : w' = v ↔ HandedBack options (Sparing options) schema v
  content : w'.content = w.content ↔ ¬Recast options schema v

/-- A conversion that succeeds wherever writing does, with the answer of generated code. -/
structure Tracks (options : WriteOptions) (schema : Schema) (c : Conversion Fault) : Prop where
  discerning : Discerning c
  fixes : FixesAbsent c
  answers : schema.Proper → ∀ fresh v w, v.Predates fresh → v.Proper →
    ¬MeetsUndeclared schema v → Schema.writer options schema fresh v = .ok w →
      ∃ w', c fresh v = .ok w' ∧ Answer options schema v w w'

variable {options : WriteOptions}

theorem tracks_identity {schema : Schema} (idle : schema.idle options = true) :
    Tracks options schema (fun _ v => .ok v) where
  discerning := fun _ _ _ _ done _ => (Except.ok.inj done).symm
  fixes := fun _ _ done => (Except.ok.inj done).symm
  answers := by
    intro proper fresh v w old tidy declared done
    obtain rfl : w = v := (writer_spares options proper fresh v w old tidy declared done).mpr
      (.idle idle)
    exact ⟨w, rfl, iff_of_true rfl (.idle idle), iff_of_true rfl (not_recast_of_idle idle)⟩

theorem tracks_leaf (l : Leaf) : Tracks options (.leaf l) (fun _ v => l.write options v) where
  discerning := Schema.writer_discerning options (.leaf l)
  fixes := Schema.writer_fixesAbsent options (.leaf l)
  answers := by
    intro _ fresh v w _ _ _ done
    refine ⟨w, done, ?_, iff_of_true rfl (fun recast => by cases recast)⟩
    rw [Schema.handedBack_leaf]
    exact ⟨fun same => same ▸ done, fun back => Except.ok.inj (done.symm.trans back)⟩

theorem tracks_option {inner : Schema} {c : Conversion Fault} (part : Tracks options inner c) :
    Tracks options (.option inner)
      (fun fresh v => if v.isAbsent then .ok .absent else c fresh v) where
  discerning := by
    intro fresh v old r done same
    dsimp only at done
    split at done
    · next empty => rw [Value.isAbsent_eq_true.mp empty, Except.ok.inj done]
    · exact part.discerning fresh v old r done same
  fixes := fun _ _ done => (Except.ok.inj done).symm
  answers := by
    rintro (_ | proper) fresh v w old tidy declared done
    simp only [Schema.writer] at done
    split at done
    · next empty =>
      obtain rfl := Value.isAbsent_eq_true.mp empty
      obtain rfl := Except.ok.inj done
      exact ⟨.absent, rfl, iff_of_true rfl .missing, iff_of_true rfl not_recast_absent⟩
    · next there =>
      have other : v ≠ .absent := fun same => there (Value.isAbsent_eq_true.mpr same)
      obtain ⟨w', made, answer⟩ := part.answers proper fresh v w old tidy
        (fun met => declared (.option met)) done
      refine ⟨w', by rw [if_neg there, made], ?_, ?_⟩
      · rw [answer.back, Schema.handedBack_option]
        simp [other]
      · rw [answer.content, not_iff_not]
        constructor
        · exact .option other
        · rintro (_ | _)
          next recast => exact recast

private theorem array_content_iff (differs : Nat → Value → Prop) {o o' : Origin}
    {values results results' : List Value} (length : results.length = values.length)
    (length' : results'.length = values.length)
    (each : ∀ (j : Nat) (x : Value), values[j]? = some x → ∃ y y', results[j]? = some y ∧
      results'[j]? = some y' ∧ (y'.content = y.content ↔ ¬differs j x)) :
    (Value.array o' results').content = (Value.array o results).content ↔
      ∀ (j : Nat) (x : Value), values[j]? = some x → ¬differs j x := by
  simp only [Value.content_array, Value.array.injEq, true_and]
  constructor
  · intro alike j x found
    obtain ⟨y, y', here, there, answer⟩ := each j x found
    have at_j := congrArg (·[j]?) alike
    exact answer.mp (by simpa [List.getElem?_map, here, there] using at_j)
  · intro none
    refine List.ext_getElem? fun j => ?_
    simp only [List.getElem?_map]
    cases found : values[j]? with
    | none =>
      rw [List.getElem?_eq_none_iff] at found
      rw [List.getElem?_eq_none (by omega), List.getElem?_eq_none (by omega)]
    | some x =>
      obtain ⟨y, y', here, there, answer⟩ := each j x found
      rw [here, there, Option.map_some, Option.map_some, answer.mpr (none j x found)]

private theorem copied_ne {fresh origin : Origin} {values results : List Value}
    (old : (Value.array origin values).Predates fresh) :
    Value.array fresh results ≠ .array origin values :=
  fun same => old.array_origin_ne (Value.array.inj same).1

theorem copyEach_eq_ok_iff {item : Conversion Fault} {fresh : Origin} {v r : Value} :
    copyEach item fresh v = .ok r ↔
      ∃ origin values results, v = .array origin values ∧ results.length = values.length ∧
        (∀ (j : Nat) (x : Value), values[j]? = some x → ∃ y, results[j]? = some y ∧
          item (fresh.enter (.index j)) x = .ok y) ∧
        r = .array fresh results := by
  simp only [copyEach, Update.copiedItems, bind_eq_ok, pure_eq_ok, Prod.exists, asArray_eq_ok,
    Update.mapItems_eq_ok_iff, located_eq_ok, Nat.zero_add]
  constructor
  · rintro ⟨origin, values, rfl, results, ⟨length, each⟩, rfl⟩
    exact ⟨origin, values, results, rfl, length, each, rfl⟩
  · rintro ⟨origin, values, results, rfl, length, each, rfl⟩
    exact ⟨origin, values, rfl, results, ⟨length, each⟩, rfl⟩

theorem copyEach_discerning (item : Conversion Fault) : Discerning (copyEach item) := by
  intro fresh v old r done same
  obtain ⟨origin, values, results, rfl, -, -, rfl⟩ := copyEach_eq_ok_iff.mp done
  exact keeps_of_array_shape old (Or.inr ⟨results, rfl⟩) same

section Each

variable {item : Schema} {c : Conversion Fault} (part : Tracks options item c)

include part

private theorem answered_items (proper : item.Proper) {fresh origin : Origin} {values : List Value}
    {w : Value} (old : (Value.array origin values).Predates fresh)
    (tidy : (Value.array origin values).Proper)
    (declared : ¬MeetsUndeclared (.array item) (.array origin values))
    (done : Schema.writer options (.array item) fresh (.array origin values) = .ok w) :
    ∃ o results, w = .array o results ∧ results.length = values.length ∧
      ∀ (j : Nat) (x : Value), values[j]? = some x → ∃ y y', results[j]? = some y ∧
        c (fresh.enter (.index j)) x = .ok y' ∧ Answer options item x y y' := by
  obtain ⟨_, _, results, shape, length, each, made⟩ :=
    (convertEach_eq_ok_iff (Schema.writer_discerning options item) old).mp done
  obtain ⟨rfl, rfl⟩ := Value.array.inj shape
  obtain ⟨o, whole⟩ := made.exists_origin
  refine ⟨o, results, whole, length, fun j x found => ?_⟩
  have member := List.mem_of_getElem? found
  obtain ⟨y, there, written⟩ := each j x found
  obtain ⟨y', run, answer⟩ := part.answers proper _ x y ((old.item member).enter _)
    (tidy.items x member) (fun met => declared (.array member met)) written
  exact ⟨y, y', there, run, answer⟩

end Each

private theorem recast_array_iff {item : Schema} {origin : Origin} {values : List Value} :
    Recast options (.array item) (.array origin values) ↔
      ∃ (j : Nat) (x : Value), values[j]? = some x ∧ Recast options item x := by
  constructor
  · intro recast
    cases recast with
    | array member recast =>
      obtain ⟨j, found⟩ := List.mem_iff_getElem?.mp member
      exact ⟨j, _, found, recast⟩
  · rintro ⟨j, x, found, recast⟩
    exact .array (List.mem_of_getElem? found) recast

theorem tracks_convertEach {item : Schema} {c : Conversion Fault} (part : Tracks options item c)
    (busy : item.idle options = false) (sparing : Sparing options (.array item)) :
    Tracks options (.array item) (convertEach c) where
  discerning := convertEach_discerning c
  fixes := by
    intro fresh r done
    simp [convertEach, Value.asArray, Value.mistyped] at done
  answers := by
    rintro (_ | _ | proper) fresh v w old tidy declared done
    obtain ⟨origin, values, -, rfl, -⟩ :=
      (convertEach_eq_ok_iff (Schema.writer_discerning options item) old).mp done
    obtain ⟨o, results, rfl, length, each⟩ := answered_items part proper old tidy declared done
    obtain ⟨w', run⟩ := (exists_convertEach_iff part.discerning old).mpr fun j x found => by
      obtain ⟨-, y', -, run, -⟩ := each j x found
      exact ⟨y', run⟩
    obtain ⟨_, _, results', shape, length', each', made⟩ :=
      (convertEach_eq_ok_iff part.discerning old).mp run
    obtain ⟨rfl, rfl⟩ := Value.array.inj shape
    have both : ∀ (j : Nat) (x : Value), values[j]? = some x → ∃ y y', results[j]? = some y ∧
        results'[j]? = some y' ∧ Answer options item x y y' := by
      intro j x found
      obtain ⟨y, y', here, one, answer⟩ := each j x found
      obtain ⟨z, there, two⟩ := each' j x found
      obtain rfl := Except.ok.inj (one.symm.trans two)
      exact ⟨y, y', here, there, answer⟩
    refine ⟨w', run, ?_, ?_⟩
    · rw [made.eq_iff old, Schema.handedBack_array]
      simp only [busy, Bool.false_eq_true, false_or, sparing, true_and]
      constructor
      · rintro rfl x member
        obtain ⟨j, found⟩ := List.mem_iff_getElem?.mp member
        obtain ⟨y, y', -, there, answer⟩ := both j x found
        exact answer.back.mp (Option.some.inj (there.symm.trans found))
      · intro back
        refine Schema.eq_of_each length' fun j x found => ?_
        obtain ⟨y, y', -, there, answer⟩ := both j x found
        rw [there, answer.back.mpr (back x (List.mem_of_getElem? found))]
    · obtain ⟨o', rfl⟩ := made.exists_origin
      rw [recast_array_iff, array_content_iff (fun _ x => Recast options item x) length length'
        fun j x found => by
        obtain ⟨y, y', here, there, answer⟩ := both j x found
        exact ⟨y, y', here, there, answer.content⟩]
      simp

theorem tracks_copyEach {item : Schema} {c : Conversion Fault} (part : Tracks options item c)
    (busy : item.idle options = false) (copying : ¬Sparing options (.array item)) :
    Tracks options (.array item) (copyEach c) where
  discerning := copyEach_discerning c
  fixes := by
    intro fresh r done
    simp [copyEach, Value.asArray, Value.mistyped] at done
  answers := by
    rintro (_ | _ | proper) fresh v w old tidy declared done
    obtain ⟨origin, values, -, rfl, -⟩ :=
      (convertEach_eq_ok_iff (Schema.writer_discerning options item) old).mp done
    obtain ⟨o, results, rfl, length, each⟩ := answered_items part proper old tidy declared done
    obtain ⟨results', length', both⟩ := exists_results fun j x found => by
      obtain ⟨-, y', -, run, -⟩ := each j x found
      exact ⟨y', run⟩
    refine ⟨.array fresh results', copyEach_eq_ok_iff.mpr
      ⟨origin, values, results', rfl, length', both, rfl⟩, ?_, ?_⟩
    · rw [Schema.handedBack_array]
      simp [copied_ne old, busy, copying]
    · rw [recast_array_iff, array_content_iff (fun _ x => Recast options item x) length length'
        fun j x found => by
        obtain ⟨y, y', here, one, answer⟩ := each j x found
        obtain ⟨z, there, two⟩ := both j x found
        obtain rfl := Except.ok.inj (one.symm.trans two)
        exact ⟨y, y', here, there, answer.content⟩]
      simp

theorem copyPositions_eq_ok_iff {elems : List (Conversion Fault)} {fresh : Origin} {v r : Value} :
    copyPositions elems fresh v = .ok r ↔
      ∃ origin values results, v = .array origin values ∧ values.length = elems.length ∧
        results.length = values.length ∧
        (∀ (j : Nat) (elem : Conversion Fault) (x : Value), elems[j]? = some elem →
          values[j]? = some x → ∃ y, results[j]? = some y ∧
            elem (fresh.enter (.index j)) x = .ok y) ∧
        r = .array fresh results := by
  simp only [copyPositions, Leaf.readItems, Update.copiedItems, bind_eq_ok, pure_eq_ok, Prod.exists,
    asArray_eq_ok, Update.mapItems_eq_ok_iff, Nat.zero_add]
  constructor
  · rintro ⟨values, ⟨origin, items, rfl, made⟩, results, ⟨size, each⟩, rfl⟩
    split at made
    · next length =>
      obtain rfl := pure_eq_ok.mp made
      refine ⟨origin, items, results, rfl, length, size, fun j elem x here found => ?_, rfl⟩
      obtain ⟨y, there, done⟩ := each j x found
      exact ⟨y, there, by simpa [here] using done⟩
    · simp at made
  · rintro ⟨origin, values, results, rfl, length, size, each, rfl⟩
    refine ⟨values, ⟨origin, values, rfl, by rw [if_pos length]; rfl⟩, results,
      ⟨size, fun j x found => ?_⟩, rfl⟩
    have within : j < elems.length := length ▸ (List.getElem?_eq_some_iff.mp found).1
    obtain ⟨y, there, done⟩ := each j elems[j] x (List.getElem?_eq_getElem within) found
    exact ⟨y, there, by simpa [List.getElem?_eq_getElem within] using done⟩

private theorem recast_tuple_iff {elems : List Schema} {origin : Origin} {values : List Value} :
    Recast options (.tuple elems) (.array origin values) ↔
      ∃ (j : Nat) (x : Value), values[j]? = some x ∧
        ∃ elem, elems[j]? = some elem ∧ Recast options elem x := by
  constructor
  · intro recast
    cases recast with
    | tuple here found recast => exact ⟨_, _, found, _, here, recast⟩
  · rintro ⟨j, x, found, elem, here, recast⟩
    exact .tuple here found recast

theorem tracks_copyPositions {elems : List Schema} {cs : List (Conversion Fault)}
    (length : cs.length = elems.length)
    (parts : ∀ (j : Nat) (elem : Schema) (c : Conversion Fault), elems[j]? = some elem →
      cs[j]? = some c → Tracks options elem c)
    (busy : (Schema.tuple elems).idle options = false) :
    Tracks options (.tuple elems) (copyPositions cs) where
  discerning := by
    intro fresh v old r done same
    obtain ⟨origin, values, results, rfl, -, -, -, rfl⟩ := copyPositions_eq_ok_iff.mp done
    exact keeps_of_array_shape old (Or.inr ⟨results, rfl⟩) same
  fixes := by
    intro fresh r done
    simp [copyPositions, Leaf.readItems, Value.asArray, Value.mistyped] at done
  answers := by
    rintro (_ | _ | _ | proper) fresh v w old tidy declared done
    rw [Schema.writer, Schema.elemWriters_eq_map] at done
    obtain ⟨origin, values, results, rfl, size, size', each, made⟩ :=
      (convertPositions_eq_ok_iff (fun c member => by
        obtain ⟨elem, -, rfl⟩ := List.mem_map.mp member
        exact Schema.writer_discerning options elem) old).mp done
    obtain ⟨o, rfl⟩ := made.exists_origin
    rw [List.length_map] at size
    have answered : ∀ (j : Nat) (x : Value), values[j]? = some x → ∃ elem c y y',
        elems[j]? = some elem ∧ cs[j]? = some c ∧ results[j]? = some y ∧
          c (fresh.enter (.index j)) x = .ok y' ∧ Answer options elem x y y' := by
      intro j x found
      have member := List.mem_of_getElem? found
      have within : j < elems.length := size ▸ (List.getElem?_eq_some_iff.mp found).1
      have here := List.getElem?_eq_getElem within
      have inside : j < cs.length := length ▸ within
      have code : cs[j]? = some cs[j] := List.getElem?_eq_getElem inside
      obtain ⟨y, there, written⟩ := each j (Schema.writer options elems[j]) x (by simp [here]) found
      obtain ⟨y', run, answer⟩ := (parts j _ _ here code).answers
        (proper _ (List.getElem_mem within)) _ x y ((old.item member).enter _)
        (tidy.items x member) (fun met => declared (.tuple here found met)) written
      exact ⟨_, _, y, y', here, code, there, run, answer⟩
    have reached : ∀ (j : Nat) (x : Value), values[j]? = some x →
        ∃ y', ∃ c : Conversion Fault, cs[j]? = some c ∧ c (fresh.enter (.index j)) x = .ok y' := by
      intro j x found
      obtain ⟨-, c, -, y', -, code, -, run, -⟩ := answered j x found
      exact ⟨y', c, code, run⟩
    obtain ⟨results', length', both⟩ := exists_results reached
    refine ⟨.array fresh results', copyPositions_eq_ok_iff.mpr
      ⟨origin, values, results', rfl, by omega, length', fun j c x code found => ?_, rfl⟩, ?_, ?_⟩
    · obtain ⟨y', there, c', code', run⟩ := both j x found
      obtain rfl := Option.some.inj (code.symm.trans code')
      exact ⟨y', there, run⟩
    · refine iff_of_false (copied_ne old) fun back => ?_
      rcases Schema.handedBack_tuple.mp back with idle | ⟨sparing, -⟩
      · exact absurd (Schema.idleElems_iff.mpr idle) (by simpa [Schema.idle] using busy)
      · exact sparing
    · rw [recast_tuple_iff, array_content_iff
        (fun j x => ∃ elem, elems[j]? = some elem ∧ Recast options elem x) size' length'
        fun j x found => by
          obtain ⟨elem, c, y, y', here, code, one, run, answer⟩ := answered j x found
          obtain ⟨z, there, c', code', run'⟩ := both j x found
          obtain rfl := Option.some.inj (code.symm.trans code')
          obtain rfl := Except.ok.inj (run.symm.trans run')
          refine ⟨y, y', one, there, ?_⟩
          rw [answer.content, here]
          simp]
      simp

end WireSchema.Generated
