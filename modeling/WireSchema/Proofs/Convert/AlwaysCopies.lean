import WireSchema.Proofs.Convert.CopyOnWrite

/-!
Schemas under which writing always copies. Every part that is entered always copies too, and a leaf
that is reached becomes a text; so the input comes back only where no leaf is reached at all.
-/

set_option autoImplicit false

namespace WireSchema.Schema

open WireSchema.Convert
open WireSchema.Leaf (isText)
open WireSchema.Update (property kindKey valueKey)

variable {schema part s : Schema} {v w x y : Value} {step : Step} {p q : Path}
  {options : WriteOptions}

theorem alwaysCopies_of_mem_elems {elems : List Schema} (copy : allElemsCopy elems = true)
    (member : part ∈ elems) : part.alwaysCopies = true := by
  induction elems with
  | nil => cases member
  | cons elem rest ih =>
    rw [allElemsCopy, Bool.and_eq_true] at copy
    rcases List.mem_cons.mp member with rfl | member
    · exact copy.1
    · exact ih copy.2 member

theorem alwaysCopies_of_mem_fields {fields : List (String × Schema)} {key : String} {field : Schema}
    (copy : allFieldsCopy fields = true) (member : (key, field) ∈ fields) :
    field.alwaysCopies = true := by
  induction fields with
  | nil => cases member
  | cons first rest ih =>
    rw [allFieldsCopy, Bool.and_eq_true] at copy
    rcases List.mem_cons.mp member with rfl | member
    · exact copy.1
    · exact ih copy.2 member

theorem exists_payload_of_mem_variants {variants : List (String × Option Schema)} {kind : String}
    {declared : Option Schema} (copy : allVariantsCopy variants = true)
    (member : (kind, declared) ∈ variants) :
    ∃ payload, declared = some payload ∧ payload.alwaysCopies = true := by
  induction variants with
  | nil => cases member
  | cons first rest ih =>
    obtain ⟨name, payload⟩ := first
    cases payload with
    | none => cases copy
    | some payload =>
      rw [allVariantsCopy, Bool.and_eq_true] at copy
      rcases List.mem_cons.mp member with same | member
      · obtain ⟨rfl, rfl⟩ := Prod.mk.inj same
        exact ⟨payload, rfl, copy.1⟩
      · exact ih copy.2 member

theorem alwaysCopies_payload {variants : List (String × Option Schema)} {kind : String}
    {payload : Schema} (copy : allVariantsCopy variants = true)
    (declared : Entries.get? kind variants = some (some payload)) : payload.alwaysCopies = true := by
  obtain ⟨_, same, copies⟩ := exists_payload_of_mem_variants copy (Entries.mem_of_get? declared)
  obtain rfl := Option.some.inj same
  exact copies

theorem Enters.alwaysCopies (enters : Enters schema v step part y)
    (copies : schema.alwaysCopies = true) : part.alwaysCopies = true := by
  cases enters with
  | item _ => exact copies
  | elem here _ => exact alwaysCopies_of_mem_elems copies (List.mem_of_getElem? here)
  | field member => exact alwaysCopies_of_mem_fields copies member
  | spread _ declared member =>
    exact alwaysCopies_of_mem_fields (alwaysCopies_payload copies declared) member
  | held _ declared _ => exact alwaysCopies_payload copies declared

theorem Visits.alwaysCopies (visits : Visits schema v p s x)
    (copies : schema.alwaysCopies = true) : s.alwaysCopies = true := by
  induction visits with
  | here => exact copies
  | option _ _ _ => cases copies
  | enter enters _ ih => exact ih (enters.alwaysCopies copies)

/-- No leaf is reached in a value. It is an empty array, an array for no elements, or an object for
no fields, alone or beside the name of its variant; or parts of it are entered, and no leaf is
reached in any of them. -/
inductive Hollow : Schema → Value → Prop where
  | array {item : Schema} {origin : Origin} : Hollow (.array item) (.array origin [])
  | tuple {origin : Origin} : Hollow (.tuple []) (.array origin [])
  | object {origin : Origin} {entries : List (String × Value)} :
      Hollow (.object []) (.object origin entries)
  | spread {variants : List (String × Option Schema)} {origin : Origin}
      {entries : List (String × Value)} {kind : String} :
      property kindKey entries = .string kind →
      Entries.get? kind variants = some (some (.object [])) →
      Hollow (.choice variants) (.object origin entries)
  | compound {schema : Schema} {v : Value} {step : Step} {part : Schema} {y : Value} :
      Enters schema v step part y →
      (∀ step part y, Enters schema v step part y → Hollow part y) → Hollow schema v

theorem Hollow.leafless (hollow : Hollow schema v) {l : Leaf} : ¬Visits schema v p (.leaf l) x := by
  induction hollow generalizing p with
  | array =>
    intro visits
    cases visits with
    | enter enters _ =>
      cases enters with
      | item found => simp at found
  | tuple =>
    intro visits
    cases visits with
    | enter enters _ =>
      cases enters with
      | elem here _ => simp at here
  | object =>
    intro visits
    cases visits with
    | enter enters _ =>
      cases enters with
      | field member => simp at member
  | spread named declared =>
    intro visits
    cases visits with
    | enter enters _ =>
      cases enters with
      | spread named' declared' member =>
        obtain rfl := Value.string.inj (named.symm.trans named')
        obtain rfl : [] = _ := by simpa [declared] using declared'
        simp at member
      | held named' declared' held =>
        obtain rfl := Value.string.inj (named.symm.trans named')
        obtain rfl := Option.some.inj (Option.some.inj (declared.symm.trans declared'))
        simp [isObject] at held
  | compound entered _ ih =>
    intro visits
    cases visits with
    | here => cases entered
    | option _ _ => cases entered
    | enter enters visits => exact ih _ _ _ enters visits

private theorem hollow_of_ends {fresh : Origin} (copies : schema.alwaysCopies = true)
    (solid : ∀ l, schema ≠ .leaf l) (declared : options.choiceFallthrough = false)
    (done : schema.writer options fresh v = .ok w)
    (ends : ∀ step part y, ¬Enters schema v step part y) : Hollow schema v := by
  cases schema with
  | leaf l => exact absurd rfl (solid l)
  | option inner => cases copies
  | array item =>
    simp only [writer, convertEach, bind_eq_ok, Prod.exists, asArray_eq_ok] at done
    obtain ⟨origin, values, rfl, -⟩ := done
    cases values with
    | nil => exact .array
    | cons x rest => exact absurd (.item rfl) (ends (.index 0) item x)
  | tuple elems =>
    simp only [writer, convertPositions, bind_eq_ok, Prod.exists, asArray_eq_ok] at done
    obtain ⟨origin, values, rfl, done⟩ := done
    split at done
    · next length =>
      rw [elemWriters_eq_map, List.length_map] at length
      cases elems with
      | nil =>
        obtain rfl := List.length_eq_zero_iff.mp length
        exact .tuple
      | cons elem others =>
        cases values with
        | nil => simp at length
        | cons x rest => exact absurd (.elem rfl rfl) (ends (.index 0) elem x)
    · cases done
  | object fields =>
    simp only [writer, convertProperties, bind_eq_ok, Prod.exists, asObject_eq_ok] at done
    obtain ⟨origin, entries, rfl, -⟩ := done
    cases fields with
    | nil => exact .object
    | cons field rest =>
      exact absurd (.field List.mem_cons_self) (ends (.key field.1) field.2 _)
  | choice variants =>
    rw [writer, writeVariant_eq_ok] at done
    obtain ⟨origin, entries, kind, rfl, named, done⟩ := done
    cases found : Entries.get? kind variants with
    | none =>
      rw [found] at done
      exact absurd (declared.symm.trans done.1) (by decide)
    | some payload =>
      obtain ⟨payload, rfl, -⟩ :=
        exists_payload_of_mem_variants copies (Entries.mem_of_get? found)
      cases object : payload.isObject with
      | false => exact absurd (.held named found object) (ends (.key valueKey) payload _)
      | true =>
        obtain ⟨fields, rfl⟩ := isObject_eq_true.mp object
        cases fields with
        | nil => exact .spread named found
        | cons field rest =>
          exact absurd (.spread named found List.mem_cons_self) (ends (.key field.1) field.2 _)

private def HollowsOut (options : WriteOptions) (schema : Schema) : Prop :=
  schema.Proper → schema.alwaysCopies = true → ∀ fresh v w, v.Predates fresh → v.Proper →
    schema.writer options fresh v = .ok w → (∀ p l x, ¬Visits schema v p (.leaf l) x) →
      Hollow schema v

private theorem hollowsOut (declared : options.choiceFallthrough = false) (schema : Schema) :
    HollowsOut options schema := by
  induction schema using byEntered with
  | leaf l =>
    intro _ _ _ v _ _ _ _ leafless
    exact absurd .here (leafless [] l v)
  | option inner _ =>
    intro _ copies
    cases copies
  | compound schema solid _ parts =>
    intro proper copies fresh v w old tidy done leafless
    by_cases entered : ∃ step part y, Enters schema v step part y
    · obtain ⟨step, part, y, enters⟩ := entered
      refine .compound enters fun step part y enters => ?_
      have assembled : Assembled (.write options) fresh schema v w :=
        enters.assembled proper old tidy done
      have made := assembled.parts enters
      apply parts v step part y enters (enters.proper proper) (enters.alwaysCopies copies) _ y _
        (enters.predates old) (enters.tidy tidy) made
      intro p l x visits
      exact leafless (step :: p) l x (.enter enters visits)
    · refine hollow_of_ends copies solid declared done fun step part y enters => ?_
      exact entered ⟨step, part, y, enters⟩

theorem text_of_alwaysCopies {l : Leaf} (copies : (Schema.leaf l).alwaysCopies = true)
    (kept : options.dateTimePassthrough = false) (done : l.write options v = .ok w) :
    isText v = false ∧ isText w = true := by
  cases l with
  | bigint | u64 | i64 =>
    obtain ⟨_, _, rfl, rfl⟩ := Leaf.writeBigint_eq_ok.mp done
    exact ⟨rfl, rfl⟩
  | date =>
    rw [Leaf.write, kept] at done
    obtain ⟨_, rfl, rfl⟩ := Leaf.writeDate_eq_ok.mp done
    exact ⟨rfl, rfl⟩
  | temporal kind =>
    rw [Leaf.write, kept] at done
    obtain ⟨_, rfl, -, rfl⟩ := Leaf.writeTemporal_eq_ok.mp done
    exact ⟨rfl, rfl⟩
  | bool | string | int | u32 | i32 | json | number => cases copies

theorem sharesHandle_of_isText (text : isText v = true) (x : Value) : v.sharesHandle x = false := by
  cases v with
  | string => cases x <;> rfl
  | _ => cases text

section Write

variable {input written : Value} (proper : schema.Proper) (copies : schema.alwaysCopies = true)
  (passed : options.dateTimePassthrough = false) (tidy : input.Proper)
  (done : schema.write options input = .ok written)

include proper copies passed tidy done

theorem Visits.changed {l : Leaf} (visits : Visits schema input p (.leaf l) x) :
    isText (written.walk p) = true ∧
      Changed (.write options) input.freshOrigin schema input p := by
  have old := input.predates_freshOrigin
  have made : (Engine.write options).convert (.leaf l) (input.freshOrigin.walk p) x =
      .ok (written.walk p) := visits.converted proper old tidy done
  obtain ⟨before, after⟩ := text_of_alwaysCopies (visits.alwaysCopies copies) passed made
  have differ : (written.walk p).same x = false := (Leaf.same_eq_false_of_text after before).1
  exact ⟨after, .leaf l, x, visits, .leaf made differ⟩

theorem Visits.apart {l : Leaf} (visits : Visits schema input p (.leaf l) x) (q : Path) :
    written.sharesHandle (input.walk q) = false := by
  have old := input.predates_freshOrigin
  obtain ⟨text, changed⟩ := visits.changed proper copies passed tidy done
  cases p with
  | nil => exact sharesHandle_of_isText text _ -- the leaf is all there is
  | cons step rest =>
    have made : written.MadeAt input.freshOrigin :=
      Changed.remade (q := []) changed proper old tidy done
    exact made.sharesHandle_eq_false (old.walk q)

end Write

/-- Under a schema that always copies, what is written is the very same as the input exactly if no
leaf is reached, and none is reached exactly in values that are empty all through. As soon as one is,
what is written is no part of the input. -/
theorem write_same_iff_leafless (proper : schema.Proper) (copies : schema.alwaysCopies = true)
    (passed : options.dateTimePassthrough = false) (declared : options.choiceFallthrough = false)
    {input written : Value} (tidy : input.Proper)
    (done : schema.write options input = .ok written) :
    (written.same input = true ↔ ∀ p l x, ¬Visits schema input p (.leaf l) x) ∧
      ((∀ p l x, ¬Visits schema input p (.leaf l) x) ↔ Hollow schema input) ∧
      ((∃ p l x, Visits schema input p (.leaf l) x) →
        ∀ q, written.sharesHandle (input.walk q) = false) := by
  have old := input.predates_freshOrigin
  have kept := unchanged (.write options) schema proper _ input written old tidy done
  refine ⟨⟨?_, ?_⟩, ⟨?_, ?_⟩, ?_⟩
  · intro same p l x visits
    have equal := Engine.convert_discerning (.write options) schema _ input old written done same
    exact kept.mp equal p (visits.changed proper copies passed tidy done).2
  · intro leafless
    have equal : written = input := by
      refine kept.mpr fun p changed => ?_
      obtain ⟨s, x, visits, alters⟩ := changed
      cases alters with
      | leaf _ _ => exact leafless p _ x visits
      | dropped drops _ _ => exact absurd (declared.symm.trans drops) (by decide)
    rw [equal]
    exact Value.same_refl input
  · exact hollowsOut declared schema proper copies _ input written old tidy done
  · exact fun hollow _ _ _ => hollow.leafless
  · rintro ⟨p, l, x, visits⟩ q
    exact visits.apart proper copies passed tidy done q

theorem write_same_iff_leafless_held :
    let schema : Schema :=
      .tuple [.array (.leaf .i64), .choice [("at", some (.tuple [.leaf .u64]))]]
    let input : Value := .array (.root 0) [.array (.root 1) [],
      .object (.root 2) [("kind", .string "at"), ("value", .array (.root 3) [.bigint (.root 4) 5])]]
    schema.Proper ∧ schema.alwaysCopies = true ∧ input.Proper ∧
      ∃ written, schema.write .off input = .ok written ∧ written.same input = false ∧
        ¬Hollow schema input ∧ ∀ q, written.sharesHandle (input.walk q) = false := by
  intro schema input
  have proper : schema.Proper := by decide +zetaReduce
  have tidy : input.Proper := by decide +zetaReduce
  have visits : Visits schema input [.index 1, .key valueKey, .index 0] (.leaf .u64)
      (.bigint (.root 4) 5) :=
    .enter (.elem rfl rfl) (.enter (.held rfl rfl rfl) (.enter (.elem rfl rfl) .here))
  obtain ⟨written, done⟩ : ∃ written, schema.write .off input = .ok written := ⟨_, rfl⟩
  obtain ⟨same, hollow, apart⟩ := write_same_iff_leafless proper rfl rfl rfl tidy done
  refine ⟨proper, rfl, tidy, written, done, ?_, ?_, apart ⟨_, _, _, visits⟩⟩
  · exact Bool.eq_false_iff.mpr fun kept => same.mp kept _ _ _ visits
  · exact fun empty => hollow.mpr empty _ _ _ visits

end WireSchema.Schema
