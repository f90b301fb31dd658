import WireSchema.Proofs.Convert.Layouts
import WireSchema.Proofs.Convert.Parts

/-!
What is copied when values are converted. A container is made anew exactly if something changes in
it, and everything else is what it was.
-/

set_option autoImplicit false

namespace WireSchema.Schema

open WireSchema.Convert
open WireSchema.Update (property kindKey valueKey Keeps items)
open WireSchema.Value (MadeAt)

variable {engine : Engine} {fresh : Origin} {schema part : Schema} {v r y : Value} {step : Step}

private theorem trust_keeps {l : Leaf} (same : (l.trust fresh v).same v = true) :
    l.trust fresh v = v := by
  cases l with
  | bool | string | int | u32 | i32 | json => rfl
  | number => cases v <;> first | rfl | simp [Leaf.trust, Leaf.trustNumber, Value.same] at same
  | bigint | u64 | i64 =>
    simp only [Leaf.trust, Leaf.trustBigint] at same ⊢
    split
    · next s =>
      dsimp only at same
      split at same <;> simp_all [Value.same]
    · next x =>
      dsimp only at same
      split at same <;> simp_all [Value.same]
    · rfl
  | date =>
    simp only [Leaf.trust, Leaf.trustDate] at same ⊢
    split
    · next s =>
      dsimp only at same
      split at same <;> simp_all [Value.same]
    · rfl
  | temporal kind =>
    simp only [Leaf.trust, Leaf.trustTemporal] at same ⊢
    split
    · next s =>
      dsimp only at same
      split at same <;> simp_all [Value.same]
    · rfl

private theorem truster_discerning (schema : Schema) : Discerning (Engine.trust.convert schema) := by
  induction schema using byParts with
  | leaf l =>
    intro fresh v old r done same
    obtain rfl := Except.ok.inj done
    exact trust_keeps same
  | option inner ih =>
    intro fresh v old r done same
    simp only [Engine.convert, truster] at done
    split at done
    · next empty => rw [Value.isAbsent_eq_true.mp empty, ← Except.ok.inj done]
    · exact ih fresh v old r done same
  | array item _ =>
    intro fresh v old r done same
    rcases Engine.convert_array done with ⟨origin, values, rfl, made⟩ | ⟨kept, -⟩
    · exact keeps_of_array_shape old (items_shape made) same
    · exact kept
  | tuple elems _ =>
    intro fresh v old r done same
    rcases Engine.convert_tuple done with ⟨origin, values, f, rfl, made, -⟩ | ⟨kept, -⟩
    · exact keeps_of_array_shape old (items_shape made) same
    · exact kept
  | object fields _ =>
    intro fresh v old r done same
    rcases Engine.convert_object done with ⟨-, -, -, made⟩ | ⟨kept, -⟩
    · exact convertProperties_discerning _ fresh v old r made same
    · exact kept
  | choice variants _ =>
    intro fresh v old r done same
    rcases Engine.convert_choice done with ⟨origin, entries, kind, rfl, -, landed⟩ | ⟨kept, -⟩
    · cases declared : Entries.get? kind variants with
      | none => rw [declared] at landed; exact landed
      | some payload =>
        rw [declared] at landed
        cases payload with
        | none => exact landed
        | some payload =>
          rcases landed with ⟨fields, -, made⟩ | ⟨-, mapped, -, shape⟩
          · exact convertProperties_discerning _ fresh _ old r made same
          · refine keeps_of_object_shape old ?_ same
            split at shape
            · exact Or.inl shape
            · exact Or.inr ⟨_, shape⟩
    · exact kept

theorem Engine.convert_discerning (engine : Engine) (schema : Schema) :
    Discerning (engine.convert schema) := by
  cases engine with
  | read => exact reader_discerning schema
  | write options => exact writer_discerning options schema
  | trust => exact truster_discerning schema

theorem Engine.field_discerning {fields : List (String × Schema)} {key : String}
    {c : Conversion Fault} (member : (key, c) ∈ Entries.mapValues engine.field fields) :
    Discerning c := by
  obtain ⟨field, -, rfl⟩ := Entries.mem_mapValues.mp member
  exact fun fresh v old r done => engine.convert_discerning field fresh v old r
    (Engine.field_eq_ok done)

theorem Engine.keeps_each (engine : Engine) (item : Schema) {origin : Origin} {values : List Value}
    (old : (Value.array origin values).Predates fresh) : ∀ j, ∀ x ∈ values,
      Keeps (located (.index j) (engine.convert item (fresh.enter (.index j)) x)) x :=
  fun _ x member y done same => engine.convert_discerning item _ x ((old.item member).enter _) y
    (located_eq_ok.mp done) same

theorem Engine.keeps_elems (engine : Engine) {elems : List Schema} {origin : Origin}
    {values : List Value} (old : (Value.array origin values).Predates fresh)
    {f : Nat → Value → Except Fault Value}
    (known : ∀ j x, f j x = (elems.map engine.convert)[j]?.elim (.ok x) fun elem =>
      located (.index j) (elem (fresh.enter (.index j)) x)) : ∀ j, ∀ x ∈ values, Keeps (f j x) x := by
  refine keeps_positions (fun c member => ?_) old known
  obtain ⟨elem, -, rfl⟩ := List.mem_map.mp member
  exact engine.convert_discerning elem

/-- A compound and its parts: each part that is entered is converted, and the compound is made anew
only for a part that is not what it was. -/
structure Assembled (engine : Engine) (fresh : Origin) (schema : Schema) (v r : Value) : Prop where
  parts : ∀ {step : Step} {part : Schema} {y : Value}, Enters schema v step part y →
    engine.convert part (fresh.enter step) y = .ok (r.part step)
  whole : r = v ∨ r.MadeAt fresh ∧ ∃ step part y, Enters schema v step part y ∧ r.part step ≠ y

private theorem assembled_of_kept (none : ∀ step part y, ¬Enters schema v step part y) :
    Assembled engine fresh schema v v where
  parts := fun {step part y} enters => absurd enters (none step part y)
  whole := Or.inl rfl

private theorem assembled_array {item : Schema} (old : v.Predates fresh)
    (done : engine.convert (.array item) fresh v = .ok r) :
    Assembled engine fresh (.array item) v r := by
  rcases Engine.convert_array done with ⟨origin, values, rfl, made⟩ | ⟨rfl, other⟩
  · obtain ⟨each, whole⟩ := Update.items_parts (engine.keeps_each item old) made
    refine ⟨?_, whole.imp_right fun ⟨made, j, x, found, differ⟩ => ?_⟩
    · intro step part y enters
      cases enters with
      | item found => exact located_eq_ok.mp (each _ _ found)
    · exact ⟨made, .index j, item, x, .item found, differ⟩
  · refine assembled_of_kept fun step part y enters => ?_
    cases enters with
    | item _ => exact other _ _ rfl

private theorem assembled_tuple {elems : List Schema} (old : v.Predates fresh)
    (done : engine.convert (.tuple elems) fresh v = .ok r) :
    Assembled engine fresh (.tuple elems) v r := by
  rcases Engine.convert_tuple done with ⟨origin, values, f, rfl, made, known⟩ | ⟨rfl, other⟩
  · obtain ⟨each, whole⟩ := Update.items_parts (engine.keeps_elems old known) made
    refine ⟨?_, whole.imp_right ?_⟩
    · intro step part y enters
      cases enters with
      | elem here found =>
        have answer := each _ _ found
        rw [known, List.getElem?_map, here] at answer
        exact located_eq_ok.mp answer
    · rintro ⟨made, j, x, found, differ⟩
      have answer := each j x found
      rw [known, List.getElem?_map] at answer
      cases here : elems[j]? with
      | none =>
        rw [here] at answer
        exact absurd (Except.ok.inj answer).symm differ
      | some elem => exact ⟨made, .index j, elem, x, .elem here found, differ⟩
  · refine assembled_of_kept fun step part y enters => ?_
    cases enters with
    | elem _ _ => exact other _ _ rfl

-- In an object and beside the name of a variant the declared properties are entered alike.
private theorem assembled_fields {fields : List (String × Schema)} {origin : Origin}
    {entries : List (String × Value)} (names : Entries.Distinct fields)
    (old : (Value.object origin entries).Predates fresh)
    (tidy : (Value.object origin entries).Proper)
    (made : convertProperties (Entries.mapValues engine.field fields) fresh
      (.object origin entries) = .ok r)
    (enters : ∀ step part y, Enters schema (.object origin entries) step part y ↔
      ∃ key, step = .key key ∧ (key, part) ∈ fields ∧ y = property key entries) :
    Assembled engine fresh schema (.object origin entries) r := by
  obtain ⟨each, whole⟩ := convertProperties_parts (names.mapValues engine.field)
    (fun key c => Engine.field_discerning) old tidy made
  refine ⟨?_, whole.imp_right ?_⟩
  · intro step part y entered
    obtain ⟨key, rfl, member, rfl⟩ := (enters step part y).mp entered
    exact Engine.field_eq_ok (each key _ (Entries.mem_mapValues.mpr ⟨part, member, rfl⟩))
  · rintro ⟨made, key, c, member, differ⟩
    obtain ⟨field, declared, -⟩ := Entries.mem_mapValues.mp member
    exact ⟨made, .key key, field, _, (enters _ _ _).mpr ⟨key, rfl, declared, rfl⟩, differ⟩

private theorem assembled_object {fields : List (String × Schema)} (old : v.Predates fresh)
    (proper : (Schema.object fields).Proper) (tidy : v.Proper)
    (done : engine.convert (.object fields) fresh v = .ok r) :
    Assembled engine fresh (.object fields) v r := by
  rcases Engine.convert_object done with ⟨origin, entries, rfl, made⟩ | ⟨rfl, other⟩
  · cases proper with
    | object names _ =>
      refine assembled_fields names old tidy made fun step part y => ⟨fun enters => ?_, ?_⟩
      · cases enters with
        | field member => exact ⟨_, rfl, member, rfl⟩
      · rintro ⟨key, rfl, member, rfl⟩
        exact .field member
  · refine assembled_of_kept fun step part y enters => ?_
    cases enters with
    | field _ => exact other _ _ rfl

private theorem assembled_held {variants : List (String × Option Schema)} {payload : Schema}
    {origin : Origin} {entries : List (String × Value)} {kind : String} {mapped : Value}
    (old : (Value.object origin entries).Predates fresh)
    (named : property kindKey entries = .string kind)
    (declared : Entries.get? kind variants = some (some payload))
    (held : payload.isObject = false)
    (made : engine.convert payload (fresh.enter (.key valueKey)) (property valueKey entries) =
      .ok mapped) :
    Assembled engine fresh (.choice variants) (.object origin entries)
      (if mapped.same (property valueKey entries) then .object origin entries
        else Update.variantValue fresh kind mapped) := by
  have entered : ∀ {step : Step} {part : Schema} {y : Value},
      Enters (.choice variants) (.object origin entries) step part y →
        step = .key valueKey ∧ part = payload ∧ y = property valueKey entries := by
    intro step part y enters
    cases enters with
    | spread named' declared' _ =>
      obtain rfl := Value.string.inj (named.symm.trans named')
      obtain rfl := Option.some.inj (Option.some.inj (declared.symm.trans declared'))
      simp [isObject] at held
    | held named' declared' _ =>
      obtain rfl := Value.string.inj (named.symm.trans named')
      obtain rfl := Option.some.inj (Option.some.inj (declared.symm.trans declared'))
      exact ⟨rfl, rfl, rfl⟩
  split
  · next same =>
    obtain rfl := engine.convert_discerning payload _ _ ((old.property valueKey).enter _) mapped
      made same
    refine ⟨fun enters => ?_, Or.inl rfl⟩
    obtain ⟨rfl, rfl, rfl⟩ := entered enters
    exact made
  · next differ =>
    have shown : (Update.variantValue fresh kind mapped).part (.key valueKey) = mapped :=
      Update.property_setProperty (by simp [Entries.Distinct])
    refine ⟨fun enters => ?_, Or.inr ⟨Or.inr ⟨_, rfl⟩, ?_⟩⟩
    · obtain ⟨rfl, rfl, rfl⟩ := entered enters
      rw [shown, made]
    · refine ⟨.key valueKey, payload, _, .held named declared held, ?_⟩
      rw [shown]
      rintro rfl
      exact differ (Value.same_refl _)

private theorem assembled_choice {variants : List (String × Option Schema)} (old : v.Predates fresh)
    (proper : (Schema.choice variants).Proper) (tidy : v.Proper)
    (done : engine.convert (.choice variants) fresh v = .ok r) :
    (Alters engine fresh (.choice variants) v ∧ r ≠ v) ∨
      ¬Alters engine fresh (.choice variants) v ∧ Assembled engine fresh (.choice variants) v r := by
  rcases Engine.convert_choice done with ⟨origin, entries, kind, rfl, named, landed⟩ | ⟨rfl, other⟩
  · cases declared : Entries.get? kind variants with
    | none =>
      have missing := Entries.get?_eq_none_iff.mp declared
      rw [declared, Engine.Lands] at landed
      cases drops : engine.drops with
      | true =>
        refine Or.inl ⟨.dropped drops named missing, ?_⟩
        rw [landed, drops]
        simp
      | false =>
        rw [drops] at landed
        obtain rfl : r = .object origin entries := landed
        refine Or.inr ⟨fun alters => ?_, assembled_of_kept fun step part y enters => ?_⟩
        · cases alters with
          | dropped drops' _ _ => simp [drops] at drops'
        · cases enters with
          | spread named' declared' _ =>
            obtain rfl := Value.string.inj (named.symm.trans named')
            simp [declared] at declared'
          | held named' declared' _ =>
            obtain rfl := Value.string.inj (named.symm.trans named')
            simp [declared] at declared'
    | some payload =>
      have there := Entries.mem_names_of_get? declared
      rw [declared] at landed
      refine Or.inr ⟨fun alters => ?_, ?_⟩
      · cases alters with
        | dropped _ named' missing =>
          obtain rfl := Value.string.inj (named.symm.trans named')
          exact missing there
      cases payload with
      | none =>
        obtain rfl : r = .object origin entries := landed
        refine assembled_of_kept fun step part y enters => ?_
        cases enters with
        | spread named' declared' _ =>
          obtain rfl := Value.string.inj (named.symm.trans named')
          simp [declared] at declared'
        | held named' declared' _ =>
          obtain rfl := Value.string.inj (named.symm.trans named')
          simp [declared] at declared'
      | some payload =>
        rcases landed with ⟨fields, rfl, made⟩ | ⟨held, mapped, made, rfl⟩
        · cases proper.payload declared with
          | object names _ =>
            refine assembled_fields names old tidy made fun step part y => ⟨fun enters => ?_, ?_⟩
            · cases enters with
              | spread named' declared' member =>
                obtain rfl := Value.string.inj (named.symm.trans named')
                obtain rfl : fields = _ := by simpa [declared] using declared'
                exact ⟨_, rfl, member, rfl⟩
              | held named' declared' held =>
                obtain rfl := Value.string.inj (named.symm.trans named')
                obtain rfl := Option.some.inj (Option.some.inj (declared.symm.trans declared'))
                simp [isObject] at held
            · rintro ⟨key, rfl, member, rfl⟩
              exact .spread named declared member
        · exact assembled_held old named declared held made
  · refine Or.inr ⟨fun alters => ?_, assembled_of_kept fun step part y enters => ?_⟩
    · cases alters with
      | dropped _ named _ => exact other _ _ _ rfl named
    · cases enters with
      | spread named _ _ => exact other _ _ _ rfl named
      | held named _ _ => exact other _ _ _ rfl named

theorem Enters.assembled (enters : Enters schema v step part y) (proper : schema.Proper)
    (old : v.Predates fresh) (tidy : v.Proper) (done : engine.convert schema fresh v = .ok r) :
    Assembled engine fresh schema v r := by
  have undropped : ∀ {variants : List (String × Option Schema)} {origin : Origin}
      {entries : List (String × Value)} {kind : String} {payload : Option Schema},
      property kindKey entries = .string kind → Entries.get? kind variants = some payload →
      ¬Alters engine fresh (.choice variants) (.object origin entries) := by
    intro variants origin entries kind payload named declared alters
    cases alters with
    | dropped _ named' missing =>
      obtain rfl := Value.string.inj (named.symm.trans named')
      exact missing (Entries.mem_names_of_get? declared)
  cases enters with
  | item _ => exact assembled_array old done
  | elem _ _ => exact assembled_tuple old done
  | field _ => exact assembled_object old proper tidy done
  | spread named declared _ =>
    rcases assembled_choice old proper tidy done with ⟨alters, -⟩ | ⟨-, assembled⟩
    · exact absurd alters (undropped named declared)
    · exact assembled
  | held named declared _ =>
    rcases assembled_choice old proper tidy done with ⟨alters, -⟩ | ⟨-, assembled⟩
    · exact absurd alters (undropped named declared)
    · exact assembled

theorem Visits.predates {p : Path} {s : Schema} {x : Value} (visits : Visits schema v p s x)
    (old : v.Predates fresh) : x.Predates (fresh.walk p) := by
  rw [← visits.walk_eq]
  exact (old.walk p).below p

private theorem convert_option {inner : Schema} (there : v ≠ .absent)
    (done : engine.convert (.option inner) fresh v = .ok r) : engine.convert inner fresh v = .ok r := by
  have present : v.isAbsent = false := Value.isAbsent_eq_false.mpr there
  cases engine with
  | read => simpa [Engine.convert, reader, present] using done
  | trust => simpa [Engine.convert, truster, present] using done
  | write options => simpa [Engine.convert, writer, present] using done

theorem Visits.converted {p : Path} {s : Schema} {x : Value} (visits : Visits schema v p s x)
    (proper : schema.Proper) (old : v.Predates fresh) (tidy : v.Proper)
    (done : engine.convert schema fresh v = .ok r) :
    engine.convert s (fresh.walk p) x = .ok (r.walk p) := by
  induction visits generalizing fresh r with
  | here => exact done
  | option there _ ih =>
    cases proper with
    | option inner => exact ih inner old tidy (convert_option there done)
  | @enter schema v step part y rest s x enters visits ih =>
    have made := (enters.assembled proper old tidy done).parts enters
    exact ih (enters.proper proper) (enters.predates old) (enters.tidy tidy) made

def Unchanged (engine : Engine) (schema : Schema) : Prop :=
  schema.Proper → ∀ fresh v r, v.Predates fresh → v.Proper →
    engine.convert schema fresh v = .ok r → (r = v ↔ ∀ p, ¬Changed engine fresh schema v p)

private theorem unchanged_of_assembled (parts : ∀ {step : Step} {part : Schema} {y : Value},
      Enters schema v step part y → Unchanged engine part) (proper : schema.Proper)
    (old : v.Predates fresh) (tidy : v.Proper) (solid : ∀ inner, schema ≠ .option inner)
    (unaltered : ¬Alters engine fresh schema v) (assembled : Assembled engine fresh schema v r) :
    r = v ↔ ∀ p, ¬Changed engine fresh schema v p := by
  have below : ∀ {step : Step} {part : Schema} {y : Value}, Enters schema v step part y →
      (r.part step = y ↔ ∀ p, ¬Changed engine (fresh.enter step) part y p) := by
    intro step part y enters
    exact parts enters (enters.proper proper) _ y _ (enters.predates old) (enters.tidy tidy)
      (assembled.parts enters)
  constructor
  · rintro rfl p ⟨s, x, visits, alters⟩
    cases visits with
    | here => exact unaltered alters
    | option _ _ => exact solid _ rfl
    | enter enters visits => exact (below enters).mp enters.part_eq _ ⟨s, x, visits, alters⟩
  · intro none
    refine assembled.whole.resolve_right ?_
    rintro ⟨-, step, part, y, enters, differ⟩
    refine differ ((below enters).mpr ?_)
    rintro p ⟨s, x, visits, alters⟩
    exact none (step :: p) ⟨s, x, .enter enters visits, alters⟩

theorem unchanged (engine : Engine) (schema : Schema) : Unchanged engine schema := by
  induction schema using byLayout with
  | leaf l =>
    intro _ fresh v r old _ done
    have made : engine.leaf l fresh v = .ok r := by
      cases engine <;> exact done
    constructor
    · rintro rfl p ⟨s, x, visits, alters⟩
      cases visits with
      | here =>
        cases alters with
        | leaf made' differ =>
          obtain rfl := Except.ok.inj (made.symm.trans made')
          simp at differ
      | enter enters _ => cases enters
    · intro none
      by_contra differ
      refine none [] ⟨_, _, .here, .leaf made (Bool.eq_false_iff.mpr fun same => ?_)⟩
      exact differ (engine.convert_discerning (.leaf l) fresh v old r done same)
  | option inner ih =>
    intro proper fresh v r old tidy done
    by_cases missing : v = .absent
    · subst missing
      have kept : r = .absent := by
        cases engine <;> exact (Except.ok.inj done).symm
      refine iff_of_true kept ?_
      rintro p ⟨s, x, visits, alters⟩
      cases visits with
      | here => cases alters
      | option there _ => exact there rfl
      | enter enters _ => cases enters
    · cases proper with
      | option proper =>
        rw [ih proper fresh v r old tidy (convert_option missing done)]
        refine forall_congr' fun p => not_congr ⟨?_, ?_⟩
        · rintro ⟨s, x, visits, alters⟩
          exact ⟨s, x, .option missing visits, alters⟩
        · rintro ⟨s, x, visits, alters⟩
          cases visits with
          | here => cases alters
          | option _ visits => exact ⟨s, x, visits, alters⟩
          | enter enters _ => cases enters
  | array item ih =>
    intro proper fresh v r old tidy done
    refine unchanged_of_assembled (fun enters => ?_) proper old tidy (by simp) (fun alters => ?_)
      (assembled_array old done)
    · cases enters with
      | item _ => exact ih
    · cases alters
  | tuple elems ih =>
    intro proper fresh v r old tidy done
    refine unchanged_of_assembled (fun enters => ?_) proper old tidy (by simp) (fun alters => ?_)
      (assembled_tuple old done)
    · cases enters with
      | elem here _ => exact ih _ (List.mem_of_getElem? here)
    · cases alters
  | object fields ih =>
    intro proper fresh v r old tidy done
    refine unchanged_of_assembled (fun enters => ?_) proper old tidy (by simp) (fun alters => ?_)
      (assembled_object old proper tidy done)
    · cases enters with
      | field member => exact ih _ _ member
    · cases alters
  | choice variants held spread =>
    intro proper fresh v r old tidy done
    rcases assembled_choice old proper tidy done with ⟨alters, differ⟩ | ⟨unaltered, assembled⟩
    · exact iff_of_false differ fun none => none [] ⟨_, _, .here, alters⟩
    · refine unchanged_of_assembled (fun enters => ?_) proper old tidy (by simp) unaltered assembled
      cases enters with
      | spread _ declared member => exact spread _ _ (Entries.mem_of_get? declared) _ _ member
      | held _ declared _ => exact held _ _ (Entries.mem_of_get? declared)

/-- The containers on the way to a changed place are made anew. -/
theorem Changed.remade {q rest : Path} (changed : Changed engine fresh schema v (q ++ step :: rest))
    (proper : schema.Proper) (old : v.Predates fresh) (tidy : v.Proper)
    (done : engine.convert schema fresh v = .ok r) : (r.walk q).MadeAt (fresh.walk q) := by
  obtain ⟨s, x, visits, alters⟩ := changed
  obtain ⟨t, y, part, z, first, enters, last⟩ := visits.split
  have made := first.converted proper old tidy done
  have older := first.predates old
  rcases (enters.assembled (first.proper proper) older (first.tidy tidy) made).whole with
    kept | ⟨remade, -⟩
  · -- what is kept has nothing changed further in
    have none := (unchanged engine t (first.proper proper) _ y _ older (first.tidy tidy) made).mp kept
    refine absurd ⟨s, x, .enter enters last, ?_⟩ (none (step :: rest))
    rwa [← Origin.walk_append]
  · exact remade

/-- Exactly what changes is copied. A conversion gives back the input itself if and only if no
visited place is changed. Where nothing is changed, at a visited place or further in, the result
holds what the input holds. On the way to a changed place every container is one that the input does
not hold anywhere. -/
theorem run_copies_exactly (engine : Engine) {schema : Schema} (proper : schema.Proper)
    {input result : Value} (tidy : input.Proper) (done : engine.run schema input = .ok result) :
    (result.same input = true ↔ ∀ p, ¬Changed engine input.freshOrigin schema input p) ∧
    (∀ p s x, Visits schema input p s x →
      (∀ q, ¬Changed engine input.freshOrigin schema input (p ++ q)) →
        result.walk p = input.walk p) ∧
    ∀ q step rest, Changed engine input.freshOrigin schema input (q ++ step :: rest) →
      (result.walk q).isContainer = true ∧
        ∀ p, (result.walk q).sharesHandle (input.walk p) = false := by
  have old := input.predates_freshOrigin
  rw [Engine.run_eq] at done
  refine ⟨?_, fun p s x visits none => ?_, fun q step rest changed => ?_⟩
  · rw [← unchanged engine schema proper _ input result old tidy done]
    constructor
    · exact engine.convert_discerning schema _ input old result done
    · rintro rfl
      exact Value.same_refl _
  · have made := visits.converted proper old tidy done
    rw [visits.walk_eq]
    refine (unchanged engine s (visits.proper proper) _ x _ (visits.predates old)
      (visits.tidy tidy) made).mpr fun q changed => none q ?_
    exact changed.below visits
  · have made := changed.remade proper old tidy done
    exact ⟨made.isContainer, fun p => made.sharesHandle_eq_false ((old.walk p).below q)⟩

/-- A pair of which the second part is dropped, since its variant is not declared. -/
theorem run_copies_exactly_dropped :
    let engine : Engine := .write { WriteOptions.off with choiceFallthrough := true }
    let schema : Schema := .tuple [.array (.leaf .number), .choice [("a", none)]]
    let input : Value := .array (.root 0)
      [.array (.root 1) [.number (.ofInt 1)], .object (.root 2) [("kind", .string "b")]]
    let result : Value := .array (.root 3) [.array (.root 1) [.number (.ofInt 1)], .absent]
    schema.Proper ∧ input.Proper ∧ engine.run schema input = .ok result ∧
      Changed engine input.freshOrigin schema input [.index 1] ∧ result.same input = false ∧
        ∀ p, result.sharesHandle (input.walk p) = false := by
  intro engine schema input result
  have proper : schema.Proper := by decide +zetaReduce
  have tidy : input.Proper := by decide +zetaReduce
  have done : engine.run schema input = .ok result := rfl
  have changed : Changed engine input.freshOrigin schema input [.index 1] :=
    ⟨.choice [("a", none)], .object (.root 2) [("kind", .string "b")], .enter (.elem rfl rfl) .here,
      .dropped rfl rfl (by decide)⟩
  obtain ⟨kept, -, remade⟩ := run_copies_exactly engine proper tidy done
  refine ⟨proper, tidy, done, changed, ?_, (remade [] (.index 1) [] changed).2⟩
  exact Bool.eq_false_iff.mpr fun same => kept.mp same _ changed

end WireSchema.Schema
