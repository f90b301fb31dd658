import WireSchema.Proofs.Convert.CopyOnWrite

/-!
What the trusting engine has made it leaves alone when it is asked again. It turns nothing into
another text, so what names a variant in a result has named it all along, and a result is entered
only where the input was. There every leaf has been trusted already.
-/

set_option autoImplicit false

namespace WireSchema

namespace Leaf

private theorem trustBigint_trustBigint (fresh later : Origin) (v : Value) :
    trustBigint later (trustBigint fresh v) = trustBigint fresh v := by
  cases v with
  | string s =>
    cases spelt : looseInteger? (Text.trim s.toList) with
    | none => simp [trustBigint, spelt]
    | some n => simp [trustBigint, spelt]
  | number x =>
    cases safe : Value.safeInteger? x with
    | none => simp [trustBigint, safe]
    | some n => simp [trustBigint, safe]
  | _ => rfl

theorem trust_trust (l : Leaf) (fresh later : Origin) (v : Value) :
    l.trust later (l.trust fresh v) = l.trust fresh v := by
  cases l with
  | bool | string | int | u32 | i32 | json => rfl
  | number => cases v <;> rfl
  | bigint | u64 | i64 => exact trustBigint_trustBigint fresh later v
  | date =>
    cases v with
    | string s =>
      cases read : Calendar.readRfc3339? s.toList with
      | none => simp [trust, trustDate, read]
      | some t => simp [trust, trustDate, read]
    | _ => rfl
  | temporal kind =>
    cases v with
    | string s =>
      cases read : Calendar.Temporal.read? kind s.toList with
      | none => simp [trust, trustTemporal, read]
      | some t => simp [trust, trustTemporal, read]
    | _ => rfl

theorem eq_of_trust_text {l : Leaf} {fresh : Origin} {v : Value} {s : String}
    (made : l.trust fresh v = .string s) : v = .string s := by
  cases l with
  | bool | string | int | u32 | i32 | json => exact made
  | number => cases v <;> simp [trust, trustNumber] at made
  | bigint | u64 | i64 | date | temporal _ =>
    simp only [trust, trustBigint, trustDate, trustTemporal] at made
    repeat' split at made
    all_goals first | exact made | simp at made

end Leaf

namespace Schema

open WireSchema.Convert
open WireSchema.Update (property kindKey valueKey items variantValue Keeps)
open WireSchema.Value (MadeAt)

variable {fresh origin : Origin} {schema part : Schema} {v r x : Value} {step : Step}
  {entries : List (String × Value)} {fields : List (String × Schema)}
  {variants : List (String × Option Schema)}

/-- How the trusting engine makes another object of an object of a variant: of its spread payload,
or of what its held payload has become. -/
inductive Turned (fresh origin : Origin) (entries : List (String × Value))
    (variants : List (String × Option Schema)) (kind : String) (r : Value) : Prop where
  | spread {fields : List (String × Schema)} :
      Entries.get? kind variants = some (some (.object fields)) →
      convertProperties (Entries.mapValues Engine.trust.field fields) fresh
        (.object origin entries) = .ok r → Turned fresh origin entries variants kind r
  | held {payload : Schema} {mapped : Value} : Entries.get? kind variants = some (some payload) →
      Engine.trust.convert payload (fresh.enter (.key valueKey)) (property valueKey entries) =
        .ok mapped → r = variantValue fresh kind mapped → Turned fresh origin entries variants kind r

private theorem kept_or_turned (done : Engine.trust.convert (.choice variants) fresh v = .ok r) :
    r = v ∨ ∃ origin entries kind, v = .object origin entries ∧
      property kindKey entries = .string kind ∧ Turned fresh origin entries variants kind r := by
  rcases Engine.convert_choice done with ⟨origin, entries, kind, rfl, named, landed⟩ | ⟨kept, -⟩
  · cases declared : Entries.get? kind variants with
    | none =>
      rw [declared] at landed
      exact Or.inl landed
    | some payload =>
      rw [declared] at landed
      cases payload with
      | none => exact Or.inl landed
      | some payload =>
        rcases landed with ⟨fields, rfl, made⟩ | ⟨-, mapped, made, shape⟩
        · exact Or.inr ⟨origin, entries, kind, rfl, named, .spread declared made⟩
        · split at shape
          · exact Or.inl shape
          · exact Or.inr ⟨origin, entries, kind, rfl, named, .held declared made shape⟩
  · exact Or.inl kept

private theorem exists_object_of_turned {kind : String}
    (turned : Turned fresh origin entries variants kind r) : ∃ o es, r = .object o es := by
  cases turned with
  | spread _ made =>
    obtain ⟨o, es, shape, -⟩ := exists_entries_of_convertProperties made
    exact ⟨o, es, shape⟩
  | held _ _ shape => exact ⟨_, _, shape⟩

/-- The trusting engine turns nothing into another text. -/
theorem eq_of_trusted_text {s : String}
    (done : Engine.trust.convert schema fresh v = .ok (.string s)) : v = .string s := by
  induction schema using byParts with
  | leaf l => exact Leaf.eq_of_trust_text (Except.ok.inj done)
  | option inner ih =>
    simp only [Engine.convert, truster] at done
    split at done
    · simp at done
    · exact ih done
  | array item _ =>
    rcases Engine.convert_array done with ⟨_, _, -, made⟩ | ⟨kept, -⟩
    · rcases items_shape made with made | ⟨_, made⟩ <;> simp at made
    · exact kept.symm
  | tuple elems _ =>
    rcases Engine.convert_tuple done with ⟨_, _, _, -, made, -⟩ | ⟨kept, -⟩
    · rcases items_shape made with made | ⟨_, made⟩ <;> simp at made
    · exact kept.symm
  | object fields _ =>
    rcases Engine.convert_object done with ⟨_, _, rfl, made⟩ | ⟨kept, -⟩
    · obtain ⟨_, _, shape, -⟩ := exists_entries_of_convertProperties made
      simp at shape
    · exact kept.symm
  | choice variants _ =>
    rcases kept_or_turned done with kept | ⟨_, _, _, -, -, turned⟩
    · exact kept.symm
    · obtain ⟨_, _, shape⟩ := exists_object_of_turned turned
      simp at shape

private theorem trusted_property (names : Entries.Distinct fields)
    (old : (Value.object origin entries).Predates fresh)
    (tidy : (Value.object origin entries).Proper)
    (done : convertProperties (Entries.mapValues Engine.trust.field fields) fresh
      (.object origin entries) = .ok r) (key : String) :
    r.get key = property key entries ∨ ∃ field, (key, field) ∈ fields ∧
      Engine.trust.convert field (fresh.enter (.key key)) (property key entries) =
        .ok (r.get key) := by
  have discerning : ∀ key c, (key, c) ∈ Entries.mapValues Engine.trust.field fields →
      Discerning c := fun key c => Engine.field_discerning
  have distinct : Entries.Distinct (Entries.mapValues Engine.trust.field fields) := names.mapValues _
  by_cases declared : key ∈ Entries.names fields
  · obtain ⟨field, found⟩ := Entries.exists_get?_of_mem_names declared
    have member := Entries.mem_of_get? found
    obtain ⟨each, -⟩ := convertProperties_parts distinct discerning old tidy done
    have made := each key _ (Entries.mem_mapValues.mpr ⟨field, member, rfl⟩)
    exact Or.inr ⟨field, member, Engine.field_eq_ok made⟩
  · obtain ⟨-, others⟩ := convertProperties_others distinct discerning old tidy done
    exact Or.inl (others key (by rwa [Entries.names_mapValues]))

private theorem named_before (proper : (Schema.choice variants).Proper) (old : v.Predates fresh)
    (tidy : v.Proper) (done : Engine.trust.convert (.choice variants) fresh v = .ok r)
    {kind : String} (named : r.get kindKey = .string kind) :
    ∃ origin entries, v = .object origin entries ∧ property kindKey entries = .string kind := by
  rcases kept_or_turned done with rfl | ⟨origin, entries, before, rfl, named', turned⟩
  · cases r with
    | object origin entries => exact ⟨origin, entries, rfl, named⟩
    | _ => simp [Value.get] at named
  · refine ⟨origin, entries, rfl, ?_⟩
    cases turned with
    | spread declared made =>
      rcases trusted_property (proper.payload declared).distinct old tidy made kindKey with
        kept | ⟨field, -, asked⟩
      · exact kept.symm.trans named
      · rw [named] at asked
        exact eq_of_trusted_text asked
    | @held payload mapped _ _ shape =>
      rw [shape, Update.get_variantValue] at named
      exact named'.trans named

private theorem length_of_trusted {origin' : Origin} {values values' : List Value}
    {f : Nat → Value → Except Fault Value} (keeps : ∀ j, ∀ y ∈ values, Keeps (f j y) y)
    (done : items fresh f origin values = .ok (.array origin' values')) :
    values'.length = values.length := by
  obtain ⟨o, results, shape, length⟩ := Update.exists_results_of_items keeps done
  obtain ⟨rfl, rfl⟩ := Value.array.inj shape
  exact length

theorem Enters.before (enters : Enters schema r step part x) (proper : schema.Proper)
    (old : v.Predates fresh) (tidy : v.Proper)
    (done : Engine.trust.convert schema fresh v = .ok r) : ∃ y, Enters schema v step part y := by
  cases enters with
  | @item item o results i x found =>
    rcases Engine.convert_array done with ⟨origin, values, rfl, made⟩ | ⟨rfl, -⟩
    · have length := length_of_trusted (Engine.trust.keeps_each _ old) made
      obtain ⟨y, there⟩ := exists_beside length.symm found
      exact ⟨y, .item there⟩
    · exact ⟨_, .item found⟩
  | @elem elems o results i elem x here found =>
    rcases Engine.convert_tuple done with ⟨origin, values, f, rfl, made, known⟩ | ⟨rfl, -⟩
    · have length := length_of_trusted (Engine.trust.keeps_elems old known) made
      obtain ⟨y, there⟩ := exists_beside length.symm found
      exact ⟨y, .elem here there⟩
    · exact ⟨_, .elem here found⟩
  | field member =>
    rcases Engine.convert_object done with ⟨origin, entries, rfl, -⟩ | ⟨rfl, -⟩
    · exact ⟨_, .field member⟩
    · exact ⟨_, .field member⟩
  | spread named declared member =>
    obtain ⟨origin, entries, rfl, before⟩ := named_before proper old tidy done named
    exact ⟨_, .spread before declared member⟩
  | held named declared held =>
    obtain ⟨origin, entries, rfl, before⟩ := named_before proper old tidy done named
    exact ⟨_, .held before declared held⟩

theorem Visits.at_rest {p : Path} {s : Schema} {later : Origin} (visits : Visits schema r p s x)
    (proper : schema.Proper) (old : v.Predates fresh) (tidy : v.Proper)
    (done : Engine.trust.convert schema fresh v = .ok r) : ¬Alters .trust later s x := by
  induction visits generalizing v fresh with
  | here =>
    intro alters
    cases alters with
    | @leaf l _ y made differ =>
      obtain rfl := Except.ok.inj done
      obtain rfl := Except.ok.inj made
      rw [show Schema.truster (.leaf l) fresh v = l.trust fresh v from rfl, Leaf.trust_trust,
        Value.same_refl] at differ
      simp at differ
    | dropped drops _ _ => simp [Engine.drops] at drops
  | option there _ ih =>
    cases proper with
    | option proper =>
      refine ih proper old tidy ?_
      simp only [Engine.convert, truster] at done
      split at done
      · exact absurd (Except.ok.inj done).symm there
      · exact done
  | enter enters _ ih =>
    obtain ⟨y, before⟩ := enters.before proper old tidy done
    have made := (before.assembled proper old tidy done).parts before
    rw [enters.part_eq] at made
    exact ih (before.proper proper) (before.predates old) (before.tidy tidy) made

private theorem proper_of_properties (distinct : Entries.Distinct entries)
    (each : ∀ key, (property key entries).Proper) : (Value.object origin entries).Proper :=
  .object distinct fun key _ member => Value.property_of_mem distinct member ▸ each key

private theorem proper_of_variantValue {kind : String} {mapped : Value} (inside : mapped.Proper) :
    (variantValue fresh kind mapped).Proper := by
  refine proper_of_properties (Update.distinct_variantValue kind mapped) fun key => ?_
  change ((variantValue fresh kind mapped).get key).Proper
  rw [Update.get_variantValue]
  split
  · exact inside
  · split
    · exact .scalar rfl
    · exact .scalar rfl

private theorem proper_of_items {values : List Value} {f : Nat → Value → Except Fault Value}
    (keeps : ∀ j, ∀ y ∈ values, Keeps (f j y) y) (done : items fresh f origin values = .ok r)
    (each : ∀ j y z, values[j]? = some y → f j y = .ok z → z.Proper) : r.Proper := by
  obtain ⟨parts, -⟩ := Update.items_parts keeps done
  obtain ⟨o, results, rfl, length⟩ := Update.exists_results_of_items keeps done
  refine .array fun z member => ?_
  obtain ⟨j, found⟩ := List.mem_iff_getElem?.mp member
  obtain ⟨y, there⟩ := exists_beside length.symm found
  have made := parts j y there
  rw [Value.part_index found] at made
  exact each j y z there made

private theorem proper_of_trust (l : Leaf) (tidy : v.Proper) : (l.trust fresh v).Proper := by
  cases l with
  | bool | string | int | u32 | i32 | json => exact tidy
  | number => cases v <;> exact .scalar rfl
  | bigint | u64 | i64 | date | temporal _ =>
    simp only [Leaf.trust, Leaf.trustBigint, Leaf.trustDate, Leaf.trustTemporal]
    repeat' split
    all_goals first | exact tidy | exact .scalar rfl

def Tidies (schema : Schema) : Prop :=
  schema.Proper → ∀ fresh v r, v.Predates fresh → v.Proper →
    Engine.trust.convert schema fresh v = .ok r → r.Proper

private theorem proper_of_fields (names : Entries.Distinct fields)
    (each : ∀ name field, (name, field) ∈ fields → field.Proper ∧ Tidies field)
    (old : (Value.object origin entries).Predates fresh)
    (tidy : (Value.object origin entries).Proper)
    (done : convertProperties (Entries.mapValues Engine.trust.field fields) fresh
      (.object origin entries) = .ok r) : r.Proper := by
  have properties := trusted_property names old tidy done
  obtain ⟨o, es, rfl, distinct, -⟩ := exists_entries_of_convertProperties done
  refine proper_of_properties (distinct tidy.distinct) fun key => ?_
  rcases properties key with kept | ⟨field, member, made⟩
  · rw [show property key es = property key entries from kept]
    exact tidy.property key
  · obtain ⟨proper, tidies⟩ := each key field member
    exact tidies proper _ _ _ ((old.property key).enter _) (tidy.property key) made

theorem trusted_proper (schema : Schema) : Tidies schema := by
  induction schema using byLayout with
  | leaf l =>
    intro _ fresh v r _ tidy done
    obtain rfl := Except.ok.inj done
    exact proper_of_trust l tidy
  | option inner ih =>
    intro proper fresh v r old tidy done
    cases proper with
    | option proper =>
      simp only [Engine.convert, truster] at done
      split at done
      · exact Except.ok.inj done ▸ .scalar rfl
      · exact ih proper fresh v r old tidy done
  | array item ih =>
    intro proper fresh v r old tidy done
    rcases Engine.convert_array done with ⟨origin, values, rfl, made⟩ | ⟨rfl, -⟩
    · cases proper with
      | array proper =>
        refine proper_of_items (Engine.trust.keeps_each item old) made fun j y z found made => ?_
        have member := List.mem_of_getElem? found
        exact ih proper _ y z ((old.item member).enter _) (tidy.items y member)
          (located_eq_ok.mp made)
    · exact tidy
  | tuple elems ih =>
    intro proper fresh v r old tidy done
    rcases Engine.convert_tuple done with ⟨origin, values, f, rfl, made, known⟩ | ⟨rfl, -⟩
    · cases proper with
      | tuple proper =>
        refine proper_of_items (Engine.trust.keeps_elems old known) made fun j y z found made => ?_
        have member := List.mem_of_getElem? found
        rw [known, List.getElem?_map] at made
        cases here : elems[j]? with
        | none =>
          rw [here] at made
          exact Except.ok.inj made ▸ tidy.items y member
        | some elem =>
          simp only [here, Option.map_some, Option.elim_some, located_eq_ok] at made
          have declared := List.mem_of_getElem? here
          exact ih elem declared (proper elem declared) _ y z ((old.item member).enter _)
            (tidy.items y member) made
    · exact tidy
  | object fields ih =>
    intro proper fresh v r old tidy done
    rcases Engine.convert_object done with ⟨origin, entries, rfl, made⟩ | ⟨rfl, -⟩
    · exact proper_of_fields proper.distinct
        (fun name field member => ⟨proper.field member, ih name field member⟩) old tidy made
    · exact tidy
  | choice variants held spread =>
    intro proper fresh v r old tidy done
    rcases kept_or_turned done with rfl | ⟨origin, entries, kind, rfl, -, turned⟩
    · exact tidy
    · cases turned with
      | spread declared made =>
        have inside := proper.payload declared
        exact proper_of_fields inside.distinct
          (fun name field member => ⟨inside.field member,
            spread kind _ (Entries.mem_of_get? declared) name field member⟩) old tidy made
      | @held payload mapped declared made shape =>
        have inside := held kind payload (Entries.mem_of_get? declared) (proper.payload declared) _ _ _
          ((old.property valueKey).enter _) (tidy.property valueKey) made
        subst shape
        exact proper_of_variantValue inside

/-- What is trusted once is trusted for good: trusting the result again hands back the very same
value, and so the value as it is, to the last handle in it. -/
theorem trust_again {schema : Schema} (proper : schema.Proper) {input : Value}
    (tidy : input.Proper) :
    (schema.trust (schema.trust input)).same (schema.trust input) = true ∧
      schema.trust (schema.trust input) = schema.trust input := by
  have old := input.predates_freshOrigin
  have done : Engine.trust.convert schema input.freshOrigin input = .ok (schema.trust input) := rfl
  generalize schema.trust input = result at *
  have again : Engine.trust.convert schema result.freshOrigin result = .ok (schema.trust result) :=
    rfl
  have kept : schema.trust result = result := by
    refine (unchanged .trust schema proper _ result _ result.predates_freshOrigin
      (trusted_proper schema proper _ _ _ old tidy done) again).mpr ?_
    rintro p ⟨s, x, visits, alters⟩
    exact visits.at_rest proper old tidy done alters
  rw [kept]
  exact ⟨Value.same_refl result, rfl⟩

/-- A number that is missing is added as NaN, and the name of the variant itself becomes a big
integer, so that the result is of no variant. -/
theorem trust_again_unnamed :
    let schema : Schema := .choice [("5", some (.object
      [("kind", .leaf .bigint), ("amount", .leaf .number), ("at", .option (.leaf .date))]))]
    let input : Value := .object (.root 0)
      [("kind", .string "5"), ("at", .string "soon"), ("rest", .array (.root 0) [.absent])]
    let result : Value := .object (.root 1)
      [("kind", .bigint ((Origin.root 1).enter (.key "kind")) 5), ("at", .string "soon"),
        ("rest", .array (.root 0) [.absent]), ("amount", .number .nan)]
    schema.Proper ∧ input.Proper ∧ schema.trust input = result ∧
      (schema.trust result).same result = true ∧ schema.trust result = result := by
  intro schema input result
  have proper : schema.Proper := by decide +zetaReduce
  have tidy : input.Proper := by decide +zetaReduce
  have done : schema.trust input = result := rfl
  exact ⟨proper, tidy, done, done ▸ trust_again proper tidy⟩

end Schema

end WireSchema
