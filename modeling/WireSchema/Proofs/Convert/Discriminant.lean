import WireSchema.Proofs.Convert.CopyOnWrite

/-!
The name of a variant after a conversion. The fields of a spread payload stand beside the name, so a
field that is declared under the very same key is asked about the name itself. Writing leaves it
alone, and the other engines change it only if texts stand for something else under that field.
-/

set_option autoImplicit false

namespace WireSchema

namespace Schema

open WireSchema.Convert
open WireSchema.Update (property kindKey valueKey discriminant variantValue)

/-- The field that stands where the name of a variant does, if its payload declares one. -/
def kindField? (variants : List (String × Option Schema)) (kind : String) : Option Schema :=
  match Entries.get? kind variants with
  | some (some (.object fields)) => Entries.get? kindKey fields
  | _ => none

/-- Leaves whose native values travel as texts, also those that may be left out. -/
def spelled : Schema → Bool
  | .leaf l => l.converts .off
  | .option inner => inner.spelled
  | _ => false

variable {engine : Engine} {fresh : Origin} {s : String} {y : Value}

/-- What an engine has made of a text is the text, and then so wherever it is asked, or it is
something else under a leaf whose values travel as texts. -/
structure Engine.OfText (engine : Engine) (schema : Schema) (s : String) (y : Value) : Prop where
  still : y = .string s → ∀ fresh, engine.convert schema fresh (.string s) = .ok (.string s)
  spelled : y ≠ .string s → (engine = .read ∨ engine = .trust) ∧ schema.spelled = true

private theorem ofText_read {l : Leaf} (done : l.read fresh (.string s) = .ok y) :
    Engine.read.OfText (.leaf l) s y := by
  cases l with
  | bool => simp [Leaf.read, Leaf.readBool, Value.mistyped] at done
  | int | u32 | i32 =>
    simp [Leaf.read, Leaf.readInteger, Value.asNumber, Value.mistyped] at done
  | string | json =>
    obtain rfl := Except.ok.inj done
    exact ⟨fun _ _ => rfl, fun other => absurd rfl other⟩
  | number | date | temporal _ => exact ⟨fun same _ => same ▸ done, fun _ => ⟨Or.inl rfl, rfl⟩⟩
  | bigint | u64 | i64 =>
    obtain ⟨n, -, rfl⟩ := map_eq_ok.mp done
    exact ⟨fun same => by simp at same, fun _ => ⟨Or.inl rfl, rfl⟩⟩

private theorem ofText_trust {l : Leaf} (done : l.trust fresh (.string s) = y) :
    Engine.trust.OfText (.leaf l) s y := by
  cases l with
  | bool | string | int | u32 | i32 | json =>
    exact ⟨fun _ _ => rfl, fun other => absurd done.symm other⟩
  | number | date | temporal _ =>
    exact ⟨fun same _ => congrArg Except.ok (done.trans same), fun _ => ⟨Or.inr rfl, rfl⟩⟩
  | bigint | u64 | i64 =>
    refine ⟨fun same fresh => ?_, fun _ => ⟨Or.inr rfl, rfl⟩⟩
    simp only [Engine.convert, truster, Leaf.trust, Leaf.trustBigint] at done ⊢
    cases found : Leaf.looseInteger? (Text.trim s.toList) with
    | none => rfl
    | some n =>
      rw [found] at done
      simp [← done] at same

private theorem ofText_leaf {l : Leaf} (done : engine.convert (.leaf l) fresh (.string s) = .ok y) :
    engine.OfText (.leaf l) s y := by
  cases engine with
  | read => exact ofText_read done
  | trust => exact ofText_trust (Except.ok.inj done)
  | write options =>
    refine ⟨fun same _ => same ▸ done, fun changed => ?_⟩
    rcases Leaf.eq_or_text_of_write done with kept | ⟨-, native, -⟩
    · exact absurd kept changed
    · simp [Leaf.isText] at native

private theorem ofText_option {inner : Schema} (part : engine.OfText inner s y) :
    engine.OfText (.option inner) s y where
  still same fresh := by
    have kept := part.still same fresh
    cases engine <;> exact kept
  spelled := part.spelled

private theorem ofText_compound {schema : Schema} (solid : ∀ l, schema ≠ .leaf l)
    (there : ∀ inner, schema ≠ .option inner)
    (done : engine.convert schema fresh (.string s) = .ok y) : engine.OfText schema s y := by
  cases schema with
  | leaf l => exact absurd rfl (solid l)
  | option inner => exact absurd rfl (there inner)
  | _ =>
    cases engine with
    | trust => exact ⟨fun _ _ => rfl, fun changed => absurd (Except.ok.inj done).symm changed⟩
    | _ =>
      simp [Engine.convert, reader, writer, convertEach, convertPositions, convertProperties,
        readVariant, writeVariant, discriminant, Value.asArray, Value.asObject, Value.mistyped]
        at done

theorem Engine.ofText {schema : Schema} (done : engine.convert schema fresh (.string s) = .ok y) :
    engine.OfText schema s y := by
  induction schema using byParts with
  | leaf l => exact ofText_leaf done
  | option inner ih =>
    have made : engine.convert inner fresh (.string s) = .ok y := by
      cases engine <;> exact done
    exact ofText_option (ih made)
  | array item _ => exact ofText_compound (by simp) (by simp) done
  | tuple elems _ => exact ofText_compound (by simp) (by simp) done
  | object fields _ => exact ofText_compound (by simp) (by simp) done
  | choice variants _ => exact ofText_compound (by simp) (by simp) done

/-- What becomes of the name of a variant: it is left alone, or its field makes something of it. -/
structure Named (engine : Engine) (variants : List (String × Option Schema)) (kind : String)
    (result : Value) : Prop where
  object : ∃ origin entries, result = .object origin entries
  kept : kindField? variants kind = none → result.get kindKey = .string kind
  asked : ∀ field, kindField? variants kind = some field →
    ∃ fresh, engine.convert field fresh (.string kind) = .ok (result.get kindKey)

variable {variants : List (String × Option Schema)} {kind : String} {origin : Origin}
  {entries : List (String × Value)} {result : Value}

private theorem named_of_kept (none : kindField? variants kind = none)
    (named : property kindKey entries = .string kind) :
    Named engine variants kind (.object origin entries) :=
  ⟨⟨origin, entries, rfl⟩, fun _ => named, fun field some => by simp [none] at some⟩

private theorem named_spread {fields : List (String × Schema)} (distinct : Entries.Distinct fields)
    (old : (Value.object origin entries).Predates fresh)
    (tidy : (Value.object origin entries).Proper)
    (named : property kindKey entries = .string kind)
    (declared : Entries.get? kind variants = some (some (.object fields)))
    (done : convertProperties (Entries.mapValues engine.field fields) fresh
      (.object origin entries) = .ok result) : Named engine variants kind result := by
  have names : Entries.Distinct (Entries.mapValues engine.field fields) := distinct.mapValues _
  have discerning : ∀ key c, (key, c) ∈ Entries.mapValues engine.field fields → Discerning c :=
    fun key c member => engine.field_discerning member
  have place : kindField? variants kind = Entries.get? kindKey fields := by
    rw [kindField?, declared]
  obtain ⟨shape, others⟩ := convertProperties_others names discerning old tidy done
  refine ⟨shape, fun missing => ?_, fun field found => ?_⟩
  · rw [place] at missing
    rw [others kindKey, named]
    rw [Entries.names_mapValues]
    exact Entries.get?_eq_none_iff.mp missing
  · rw [place] at found
    have member := Entries.mem_of_get? found
    obtain ⟨parts, -⟩ := convertProperties_parts names discerning old tidy done
    have made := parts kindKey _ (Entries.mem_mapValues.mpr ⟨field, member, rfl⟩)
    rw [named] at made
    exact ⟨_, Engine.field_eq_ok made⟩

private theorem named_held (none : kindField? variants kind = none) {mapped : Value}
    (named : property kindKey entries = .string kind) :
    Named engine variants kind (if mapped.same (property valueKey entries) then
      .object origin entries else variantValue fresh kind mapped) := by
  split
  · exact named_of_kept none named
  · refine named_of_kept none ?_
    rw [Update.property_setProperty_of_ne (by decide)]
    rfl

private theorem Engine.named (proper : (Schema.choice variants).Proper)
    (old : (Value.object origin entries).Predates fresh)
    (tidy : (Value.object origin entries).Proper)
    (named : property kindKey entries = .string kind) (declared : kind ∈ Entries.names variants)
    (done : engine.convert (.choice variants) fresh (.object origin entries) = .ok result) :
    Named engine variants kind result := by
  rcases Engine.convert_choice done with ⟨_, _, _, shape, again, landed⟩ | ⟨-, other⟩
  · obtain ⟨rfl, rfl⟩ := Value.object.inj shape
    obtain rfl := Value.string.inj (named.symm.trans again)
    obtain ⟨payload, found⟩ := Entries.exists_get?_of_mem_names declared
    rw [found] at landed
    cases payload with
    | none =>
      have none : kindField? variants kind = .none := by rw [kindField?, found]
      rw [show result = .object origin entries from landed]
      exact named_of_kept none named
    | some payload =>
      rcases landed with ⟨fields, rfl, made⟩ | ⟨held, mapped, -, rfl⟩
      · exact named_spread (proper.payload found).distinct old tidy named found made
      · refine named_held ?_ named
        rw [kindField?, found]
        cases payload with
        | object fields => simp [isObject] at held
        | _ => rfl
  · exact absurd named (other _ _ _ rfl)

/-- A value of a choice stays an object of the same variant, unless the payload of the variant
declares a field of the key that names it, under which the name is converted. No writer does that,
and a reader does only where texts stand for numbers, big integers, dates or times. -/
theorem run_discriminant_iff (engine : Engine) (proper : (Schema.choice variants).Proper)
    {input : Value} (tidy : input.Proper) (named : discriminant input = .ok kind)
    (declared : kind ∈ Entries.names variants)
    (done : engine.run (.choice variants) input = .ok result) :
    (∃ origin entries, result = .object origin entries) ∧
      (discriminant result = .ok kind ↔ ∀ field, kindField? variants kind = some field →
        engine.run field (.string kind) = .ok (.string kind)) ∧
      (discriminant result ≠ .ok kind → (engine = .read ∨ engine = .trust) ∧
        ∃ field, kindField? variants kind = some field ∧ field.spelled = true) := by
  obtain ⟨origin, entries, rfl, tagged⟩ := discriminant_eq_ok.mp named
  rw [Engine.run_eq] at done
  have old := (Value.object origin entries).predates_freshOrigin
  obtain ⟨⟨o, es, rfl⟩, kept, asked⟩ := engine.named proper old tidy tagged declared done
  have shown : discriminant (.object o es) = .ok kind ↔ property kindKey es = .string kind := by
    rw [discriminant_eq_ok]
    exact ⟨fun ⟨_, _, shape, same⟩ => (Value.object.inj shape).2 ▸ same,
      fun same => ⟨o, es, rfl, same⟩⟩
  refine ⟨⟨o, es, rfl⟩, ?_, ?_⟩
  · rw [shown]
    constructor
    · intro same field found
      obtain ⟨fresh, made⟩ := asked field found
      rw [Engine.run_eq]
      exact (Engine.ofText made).still same _
    · intro still
      cases found : kindField? variants kind with
      | none => exact kept found
      | some field =>
        obtain ⟨fresh, made⟩ := asked field found
        have again := still field found
        rw [Engine.run_eq] at again
        have anywhere := (Engine.ofText again).still rfl fresh
        exact Except.ok.inj (made.symm.trans anywhere)
  · intro changed
    rw [Ne, shown] at changed
    cases found : kindField? variants kind with
    | none => exact absurd (kept found) changed
    | some field =>
      obtain ⟨fresh, made⟩ := asked field found
      obtain ⟨reads, spelled⟩ := (Engine.ofText made).spelled changed
      exact ⟨reads, field, rfl, spelled⟩

theorem run_discriminant_iff_spread :
    let variants : List (String × Option Schema) :=
      [("a", some (.object [("kind", .option (.leaf .string)), ("n", .leaf .bigint)]))]
    let input : Value := .object (.root 0) [("n", .string "12"), ("kind", .string "a")]
    let result : Value := .object (.root 1)
      [("n", .bigint ((Origin.root 1).enter (.key "n")) 12), ("kind", .string "a")]
    (Schema.choice variants).Proper ∧ input.Proper ∧ discriminant input = .ok "a" ∧
      "a" ∈ Entries.names variants ∧ Engine.read.run (.choice variants) input = .ok result ∧
      (discriminant result = .ok "a" ↔ ∀ field, kindField? variants "a" = some field →
        Engine.read.run field (.string "a") = .ok (.string "a")) := by
  intro variants input result
  have proper : (Schema.choice variants).Proper := by decide +zetaReduce
  have tidy : input.Proper := by decide +zetaReduce
  have named : discriminant input = .ok "a" := rfl
  have declared : "a" ∈ Entries.names variants := List.mem_singleton.mpr rfl
  have done : Engine.read.run (.choice variants) input = .ok result := rfl
  exact ⟨proper, tidy, named, declared, done,
    (run_discriminant_iff .read proper tidy named declared done).2.1⟩

/-- Where a payload declares a big integer under the key that names its variant, reading puts the
integer in the place of the name. -/
theorem run_replaces_discriminant :
    let variants : List (String × Option Schema) :=
      [("5", some (.object [("kind", .leaf .bigint)]))]
    let input : Value := .object (.root 0) [("kind", .string "5")]
    discriminant input = .ok "5" ∧ "5" ∈ Entries.names variants ∧
      ∃ result, Engine.read.run (.choice variants) input = .ok result ∧
        discriminant result ≠ .ok "5" := by
  intro variants input
  refine ⟨rfl, List.mem_singleton.mpr rfl, ?_⟩
  refine ⟨.object (.root 1) [("kind", .bigint ((Origin.root 1).enter (.key "kind")) 5)], rfl, ?_⟩
  simp [discriminant, Value.asObject, Entries.get?, kindKey, Value.mistyped, located]

end Schema

end WireSchema
