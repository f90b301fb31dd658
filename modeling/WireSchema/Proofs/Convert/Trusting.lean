import WireSchema.Proofs.Content
import WireSchema.Proofs.Convert.Engines
import WireSchema.Proofs.Leaf.Trusting

/-!
The trusting engine against the checking one: whatever reads is also trusted, with the very same
result.
-/

set_option autoImplicit false

namespace WireSchema.Schema

open WireSchema.Convert
open WireSchema.Update (Payload mapItems changedItems items changedProperty changedProperties
  properties mappedPayload discriminant kindKey valueKey)

section Carries

variable {ε δ α β γ : Type}

/-- A computation gives whatever another one, with other failures, gives. -/
def Carries (x : Except ε α) (y : Except δ α) : Prop :=
  ∀ a, x = .ok a → y = .ok a

theorem carries_ok (a : α) : Carries (.ok a : Except ε α) (.ok a : Except δ α) :=
  fun _ done => congrArg Except.ok (Except.ok.inj done)

private theorem Carries.bind {x : Except ε α} {y : Except δ α} {f : α → Except ε β}
    {g : α → Except δ β} (first : Carries x y) (rest : ∀ a, Carries (f a) (g a)) :
    Carries (x >>= f) (y >>= g) := by
  intro b done
  obtain ⟨a, made, done⟩ := bind_eq_ok.mp done
  exact bind_eq_ok.mpr ⟨a, first a made, rest a b done⟩

private theorem mapItems_carries {f : Nat → Value → Except ε Value}
    {g : Nat → Value → Except δ Value} (parts : ∀ i x, Carries (f i x) (g i x)) :
    ∀ (i : Nat) (values : List Value), Carries (mapItems f i values) (mapItems g i values)
  | _, [] => carries_ok []
  | i, item :: rest =>
    (parts i item).bind fun mapped =>
      (mapItems_carries parts (i + 1) rest).bind fun more => carries_ok (mapped :: more)

private theorem changedItems_carries {f : Nat → Value → Except ε Value}
    {g : Nat → Value → Except δ Value} (parts : ∀ i x, Carries (f i x) (g i x)) :
    ∀ (i : Nat) (values : List Value), Carries (changedItems f i values) (changedItems g i values)
  | _, [] => carries_ok none
  | i, item :: rest => by
    refine (parts i item).bind fun mapped => ?_
    split
    · exact (changedItems_carries parts (i + 1) rest).bind fun more =>
        carries_ok (more.map (item :: ·))
    · exact (mapItems_carries parts (i + 1) rest).bind fun more => carries_ok (some (mapped :: more))

theorem items_carries {f : Nat → Value → Except ε Value} {g : Nat → Value → Except δ Value}
    (parts : ∀ i x, Carries (f i x) (g i x)) (fresh origin : Origin) (values : List Value) :
    Carries (items fresh f origin values) (items fresh g origin values) := by
  refine (changedItems_carries parts 0 values).bind fun changed => ?_
  cases changed with
  | none => exact carries_ok _
  | some results => exact carries_ok _

private theorem changedProperties_carries {source : List (String × Value)}
    {f : String → γ → Value → Except ε Value} {g : String → γ → Value → Except δ Value} :
    ∀ (fields : List (String × γ)) (copy : Option (List (String × Value))),
      (∀ key c, (key, c) ∈ fields → ∀ x, Carries (f key c x) (g key c x)) →
      Carries (changedProperties source (Entries.mapValues f fields) copy)
        (changedProperties source (Entries.mapValues g fields) copy)
  | [], copy, _ => carries_ok copy
  | (key, c) :: rest, copy, parts => by
    have others : ∀ other d, (other, d) ∈ rest → ∀ x, Carries (f other d x) (g other d x) :=
      fun other d member => parts other d (List.mem_cons_of_mem _ member)
    refine Carries.bind ?_ fun after => changedProperties_carries rest after others
    refine (parts key c List.mem_cons_self _).bind fun mapped => ?_
    cases copy with
    | some entries => exact carries_ok _
    | none =>
      dsimp only
      split
      · exact carries_ok _
      · exact carries_ok _

theorem properties_carries {f : String → γ → Value → Except ε Value}
    {g : String → γ → Value → Except δ Value} {fields : List (String × γ)}
    (parts : ∀ key c, (key, c) ∈ fields → ∀ x, Carries (f key c x) (g key c x))
    (fresh origin : Origin) (source : List (String × Value)) :
    Carries (properties fresh (Entries.mapValues f fields) origin source)
      (properties fresh (Entries.mapValues g fields) origin source) :=
  (changedProperties_carries fields none parts).bind fun _ => carries_ok _

theorem mappedPayload_carries {f : Value → Except ε Value} {g : Value → Except δ Value}
    (part : ∀ x, Carries (f x) (g x)) (fresh : Origin) (kind : String) (v : Value) :
    Carries (mappedPayload fresh kind f v) (mappedPayload fresh kind g v) := by
  refine (part _).bind fun mapped => ?_
  split
  · exact carries_ok _
  · exact carries_ok _

end Carries

private theorem certain_of_ok {outcome : Except Empty Value} {r : Value}
    (done : outcome = .ok r) : certain outcome = r := by
  rw [done, certain]

def Follows (trust : Trust) (read : Conversion Fault) : Prop :=
  ∀ fresh v n, read fresh v = .ok n → trust fresh v = n

private theorem Follows.part {trust : Trust} {read : Conversion Fault}
    (follows : Follows trust read) (fresh : Origin) (step : Step) (x : Value) :
    Carries (located step (read fresh x)) (.ok (trust fresh x) : Except Empty Value) :=
  fun n done => congrArg Except.ok (follows fresh x n (located_eq_ok.mp done))

theorem trustEach_follows {item : Trust} {read : Conversion Fault} (follows : Follows item read) :
    Follows (trustEach item) (convertEach read) := by
  intro fresh v n done
  simp only [convertEach, bind_eq_ok, Prod.exists, asArray_eq_ok] at done
  obtain ⟨origin, values, rfl, done⟩ := done
  exact certain_of_ok (items_carries (fun i x => follows.part _ _ x) fresh origin values n done)

theorem trustPositions_follows {elems : List Schema}
    (follows : ∀ elem ∈ elems, Follows (truster elem) (reader elem)) :
    Follows (trustPositions (elems.map truster)) (convertPositions (elems.map reader)) := by
  intro fresh v n done
  simp only [convertPositions, bind_eq_ok, Prod.exists, asArray_eq_ok] at done
  obtain ⟨origin, values, rfl, done⟩ := done
  split at done
  · refine certain_of_ok (items_carries (fun i x => ?_) fresh origin values n done)
    simp only [List.getElem?_map]
    cases here : elems[i]? with
    | none => exact carries_ok x
    | some elem => exact (follows elem (List.mem_of_getElem? here)).part _ _ x
  · simp at done

theorem trustProperties_follows {fields : List (String × Schema)}
    (follows : ∀ key field, (key, field) ∈ fields → Follows (truster field) (reader field)) :
    Follows (trustProperties (fieldTrusters fields)) (convertProperties (fieldReaders fields)) := by
  intro fresh v n done
  simp only [convertProperties, bind_eq_ok, Prod.exists, asObject_eq_ok] at done
  obtain ⟨origin, entries, rfl, done⟩ := done
  rw [fieldReaders_eq, placedFields_mapValues] at done
  rw [fieldTrusters_eq]
  change certain (properties fresh (Entries.mapValues
    (fun key field x => .ok (field (fresh.enter (.key key)) x))
    (Entries.mapValues (fun _ field => truster field) fields)) origin entries) = n
  rw [Entries.mapValues_mapValues]
  refine certain_of_ok (properties_carries (fun key field member x n done => ?_)
    fresh origin entries n done)
  exact congrArg Except.ok (follows key field member _ x n (readProperty_eq_ok.mp done).2)

theorem trustVariant_follows {variants : List (String × Option Schema)}
    (held : ∀ kind payload, (kind, some payload) ∈ variants →
      Follows (truster payload) (reader payload))
    (spread : ∀ kind fields, (kind, some (.object fields)) ∈ variants →
      Follows (trustProperties (fieldTrusters fields)) (convertProperties (fieldReaders fields))) :
    Follows (trustVariant (variantTrusters variants)) (readVariant (variantReaders variants)) := by
  intro fresh v n done
  simp only [readVariant, bind_eq_ok, Prod.exists, asObject_eq_ok] at done
  obtain ⟨origin, entries, rfl, kind, named, done⟩ := done
  obtain ⟨_, _, shape, found⟩ := discriminant_eq_ok.mp named
  obtain ⟨rfl, rfl⟩ := Value.object.inj shape
  rw [Update.property] at found
  simp only [trustVariant, Value.get, found, variantTrusters_eq, Entries.get?_mapValues]
  rw [variantReaders_eq, Entries.get?_mapValues] at done
  cases declared : Entries.get? kind variants with
  | none => simp [declared] at done
  | some payload =>
    have member := Entries.mem_of_get? declared
    simp only [declared, Option.map_some] at done ⊢
    cases payload with
    | none =>
      obtain ⟨-, -, same⟩ := bind_eq_ok.mp done
      exact pure_eq_ok.mp same
    | some payload =>
      cases object : payload.isObject with
      | true =>
        obtain ⟨fields, rfl⟩ := isObject_eq_true.mp object
        exact spread kind fields member fresh _ n done
      | false =>
        rw [payloadBy_held _ _ object] at done ⊢
        obtain ⟨-, -, done⟩ := bind_eq_ok.mp done
        split at done
        · simp at done
        · exact certain_of_ok (mappedPayload_carries
            (fun x => (held kind payload member).part _ _ x) fresh kind _ n done)

/-- The very result of reading is what trusting gives. -/
theorem truster_follows (schema : Schema) : Follows (truster schema) (reader schema) := by
  induction schema using byParts with
  | leaf l => exact fun fresh v n done => Leaf.trust_eq_of_read done
  | option inner ih =>
    intro fresh v n done
    simp only [reader, truster] at done ⊢
    split at done
    · next empty => rw [if_pos empty, Except.ok.inj done]
    · next there => rw [if_neg there, ih fresh v n done]
  | array item ih => exact trustEach_follows ih
  | tuple elems ih =>
    rw [truster, reader, elemTrusters_eq_map, elemReaders_eq_map]
    exact trustPositions_follows ih
  | object fields ih => exact trustProperties_follows ih
  | choice variants ih =>
    exact trustVariant_follows ih fun kind fields member => ih kind (.object fields) member

/-- Where a value reads, trusting it gives an equal one, and either both are the input itself or
neither is. -/
theorem trust_of_read {schema : Schema} {input native : Value}
    (done : schema.read input = .ok native) :
    schema.trust input = native ∧
      ((schema.trust input).same input = true ↔ native.same input = true) := by
  have equal : schema.trust input = native :=
    truster_follows schema input.freshOrigin input native done
  exact ⟨equal, by rw [equal]⟩

theorem trust_of_read_held :
    let schema : Schema := .choice [("none", none), ("some", some (.array (.leaf .bigint)))]
    let input : Value := .object (.root 0) [("kind", .string "some"),
      ("value", .array (.root 1) [.string "12", .string "-7"])]
    let native : Value := .object (.root 2) [("kind", .string "some"),
      ("value", .array ((Origin.root 2).enter (.key "value"))
        [.bigint (((Origin.root 2).enter (.key "value")).enter (.index 0)) 12,
          .bigint (((Origin.root 2).enter (.key "value")).enter (.index 1)) (-7)])]
    schema.read input = .ok native ∧ schema.trust input = native ∧
      ((schema.trust input).same input = true ↔ native.same input = true) := by
  have done : Schema.read
      (.choice [("none", none), ("some", some (.array (.leaf .bigint)))])
      (.object (.root 0) [("kind", .string "some"),
        ("value", .array (.root 1) [.string "12", .string "-7"])]) = .ok _ := rfl
  exact ⟨done, trust_of_read done⟩

end WireSchema.Schema
