import WireSchema.Proofs.Convert.Steady

/-!
What goes wrong does not depend on where new containers come into being. Two computations fail alike
if neither has a fault that the other does not have; a step that both take carries this on, whatever
they have made so far.
-/

set_option autoImplicit false

namespace WireSchema

open WireSchema.Update (property kindKey valueKey discriminant)

/-- Two computations with the same failures; what they give otherwise is left open. -/
def FailAlike {ε α β : Type} (x : Except ε α) (y : Except ε β) : Prop :=
  ∀ e, x = .error e ↔ y = .error e

section FailAlike

variable {ε α β γ δ : Type} {x : Except ε α} {y : Except ε β} {z : Except ε γ}

theorem FailAlike.refl (x : Except ε α) : FailAlike x x :=
  fun _ => Iff.rfl

theorem FailAlike.symm (alike : FailAlike x y) : FailAlike y x :=
  fun e => (alike e).symm

theorem FailAlike.trans (first : FailAlike x y) (second : FailAlike y z) : FailAlike x z :=
  fun e => (first e).trans (second e)

theorem failAlike_ok (a : α) (b : β) : FailAlike (.ok a : Except ε α) (.ok b : Except ε β) :=
  fun e => by simp

theorem FailAlike.bind {f : α → Except ε γ} {g : β → Except ε δ} (first : FailAlike x y)
    (next : ∀ a b, x = .ok a → y = .ok b → FailAlike (f a) (g b)) :
    FailAlike (x >>= f) (y >>= g) := by
  cases x with
  | error e =>
    obtain rfl := (first e).mp rfl
    exact fun other => by simp
  | ok a =>
    cases y with
    | error e => exact absurd ((first e).mpr rfl) (by simp)
    | ok b => exact next a b rfl rfl

theorem FailAlike.bind_ok {f : α → γ} {g : β → δ} (first : FailAlike x y) :
    FailAlike (x >>= fun a => .ok (f a)) (y >>= fun b => .ok (g b)) :=
  first.bind fun a b _ _ => failAlike_ok (f a) (g b)

theorem FailAlike.located {x : Except Fault α} {y : Except Fault β} (alike : FailAlike x y)
    (step : Step) : FailAlike (located step x) (located step y) := by
  intro fault
  rw [located_eq_error, located_eq_error]
  simp only [alike _]

end FailAlike

namespace Update

variable {ε γ : Type} {fresh fresh' : Origin}

section Items

variable {f g : Nat → Value → Except ε Value} (alike : ∀ i x, FailAlike (f i x) (g i x))

include alike

theorem failAlike_mapItems (i : Nat) (values : List Value) :
    FailAlike (mapItems f i values) (mapItems g i values) := by
  induction values generalizing i with
  | nil => exact FailAlike.refl _
  | cons item rest ih => exact (alike i item).bind fun _ _ _ _ => (ih (i + 1)).bind_ok

/-- Whether anything has changed so far only decides how the results are kept. -/
theorem failAlike_changedItems (i : Nat) (values : List Value) :
    FailAlike (changedItems f i values) (mapItems g i values) := by
  induction values generalizing i with
  | nil => exact failAlike_ok _ _
  | cons item rest ih =>
    refine (alike i item).bind fun mapped _ _ _ => ?_
    split
    · exact (ih (i + 1)).bind_ok
    · exact (failAlike_mapItems alike (i + 1) rest).bind_ok

theorem failAlike_items (o p : Origin) (values : List Value) :
    FailAlike (items fresh f o values) (items fresh' g p values) := by
  have first := failAlike_changedItems alike 0 values
  have second := failAlike_changedItems (fun i x => FailAlike.refl (g i x)) 0 values
  refine (first.trans second.symm).bind fun changed changed' _ _ => ?_
  cases changed <;> cases changed' <;> exact failAlike_ok _ _

end Items

section Properties

variable {f g : Value → Except ε Value} (source : List (String × Value))

theorem failAlike_changedProperty (alike : ∀ x, FailAlike (f x) (g x)) (key : String)
    (copy copy' : Option (List (String × Value))) :
    FailAlike (changedProperty source f key copy) (changedProperty source g key copy') := by
  refine (alike (property key source)).bind fun mapped mapped' _ _ => ?_
  cases copy with
  | some entries =>
    cases copy' with
    | some entries' => exact failAlike_ok _ _
    | none => dsimp only; split <;> exact failAlike_ok _ _
  | none =>
    cases copy' with
    | some entries' => dsimp only; split <;> exact failAlike_ok _ _
    | none => dsimp only; split <;> split <;> exact failAlike_ok _ _

theorem failAlike_changedProperties {F G : String → γ → Value → Except ε Value}
    {fields : List (String × γ)}
    (alike : ∀ key field, (key, field) ∈ fields → ∀ x, FailAlike (F key field x) (G key field x))
    (copy copy' : Option (List (String × Value))) :
    FailAlike (changedProperties source (Entries.mapValues F fields) copy)
      (changedProperties source (Entries.mapValues G fields) copy') := by
  induction fields generalizing copy copy' with
  | nil => exact failAlike_ok copy copy'
  | cons field rest ih =>
    have first := failAlike_changedProperty source
      (alike field.1 field.2 List.mem_cons_self) field.1 copy copy'
    refine first.bind fun copy copy' _ _ => ?_
    exact ih (fun key field member => alike key field (List.mem_cons_of_mem _ member)) copy copy'

end Properties

theorem failAlike_mappedPayload {f g : Value → Except ε Value}
    (alike : ∀ x, FailAlike (f x) (g x)) (kind : String) (v : Value) :
    FailAlike (mappedPayload fresh kind f v) (mappedPayload fresh' kind g v) := by
  refine (alike (payload v)).bind fun mapped mapped' _ _ => ?_
  split <;> split <;> exact failAlike_ok _ _

end Update

/-- A conversion whose faults do not depend on where what it makes comes into being. -/
def Convert.Placeless (c : Conversion Fault) : Prop :=
  ∀ fresh fresh' v, FailAlike (c fresh v) (c fresh' v)

open WireSchema.Convert (Placeless convertEach convertPositions convertProperties)
open WireSchema.Update (Payload)

namespace Schema

theorem placeless_convertEach {item : Conversion Fault} (placeless : Placeless item) :
    Placeless (convertEach item) := by
  intro fresh fresh' v
  refine (FailAlike.refl v.asArray).bind fun parts parts' left right => ?_
  obtain rfl : parts = parts' := Except.ok.inj (left.symm.trans right)
  exact Update.failAlike_items (fun i x => (placeless _ _ x).located (.index i)) _ _ _

theorem placeless_convertPositions {elems : List (Conversion Fault)}
    (placeless : ∀ elem ∈ elems, Placeless elem) : Placeless (convertPositions elems) := by
  intro fresh fresh' v
  refine (FailAlike.refl v.asArray).bind fun parts parts' left right => ?_
  obtain rfl : parts = parts' := Except.ok.inj (left.symm.trans right)
  dsimp only
  split
  · refine Update.failAlike_items (fun i x => ?_) _ _ _
    cases here : elems[i]? with
    | none => exact failAlike_ok x x
    | some elem =>
      exact (placeless elem (List.mem_of_getElem? here) _ _ x).located (.index i)
  · exact FailAlike.refl _

theorem placeless_convertProperties {fields : List (String × Conversion Fault)}
    (placeless : ∀ key field, (key, field) ∈ fields → Placeless field) :
    Placeless (convertProperties fields) := by
  intro fresh fresh' v
  refine (FailAlike.refl v.asObject).bind fun parts parts' left right => ?_
  obtain rfl : parts = parts' := Except.ok.inj (left.symm.trans right)
  have updated := Update.failAlike_changedProperties parts.2
    (F := fun key field => field (fresh.enter (.key key)))
    (G := fun key field => field (fresh'.enter (.key key)))
    (fun key field member x => placeless key field member _ _ x) none none
  exact updated.bind fun copy copy' _ _ => failAlike_ok _ _

private theorem placeless_option {inner : Conversion Fault} (placeless : Placeless inner) :
    Placeless fun fresh v => if v.isAbsent then .ok .absent else inner fresh v := by
  intro fresh fresh' v
  dsimp only
  split
  · exact FailAlike.refl _
  · exact placeless fresh fresh' v

private theorem placeless_held {c : Conversion Fault} (placeless : Placeless c) (kind : String)
    (fresh fresh' : Origin) (v : Value) :
    FailAlike
      (Update.mappedPayload fresh kind
        (fun x => located (.key valueKey) (c (fresh.enter (.key valueKey)) x)) v)
      (Update.mappedPayload fresh' kind
        (fun x => located (.key valueKey) (c (fresh'.enter (.key valueKey)) x)) v) :=
  Update.failAlike_mappedPayload (fun x => (placeless _ _ x).located (.key valueKey)) kind v

theorem placeless_readProperty {key : String} {optional : Bool} {field : Conversion Fault}
    (placeless : Placeless field) : Placeless (readProperty key optional field) := by
  intro fresh fresh' v
  rw [readProperty, readProperty]
  split
  · exact FailAlike.refl _
  · exact (placeless fresh fresh' v).located (.key key)

section Variants

variable {payloads : List (String × Payload (Conversion Fault))}
  (spread : ∀ kind fields, Entries.get? kind payloads = some (.spread fields) →
    Placeless (convertProperties fields))
  (held : ∀ kind c, Entries.get? kind payloads = some (.held c) → Placeless c)

include spread held

theorem placeless_readVariant : Placeless (readVariant payloads) := by
  intro fresh fresh' v
  refine (FailAlike.refl v.asObject).bind fun parts parts' left right => ?_
  obtain rfl : parts = parts' := Except.ok.inj (left.symm.trans right)
  refine (FailAlike.refl (discriminant v)).bind fun kind kind' left right => ?_
  obtain rfl : kind = kind' := Except.ok.inj (left.symm.trans right)
  cases declared : Entries.get? kind payloads with
  | none => exact FailAlike.refl _
  | some payload =>
    cases payload with
    | none => exact FailAlike.refl _
    | spread fields => exact spread kind fields declared fresh fresh' v
    | held c =>
      refine (FailAlike.refl _).bind fun _ _ _ _ => ?_
      split
      · exact FailAlike.refl _
      · exact placeless_held (held kind c declared) kind fresh fresh' v

theorem placeless_writeVariant (options : WriteOptions) :
    Placeless (writeVariant options payloads) := by
  intro fresh fresh' v
  refine (FailAlike.refl (discriminant v)).bind fun kind kind' left right => ?_
  obtain rfl : kind = kind' := Except.ok.inj (left.symm.trans right)
  cases declared : Entries.get? kind payloads with
  | none => exact FailAlike.refl _
  | some payload =>
    cases payload with
    | none => exact FailAlike.refl _
    | spread fields => exact spread kind fields declared fresh fresh' v
    | held c => exact placeless_held (held kind c declared) kind fresh fresh' v

end Variants

private theorem placeless_read (l : Leaf) : Placeless l.read := by
  intro fresh fresh' v
  cases l with
  | bigint =>
    intro fault
    rw [Leaf.read, Leaf.read, Leaf.readBigint, Leaf.readBigint, map_eq_error, map_eq_error]
  | u64 | i64 =>
    intro fault
    rw [Leaf.read, Leaf.read, Leaf.readBigintIn, Leaf.readBigintIn, map_eq_error, map_eq_error]
  | _ => exact FailAlike.refl _

private theorem placeless_payloads {convert : Schema → Conversion Fault}
    {fields : List (String × Schema) → List (String × Conversion Fault)}
    {variants : List (String × Option Schema)}
    (each : ∀ kind payload, (kind, some payload) ∈ variants → Placeless (convert payload))
    (beside : ∀ kind declared, (kind, some (.object declared)) ∈ variants →
      Placeless (convertProperties (fields declared))) :
    (∀ kind converted, Entries.get? kind (Entries.mapValues (fun _ => payloadBy fields convert)
      variants) = some (.spread converted) → Placeless (convertProperties converted)) ∧
    ∀ kind c, Entries.get? kind (Entries.mapValues (fun _ => payloadBy fields convert)
      variants) = some (.held c) → Placeless c := by
  refine ⟨fun kind converted found => ?_, fun kind c found => ?_⟩
  · obtain ⟨declared, member, rfl⟩ := exists_spread found
    exact beside kind declared member
  · obtain ⟨payload, member, rfl⟩ := exists_held found
    exact each kind payload member

theorem placeless_reader (schema : Schema) : Placeless schema.reader := by
  have declared : ∀ fields : List (String × Schema),
      (∀ name field, (name, field) ∈ fields → Placeless field.reader) →
      Placeless (convertProperties (fieldReaders fields)) := by
    intro fields each
    refine placeless_convertProperties fun key c member => ?_
    rw [fieldReaders_eq] at member
    obtain ⟨field, there, rfl⟩ := Entries.mem_mapValues.mp member
    exact placeless_readProperty (each key field there)
  induction schema using byLayout with
  | leaf l => exact placeless_read l
  | option inner ih => exact placeless_option ih
  | array item ih => exact placeless_convertEach ih
  | tuple elems ih =>
    rw [reader, elemReaders_eq_map]
    refine placeless_convertPositions fun c member => ?_
    obtain ⟨elem, there, rfl⟩ := List.mem_map.mp member
    exact ih elem there
  | object fields ih => exact declared fields ih
  | choice variants held spread =>
    obtain ⟨spreads, holds⟩ := placeless_payloads held fun kind fields member =>
      declared fields (spread kind fields member)
    rw [reader, variantReaders_eq]
    exact placeless_readVariant spreads holds

theorem placeless_writer (options : WriteOptions) (schema : Schema) :
    Placeless (schema.writer options) := by
  have declared : ∀ fields : List (String × Schema),
      (∀ name field, (name, field) ∈ fields → Placeless (field.writer options)) →
      Placeless (convertProperties (fieldWriters options fields)) := by
    intro fields each
    refine placeless_convertProperties fun key c member fresh fresh' v => ?_
    rw [fieldWriters_eq] at member
    obtain ⟨field, there, rfl⟩ := Entries.mem_mapValues.mp member
    exact (each key field there fresh fresh' v).located (.key key)
  induction schema using byLayout with
  | leaf l => exact fun _ _ _ => FailAlike.refl _
  | option inner ih => exact placeless_option ih
  | array item ih => exact placeless_convertEach ih
  | tuple elems ih =>
    rw [writer, elemWriters_eq_map]
    refine placeless_convertPositions fun c member => ?_
    obtain ⟨elem, there, rfl⟩ := List.mem_map.mp member
    exact ih elem there
  | object fields ih => exact declared fields ih
  | choice variants held spread =>
    obtain ⟨spreads, holds⟩ := placeless_payloads held fun kind fields member =>
      declared fields (spread kind fields member)
    rw [writer, variantWriters_eq]
    exact placeless_writeVariant spreads holds options

theorem Engine.convert_eq_error_iff (engine : Engine) (schema : Schema) (fresh : Origin)
    (v : Value) (fault : Fault) :
    engine.convert schema fresh v = .error fault ↔ engine.run schema v = .error fault := by
  rw [Engine.run_eq]
  cases engine with
  | read => exact placeless_reader schema fresh v.freshOrigin v fault
  | trust => simp [Engine.convert]
  | write options => exact placeless_writer options schema fresh v.freshOrigin v fault

end Schema

end WireSchema
