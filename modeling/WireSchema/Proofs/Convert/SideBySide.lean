import WireSchema.Proofs.Convert.Identity
import WireSchema.Proofs.Convert.Visits
import WireSchema.Proofs.Convert.Parts
import WireSchema.Proofs.Resemblance

/-!
Two runs of one conversion, side by side, on values that resemble each other. They take the same
steps: what one changes the other changes too, and a failure of one is that of the other. Only the
first may fail for a reason that the second does not have; what excuses that is left open.
-/

set_option autoImplicit false

namespace WireSchema

open WireSchema.Update (property kindKey valueKey)
open WireSchema.Value (Resembles Unrepeated Bared)

/-- Both outcomes are results that are related, or both are the same failure, or the first is a
failure that is excused. -/
inductive Concur {ε α β : Type} (related : α → β → Prop) (excused : ε → Prop) :
    Except ε α → Except ε β → Prop where
  | ok {a : α} {b : β} : related a b → Concur related excused (.ok a) (.ok b)
  | failed (e : ε) : Concur related excused (.error e) (.error e)
  | excused {e : ε} {y : Except ε β} : excused e → Concur related excused (.error e) y

section Concur

variable {ε α β γ δ : Type} {related : α → β → Prop} {excused : ε → Prop} {x : Except ε α}
  {y : Except ε β}

theorem Concur.bind {related' : γ → δ → Prop} {f : α → Except ε γ} {g : β → Except ε δ}
    (first : Concur related excused x y)
    (next : ∀ a b, related a b → Concur related' excused (f a) (g b)) :
    Concur related' excused (x >>= f) (y >>= g) := by
  cases first with
  | ok alike => exact next _ _ alike
  | failed e => exact .failed e
  | excused excuse => exact .excused excuse

theorem Concur.located {related : α → β → Prop} {excused excused' : Fault → Prop} {x : Except Fault α}
    {y : Except Fault β} {step : Step} (concur : Concur related excused x y)
    (inward : ∀ fault, excused fault → excused' (fault.inside step)) :
    Concur related excused' (located step x) (located step y) := by
  cases concur with
  | ok alike => exact .ok alike
  | failed e => exact .failed _
  | excused excuse => exact .excused (inward _ excuse)

end Concur

/-- What two values are converted to: the results resemble each other, and either both are what they
were made of or neither is. -/
structure Paired (v w a b : Value) : Prop where
  alike : Resembles Unrepeated a b
  same : a.same v = b.same w

theorem paired_kept {v w : Value} (alike : Resembles Bared v w) : Paired v w v w :=
  ⟨alike.unrepeated, by rw [Value.same_refl, Value.same_refl]⟩

namespace Update

variable {ε γ : Type} {excused : ε → Prop} {fresh fresh' o p : Origin}

section Items

variable {f f' : Nat → Value → Except ε Value} {i : Nat} {vs ws : List Value}

structure Abreast (excused : ε → Prop) (f f' : Nat → Value → Except ε Value) (i : Nat)
    (vs ws : List Value) : Prop where
  length : vs.length = ws.length
  alike : ∀ (j : Nat) (v w : Value), vs[j]? = some v → ws[j]? = some w → Resembles Bared v w
  concur : ∀ (j : Nat) (v w : Value), vs[j]? = some v → ws[j]? = some w →
    Concur (Paired v w) excused (f (i + j) v) (f' (i + j) w)

theorem Abreast.tail {v w : Value} (abreast : Abreast excused f f' i (v :: vs) (w :: ws)) :
    Abreast excused f f' (i + 1) vs ws where
  length := Nat.succ.inj abreast.length
  alike j x y found there := abreast.alike (j + 1) x y (by simpa using found) (by simpa using there)
  concur j x y found there := by
    have next := abreast.concur (j + 1) x y (by simpa using found) (by simpa using there)
    rwa [Nat.add_right_comm, Nat.add_assoc]

theorem Abreast.head {v w : Value} (abreast : Abreast excused f f' i (v :: vs) (w :: ws)) :
    Resembles Bared v w ∧ Concur (Paired v w) excused (f i v) (f' i w) :=
  ⟨abreast.alike 0 v w rfl rfl, abreast.concur 0 v w rfl rfl⟩

theorem concur_mapItems (abreast : Abreast excused f f' i vs ws) :
    Concur (List.Forall₂ (Resembles Unrepeated)) excused (mapItems f i vs) (mapItems f' i ws) := by
  induction vs generalizing ws i with
  | nil =>
    obtain rfl : ws = [] := List.length_eq_zero_iff.mp abreast.length.symm
    exact .ok .nil
  | cons v vs ih =>
    cases ws with
    | nil => exact absurd abreast.length (by simp)
    | cons w ws =>
      refine abreast.head.2.bind fun a b paired => ?_
      refine (ih abreast.tail).bind fun as bs alike => ?_
      exact .ok (.cons paired.alike alike)

theorem concur_changedItems (abreast : Abreast excused f f' i vs ws) :
    Concur (Option.Rel (List.Forall₂ (Resembles Unrepeated))) excused (changedItems f i vs)
      (changedItems f' i ws) := by
  induction vs generalizing ws i with
  | nil =>
    obtain rfl : ws = [] := List.length_eq_zero_iff.mp abreast.length.symm
    exact .ok .none
  | cons v vs ih =>
    cases ws with
    | nil => exact absurd abreast.length (by simp)
    | cons w ws =>
      obtain ⟨alike, first⟩ := abreast.head
      refine first.bind fun a b paired => ?_
      rw [paired.same]
      split
      · refine (ih abreast.tail).bind fun changed changed' rel => ?_
        cases rel with
        | none => exact .ok .none
        | some rest => exact .ok (.some (.cons alike.unrepeated rest))
      · refine (concur_mapItems abreast.tail).bind fun as bs rest => ?_
        exact .ok (.some (.cons paired.alike rest))

private theorem resembles_array {as bs : List Value}
    (each : List.Forall₂ (Resembles Unrepeated) as bs) :
    Resembles Unrepeated (.array o as) (.array p bs) := by
  obtain ⟨length, each⟩ := List.forall₂_iff_get.mp each
  refine .array length fun i a b found there => ?_
  obtain ⟨within, rfl⟩ := List.getElem?_eq_some_iff.mp found
  obtain ⟨within', rfl⟩ := List.getElem?_eq_some_iff.mp there
  exact each i within within'

theorem concur_items (abreast : Abreast excused f f' 0 vs ws)
    (old : (Value.array o vs).Predates fresh) (old' : (Value.array p ws).Predates fresh') :
    Concur (Paired (.array o vs) (.array p ws)) excused (items fresh f o vs)
      (items fresh' f' p ws) := by
  refine (concur_changedItems abreast).bind fun changed changed' rel => ?_
  cases rel with
  | none => exact .ok (paired_kept (.array abreast.length abreast.alike))
  | some each =>
    have new : (fresh == o) = false := by simpa using old.array_origin_ne
    have new' : (fresh' == p) = false := by simpa using old'.array_origin_ne
    exact .ok ⟨resembles_array each, new.trans new'.symm⟩

end Items

structure Matching (es fs : List (String × Value)) : Prop extends Unrepeated es fs where
  each : ∀ key, Resembles Unrepeated (property key es) (property key fs)

section Properties

variable {es fs source source' : List (String × Value)}

theorem Matching.object (matching : Matching es fs) :
    Resembles Unrepeated (.object o es) (.object p fs) :=
  .object matching.toUnrepeated matching.each

theorem Matching.setProperty {a b : Value} (matching : Matching es fs)
    (alike : Resembles Unrepeated a b) (key : String) :
    Matching (setProperty key a es) (setProperty key b fs) := by
  refine ⟨⟨distinct_setProperty matching.left _ _, distinct_setProperty matching.right _ _⟩,
    fun other => ?_⟩
  by_cases same : key = other
  · subst same
    rw [property_setProperty matching.left, property_setProperty matching.right]
    exact alike
  · rw [property_setProperty_of_ne same, property_setProperty_of_ne same]
    exact matching.each other

theorem concur_changedProperty (matching : Matching source source') {key : String}
    {f f' : Value → Except ε Value}
    (first : Concur (Paired (property key source) (property key source')) excused
      (f (property key source)) (f' (property key source')))
    {copy copy' : Option (List (String × Value))} (copies : Option.Rel Matching copy copy') :
    Concur (Option.Rel Matching) excused (changedProperty source f key copy)
      (changedProperty source' f' key copy') := by
  refine first.bind fun a b paired => ?_
  cases copies with
  | some made => exact .ok (.some (made.setProperty paired.alike key))
  | none =>
    dsimp only
    rw [paired.same]
    split
    · exact .ok .none
    · exact .ok (.some (matching.setProperty paired.alike key))

theorem concur_changedProperties (matching : Matching source source')
    {F F' : String → γ → Value → Except ε Value} {fields : List (String × γ)}
    (each : ∀ key field, (key, field) ∈ fields →
      Concur (Paired (property key source) (property key source')) excused
        (F key field (property key source)) (F' key field (property key source')))
    {copy copy' : Option (List (String × Value))} (copies : Option.Rel Matching copy copy') :
    Concur (Option.Rel Matching) excused
      (changedProperties source (Entries.mapValues F fields) copy)
      (changedProperties source' (Entries.mapValues F' fields) copy') := by
  induction fields generalizing copy copy' with
  | nil => exact .ok copies
  | cons field rest ih =>
    have first := concur_changedProperty matching (each field.1 field.2 List.mem_cons_self) copies
    refine first.bind fun made made' copies => ?_
    exact ih (fun key field member => each key field (List.mem_cons_of_mem _ member)) copies

theorem concur_properties (alike : Resembles Bared (.object o es) (.object p fs))
    (old : (Value.object o es).Predates fresh) (old' : (Value.object p fs).Predates fresh')
    (F F' : String → γ → Value → Except ε Value) {fields : List (String × γ)}
    (each : ∀ key field, (key, field) ∈ fields →
      Concur (Paired (property key es) (property key fs)) excused
        (F key field (property key es)) (F' key field (property key fs))) :
    Concur (Paired (.object o es) (.object p fs)) excused
      (properties fresh (Entries.mapValues F fields) o es)
      (properties fresh' (Entries.mapValues F' fields) p fs) := by
  have matching : Matching es fs := by
    cases alike with
    | scalar plain => simp [Value.isContainer] at plain
    | object keys inside => exact ⟨keys.toUnrepeated, fun key => (inside key).unrepeated⟩
  refine (concur_changedProperties matching each .none).bind fun copy copy' copies => ?_
  cases copies with
  | none => exact .ok (paired_kept alike)
  | some made =>
    have new : (fresh == o) = false := by simpa using old.object_origin_ne
    have new' : (fresh' == p) = false := by simpa using old'.object_origin_ne
    exact .ok ⟨made.object, new.trans new'.symm⟩

end Properties

section Payloads

variable {es fs : List (String × Value)} {kind : String} {f f' : Value → Except ε Value}

private theorem unrepeated_kind : Matching [(kindKey, .string kind)] [(kindKey, .string kind)] := by
  refine ⟨⟨by simp [Entries.Distinct], by simp [Entries.Distinct]⟩, fun key => ?_⟩
  rcases Value.property_mem key [(kindKey, .string kind)] with gone | member
  · rw [gone]
    exact .scalar rfl
  · rw [(Prod.mk.inj (List.mem_singleton.mp member)).2]
    exact .scalar rfl

theorem concur_mappedPayload (alike : Resembles Bared (.object o es) (.object p fs))
    (old : (Value.object o es).Predates fresh) (old' : (Value.object p fs).Predates fresh')
    (inner : Concur (Paired (property valueKey es) (property valueKey fs)) excused
      (f (property valueKey es)) (f' (property valueKey fs))) :
    Concur (Paired (.object o es) (.object p fs)) excused
      (mappedPayload fresh kind f (.object o es)) (mappedPayload fresh' kind f' (.object p fs)) := by
  refine inner.bind fun a b paired => ?_
  have same : a.same (payload (.object o es)) = b.same (payload (.object p fs)) := paired.same
  rw [same]
  split
  · exact .ok (paired_kept alike)
  · have new : (fresh == o) = false := by simpa using old.object_origin_ne
    have new' : (fresh' == p) = false := by simpa using old'.object_origin_ne
    exact .ok ⟨(unrepeated_kind.setProperty paired.alike valueKey).object, new.trans new'.symm⟩

end Payloads

end Update

namespace Convert

def Steady (excused : Value → Fault → Prop) (c : Conversion Fault) : Prop :=
  ∀ ⦃fresh fresh' : Origin⦄ ⦃v w : Value⦄, Resembles Bared v w → v.Predates fresh →
    w.Predates fresh' → Concur (Paired v w) (excused v) (c fresh v) (c fresh' w)

def SteadyAt (excused : Value → Fault → Prop) (step : Step) (c : Conversion Fault) : Prop :=
  ∀ ⦃fresh fresh' : Origin⦄ ⦃v w : Value⦄, Resembles Bared (v.part step) (w.part step) →
    v.Predates fresh → w.Predates fresh' →
    Concur (Paired (v.part step) (w.part step)) (excused v) (c (fresh.enter step) (v.part step))
      (c (fresh'.enter step) (w.part step))

def Inward (excused : Value → Fault → Prop) : Prop :=
  ∀ v step fault, excused (v.part step) fault → excused v (fault.inside step)

section Steady

variable {excused : Value → Fault → Prop} {v w : Value}

theorem Steady.at {c : Conversion Fault} (inward : Inward excused) (steady : Steady excused c)
    (step : Step) : SteadyAt excused step fun fresh x => located step (c fresh x) := by
  intro fresh fresh' v w alike old old'
  exact (steady alike ((old.part step).enter step) ((old'.part step).enter step)).located
    (inward v step)

theorem concur_asArray {blame : Fault → Prop} (alike : Resembles Bared v w) :
    Concur (fun a b => v = .array a.1 a.2 ∧ w = .array b.1 b.2) blame v.asArray w.asArray := by
  cases alike with
  | scalar plain =>
    cases v with
    | array => simp [Value.isContainer] at plain
    | _ => exact .failed _
  | array _ _ => exact .ok ⟨rfl, rfl⟩
  | _ => exact .failed _

theorem concur_asObject {blame : Fault → Prop} (alike : Resembles Bared v w) :
    Concur (fun a b => v = .object a.1 a.2 ∧ w = .object b.1 b.2) blame v.asObject w.asObject := by
  cases alike with
  | scalar plain =>
    cases v with
    | object => simp [Value.isContainer] at plain
    | _ => exact .failed _
  | object _ _ => exact .ok ⟨rfl, rfl⟩
  | _ => exact .failed _

section Parts

variable {o p : Origin} {vs ws : List Value} {es fs : List (String × Value)}

theorem length_of_resembles (alike : Resembles Bared (.array o vs) (.array p ws)) :
    vs.length = ws.length := by
  cases alike with
  | scalar plain => rfl
  | array length _ => exact length

theorem resembles_item (alike : Resembles Bared (.array o vs) (.array p ws)) {j : Nat}
    {x y : Value} (found : vs[j]? = some x) (there : ws[j]? = some y) : Resembles Bared x y := by
  cases alike with
  | scalar plain => simp [Value.isContainer] at plain
  | array _ each => exact each j x y found there

theorem bared_of_resembles (alike : Resembles Bared (.object o es) (.object p fs)) :
    Bared es fs := by
  cases alike with
  | scalar plain => simp [Value.isContainer] at plain
  | object keys _ => exact keys

theorem resembles_property (alike : Resembles Bared (.object o es) (.object p fs)) (key : String) :
    Resembles Bared (property key es) (property key fs) := by
  cases alike with
  | scalar plain => simp [Value.isContainer] at plain
  | object _ each => exact each key

end Parts

def convertItems (part : Nat → Conversion Fault) : Conversion Fault := fun fresh v => do
  let (origin, values) ← v.asArray
  Update.items fresh (fun i x => part i (fresh.enter (.index i)) x) origin values

theorem convertItems_steady {part : Nat → Conversion Fault}
    (steady : ∀ j, SteadyAt excused (.index j) (part j)) : Steady excused (convertItems part) := by
  intro fresh fresh' v w alike old old'
  refine (concur_asArray alike).bind fun ⟨o, vs⟩ ⟨p, ws⟩ shapes => ?_
  obtain ⟨rfl, rfl⟩ := shapes
  refine Update.concur_items ⟨length_of_resembles alike, fun j x y found there => ?_,
    fun j x y found there => ?_⟩ old old'
  · exact resembles_item alike found there
  · have same := resembles_item alike found there
    rw [← Value.part_index found o, ← Value.part_index there p] at same
    have both := steady j same old old'
    rwa [Value.part_index found, Value.part_index there, ← Nat.zero_add j] at both

theorem convertEach_steady (inward : Inward excused) {item : Conversion Fault}
    (steady : Steady excused item) : Steady excused (convertEach item) :=
  convertItems_steady fun j => steady.at inward (.index j)

def convertAt (elems : List (Conversion Fault)) (j : Nat) : Conversion Fault := fun fresh x =>
  elems[j]?.elim (.ok x) fun elem => located (.index j) (elem fresh x)

theorem convertAt_steady (inward : Inward excused) {elems : List (Conversion Fault)}
    (steady : ∀ elem ∈ elems, Steady excused elem) (j : Nat) :
    SteadyAt excused (.index j) (convertAt elems j) := by
  unfold convertAt
  cases here : elems[j]? with
  | some elem => exact (steady elem (List.mem_of_getElem? here)).at inward (.index j)
  | none => exact fun _ _ _ _ alike _ _ => .ok (paired_kept alike)

theorem convertPositions_array (elems : List (Conversion Fault)) (fresh o : Origin)
    (values : List Value) : convertPositions elems fresh (.array o values) =
      if values.length = elems.length then convertItems (convertAt elems) fresh (.array o values)
      else .error (.of (.invalidLength elems.length values.length)) := by
  refine if_congr Iff.rfl (congrArg (fun f => Update.items fresh f o values) ?_) rfl
  funext i x
  unfold convertAt
  cases elems[i]? <;> rfl

theorem convertPositions_steady (inward : Inward excused) {elems : List (Conversion Fault)}
    (steady : ∀ elem ∈ elems, Steady excused elem) : Steady excused (convertPositions elems) := by
  intro fresh fresh' v w alike old old'
  have each := convertItems_steady (convertAt_steady inward steady) alike old old'
  cases alike with
  | scalar plain =>
    cases v with
    | array => simp [Value.isContainer] at plain
    | _ => exact .failed _
  | array length _ =>
    rw [convertPositions_array, convertPositions_array, ← length]
    split
    · exact each
    · exact .failed _
  | _ => exact .failed _

theorem convertProperties_steady {fields : List (String × Conversion Fault)}
    (steady : ∀ key c, (key, c) ∈ fields → SteadyAt excused (.key key) c) :
    Steady excused (convertProperties fields) := by
  intro fresh fresh' v w alike old old'
  refine (concur_asObject alike).bind fun ⟨o, es⟩ ⟨p, fs⟩ shapes => ?_
  obtain ⟨rfl, rfl⟩ := shapes
  refine Update.concur_properties alike old old'
    (fun key (c : Conversion Fault) => c (fresh.enter (.key key)))
    (fun key c => c (fresh'.enter (.key key))) fun key c member => ?_
  have part : Resembles Bared ((Value.object o es).part (.key key))
      ((Value.object p fs).part (.key key)) := resembles_property alike key
  exact steady key c member part old old'

end Steady

end Convert

end WireSchema
