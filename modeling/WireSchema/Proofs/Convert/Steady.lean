import WireSchema.Proofs.Convert.Layouts
import WireSchema.Proofs.Leaf.SideBySide

/-!
The engines, side by side: each does the same with values that resemble each other. Only the checking
one may fail where it has no reason to fail with the other value, and then it takes a key under which
there is nothing for a property that its variant does not have.
-/

set_option autoImplicit false

namespace WireSchema

open WireSchema.Convert
open WireSchema.Update (Payload property kindKey valueKey discriminant mappedPayload)
open WireSchema.Value (Resembles Unrepeated Bared present)

/-- A fault that is about a key of an object, where there is nothing under that key. -/
def Value.BlamesAbsent (v : Value) (fault : Fault) : Prop :=
  ∃ kind key origin entries, fault.cause = .unexpectedProperty kind key ∧
    v.walk fault.path = .object origin entries ∧ (key, .absent) ∈ entries

theorem blamesAbsent_inward : Inward Value.BlamesAbsent :=
  fun _ _ _ blames => blames

namespace Schema

variable {excused : Value → Fault → Prop} {fresh fresh' o p : Origin} {v w : Value}
  {es fs : List (String × Value)} {kind : String}

theorem discriminant_object (origin : Origin) (entries : List (String × Value)) :
    discriminant (.object origin entries) =
      match property kindKey entries with
      | .absent => .error (.of (.missingProperty kindKey))
      | .string kind => .ok kind
      | other => located (.key kindKey) (other.mistyped "string") := by
  rw [discriminant, property]
  cases found : Entries.get? kindKey entries with
  | none => simp [Value.asObject, found]
  | some x => cases x <;> simp [Value.asObject, found, pure, Except.pure]

theorem discriminant_eq (alike : Resembles Bared v w) : discriminant w = discriminant v := by
  cases alike with
  | object keys each =>
    rw [discriminant_object, discriminant_object]
    have kinds := each kindKey
    generalize property kindKey _ = x at kinds
    generalize property kindKey _ = y at kinds
    cases kinds <;> rfl
  | _ => rfl

theorem unexpectedKey_present (expected : List String) (entries : List (String × Value)) :
    unexpectedKey? expected (present entries) = unexpectedKey? expected entries ∨
      ∃ key, unexpectedKey? expected entries = some key ∧ (key, .absent) ∈ entries := by
  induction entries with
  | nil => exact Or.inl rfl
  | cons entry rest ih =>
    obtain ⟨name, x⟩ := entry
    have first : ∀ more, unexpectedKey? expected ((name, x) :: more) =
        if expected.contains name then unexpectedKey? expected more else some name := by
      intro more
      rw [unexpectedKey?, Entries.names, List.map_cons, List.find?_cons]
      cases expected.contains name <;> rfl
    rw [first, Value.present_cons]
    cases known : expected.contains name with
    | true =>
      have later : unexpectedKey? expected (if x.isAbsent then present rest
          else (name, x) :: present rest) = unexpectedKey? expected (present rest) := by
        split
        · rfl
        · rw [first, if_pos known]
      rw [later, if_pos rfl]
      rcases ih with same | ⟨key, found, member⟩
      · exact Or.inl same
      · exact Or.inr ⟨key, found, List.mem_cons_of_mem _ member⟩
    | false =>
      rw [if_neg Bool.false_ne_true]
      cases gone : x.isAbsent with
      | true =>
        rw [Value.isAbsent_eq_true.mp gone]
        exact Or.inr ⟨name, rfl, List.mem_cons_self⟩
      | false => exact Or.inl (by rw [if_neg Bool.false_ne_true, first, known]; rfl)

private theorem concur_expectKeys (alike : Resembles Bared (.object o es) (.object p fs))
    (kind : String) (expected : List String) :
    Concur (fun _ _ => True) (Value.BlamesAbsent (.object o es)) (expectKeys kind expected es)
      (expectKeys kind expected fs) := by
  have names : unexpectedKey? expected fs = unexpectedKey? expected (present es) := by
    rw [unexpectedKey?, (bared_of_resembles alike).names, unexpectedKey?]
  rw [expectKeys, expectKeys, names]
  rcases unexpectedKey_present expected es with same | ⟨key, found, member⟩
  · rw [same]
    split
    · exact .failed _
    · exact .ok trivial
  · rw [found]
    exact .excused ⟨kind, key, o, es, rfl, rfl, member⟩

private theorem concur_held (inward : Inward excused) {c : Conversion Fault}
    (steady : Steady excused c) (alike : Resembles Bared (.object o es) (.object p fs))
    (old : (Value.object o es).Predates fresh) (old' : (Value.object p fs).Predates fresh') :
    Concur (Paired (.object o es) (.object p fs)) (excused (.object o es))
      (mappedPayload fresh kind
        (fun x => located (.key valueKey) (c (fresh.enter (.key valueKey)) x)) (.object o es))
      (mappedPayload fresh' kind
        (fun x => located (.key valueKey) (c (fresh'.enter (.key valueKey)) x)) (.object p fs)) := by
  have part : Resembles Bared ((Value.object o es).part (.key valueKey))
      ((Value.object p fs).part (.key valueKey)) := resembles_property alike valueKey
  have inner := steady.at inward (.key valueKey) part old old'
  refine Update.concur_mappedPayload alike old old' ?_
  exact inner

private theorem exists_objects (alike : Resembles Bared v w) (named : discriminant v = .ok kind) :
    ∃ o es p fs, v = .object o es ∧ w = .object p fs := by
  obtain ⟨o, es, rfl, -⟩ := discriminant_eq_ok.mp named
  obtain ⟨p, fs, rfl, -⟩ := discriminant_eq_ok.mp ((discriminant_eq alike).trans named)
  exact ⟨o, es, p, fs, rfl, rfl⟩

variable {payloads : List (String × Payload (Conversion Fault))}

theorem readVariant_steady
    (spread : ∀ kind fields, Entries.get? kind payloads = some (.spread fields) →
      ∀ key c, (key, c) ∈ fields → SteadyAt Value.BlamesAbsent (.key key) c)
    (held : ∀ kind c, Entries.get? kind payloads = some (.held c) → Steady Value.BlamesAbsent c) :
    Steady Value.BlamesAbsent (readVariant payloads) := by
  intro fresh fresh' v w alike old old'
  refine (concur_asObject alike).bind fun ⟨o, es⟩ ⟨p, fs⟩ shapes => ?_
  obtain ⟨rfl, rfl⟩ := shapes
  dsimp only
  rw [discriminant_eq alike]
  cases discriminant (.object o es) with
  | error fault => exact .failed fault
  | ok kind =>
    simp only [ok_bind]
    cases declared : Entries.get? kind payloads with
    | none => exact .failed _
    | some payload =>
      cases payload with
      | none => exact (concur_expectKeys alike kind _).bind fun _ _ _ => .ok (paired_kept alike)
      | spread fields =>
        exact convertProperties_steady (spread kind fields declared) alike old old'
      | held c =>
        refine (concur_expectKeys alike kind _).bind fun _ _ _ => ?_
        have there : (Value.get valueKey (.object p fs)).isAbsent =
            (Value.get valueKey (.object o es)).isAbsent :=
          (resembles_property alike valueKey).isAbsent_eq
        rw [there]
        split
        · exact .failed _
        · exact concur_held blamesAbsent_inward (held kind c declared) alike old old'

def convertVariant (undeclared : String → Value → Except Fault Value)
    (payloads : List (String × Payload (Conversion Fault))) : Conversion Fault := fun fresh v => do
  let kind ← discriminant v
  match Entries.get? kind payloads with
  | none => undeclared kind v
  | some .none => return v
  | some (.spread fields) => convertProperties fields fresh v
  | some (.held payload) =>
    mappedPayload fresh kind
      (fun x => located (.key valueKey) (payload (fresh.enter (.key valueKey)) x)) v

theorem convertVariant_steady (inward : Inward excused)
    {undeclared : String → Value → Except Fault Value}
    (strange : ∀ kind v w, Resembles Bared v w →
      Concur (Paired v w) (excused v) (undeclared kind v) (undeclared kind w))
    (spread : ∀ kind fields, Entries.get? kind payloads = some (.spread fields) →
      ∀ key c, (key, c) ∈ fields → SteadyAt excused (.key key) c)
    (held : ∀ kind c, Entries.get? kind payloads = some (.held c) → Steady excused c) :
    Steady excused (convertVariant undeclared payloads) := by
  intro fresh fresh' v w alike old old'
  rw [convertVariant, convertVariant, discriminant_eq alike]
  cases named : discriminant v with
  | error fault => exact .failed fault
  | ok kind =>
    obtain ⟨o, es, p, fs, rfl, rfl⟩ := exists_objects alike named
    simp only [ok_bind]
    cases declared : Entries.get? kind payloads with
    | none => exact strange kind _ _ alike
    | some payload =>
      cases payload with
      | none => exact .ok (paired_kept alike)
      | spread fields =>
        exact convertProperties_steady (spread kind fields declared) alike old old'
      | held c => exact concur_held inward (held kind c declared) alike old old'

def undeclaredWritten (options : WriteOptions) (kind : String) (_ : Value) : Except Fault Value :=
  if options.choiceFallthrough then .ok .absent else .error (.of (.unknownVariant kind))

theorem writeVariant_eq (options : WriteOptions) :
    writeVariant options payloads = convertVariant (undeclaredWritten options) payloads :=
  rfl

variable {γ : Type} {fields : List (String × Schema) → List (String × γ)} {whole : Schema → γ}
  {variants : List (String × Option Schema)}

theorem exists_spread {converted : List (String × γ)}
    (found : Entries.get? kind (Entries.mapValues (fun _ => payloadBy fields whole) variants) =
      some (.spread converted)) :
    ∃ declared, (kind, some (.object declared)) ∈ variants ∧ converted = fields declared := by
  rw [Entries.get?_mapValues, Option.map_eq_some_iff] at found
  obtain ⟨payload, there, same⟩ := found
  have member := Entries.mem_of_get? there
  cases payload with
  | none => simp [payloadBy] at same
  | some payload =>
    cases payload with
    | object declared => exact ⟨declared, member, (Payload.spread.inj same).symm⟩
    | _ => simp [payloadBy] at same

theorem exists_held {converted : γ}
    (found : Entries.get? kind (Entries.mapValues (fun _ => payloadBy fields whole) variants) =
      some (.held converted)) :
    ∃ payload, (kind, some payload) ∈ variants ∧ converted = whole payload := by
  rw [Entries.get?_mapValues, Option.map_eq_some_iff] at found
  obtain ⟨payload, there, same⟩ := found
  have member := Entries.mem_of_get? there
  cases payload with
  | none => simp [payloadBy] at same
  | some payload =>
    cases payload with
    | object declared => simp [payloadBy] at same
    | _ => exact ⟨_, member, (Payload.held.inj same).symm⟩

private theorem steady_option {c : Conversion Fault} (steady : Steady excused c) :
    Steady excused fun fresh v => if v.isAbsent then .ok .absent else c fresh v := by
  intro fresh fresh' v w alike old old'
  dsimp only
  rw [alike.isAbsent_eq]
  split
  · next gone =>
    obtain rfl := Value.isAbsent_eq_true.mp gone
    obtain rfl := alike.absent_iff.mp rfl
    exact .ok (paired_kept alike)
  · exact steady alike old old'

private theorem readProperty_steady {key : String} {optional : Bool} {field : Conversion Fault}
    (steady : Steady Value.BlamesAbsent field) :
    SteadyAt Value.BlamesAbsent (.key key) (readProperty key optional field) := by
  intro fresh fresh' v w alike old old'
  rw [readProperty, readProperty, alike.isAbsent_eq]
  split
  · exact .failed _
  · exact steady.at blamesAbsent_inward (.key key) alike old old'

theorem reader_steady (schema : Schema) : Steady Value.BlamesAbsent (reader schema) := by
  have declared : ∀ fields : List (String × Schema),
      (∀ name field, (name, field) ∈ fields → Steady Value.BlamesAbsent (reader field)) →
      ∀ key c, (key, c) ∈ fieldReaders fields → SteadyAt Value.BlamesAbsent (.key key) c := by
    intro fields steady key c member
    rw [fieldReaders_eq] at member
    obtain ⟨field, there, rfl⟩ := Entries.mem_mapValues.mp member
    exact readProperty_steady (steady key field there)
  induction schema using byLayout with
  | leaf l => exact Leaf.read_steady _ l
  | option inner ih => exact steady_option ih
  | array item ih => exact convertEach_steady blamesAbsent_inward ih
  | tuple elems ih =>
    rw [reader, elemReaders_eq_map]
    refine convertPositions_steady blamesAbsent_inward fun c member => ?_
    obtain ⟨elem, there, rfl⟩ := List.mem_map.mp member
    exact ih elem there
  | object fields ih => exact convertProperties_steady (declared fields ih)
  | choice variants held spread =>
    refine readVariant_steady (fun kind converted found => ?_) fun kind c found => ?_
    · rw [variantReaders_eq] at found
      obtain ⟨fields, member, rfl⟩ := exists_spread found
      exact declared fields (spread kind fields member)
    · rw [variantReaders_eq] at found
      obtain ⟨payload, member, rfl⟩ := exists_held found
      exact held kind payload member

theorem writer_steady (options : WriteOptions) (inward : Inward excused) (schema : Schema) :
    Steady excused (writer options schema) := by
  have declared : ∀ fields : List (String × Schema),
      (∀ name field, (name, field) ∈ fields → Steady excused (writer options field)) →
      ∀ key c, (key, c) ∈ fieldWriters options fields → SteadyAt excused (.key key) c := by
    intro fields steady key c member
    rw [fieldWriters_eq] at member
    obtain ⟨field, there, rfl⟩ := Entries.mem_mapValues.mp member
    exact (steady key field there).at inward (.key key)
  induction schema using byLayout with
  | leaf l => exact Leaf.write_steady excused options l
  | option inner ih => exact steady_option ih
  | array item ih => exact convertEach_steady inward ih
  | tuple elems ih =>
    rw [writer, elemWriters_eq_map]
    refine convertPositions_steady inward fun c member => ?_
    obtain ⟨elem, there, rfl⟩ := List.mem_map.mp member
    exact ih elem there
  | object fields ih => exact convertProperties_steady (declared fields ih)
  | choice variants held spread =>
    rw [writer, writeVariant_eq]
    refine convertVariant_steady inward (fun kind v w alike => ?_) (fun kind converted found => ?_)
      fun kind c found => ?_
    · unfold undeclaredWritten
      split
      · exact .ok ⟨.scalar rfl, by cases alike <;> rfl⟩
      · exact .failed _
    · rw [variantWriters_eq] at found
      obtain ⟨fields, member, rfl⟩ := exists_spread found
      exact declared fields (spread kind fields member)
    · rw [variantWriters_eq] at found
      obtain ⟨payload, member, rfl⟩ := exists_held found
      exact held kind payload member

private theorem steady_trusted {c : Conversion Fault} {t : Trust} {fits : Value → Prop}
    (steady : Steady excused c) (respects : ∀ v w, Resembles Bared v w → (fits v ↔ fits w))
    (landed : ∀ fresh v, fits v ∧ c fresh v = .ok (t fresh v) ∨ ¬fits v ∧ t fresh v = v) :
    Steady excused fun fresh v => .ok (t fresh v) := by
  intro fresh fresh' v w alike old old'
  dsimp only
  rcases landed fresh v with ⟨here, done⟩ | ⟨other, kept⟩
  · rcases landed fresh' w with ⟨-, done'⟩ | ⟨other, -⟩
    · rw [← done, ← done']
      exact steady alike old old'
    · exact absurd ((respects v w alike).mp here) other
  · rcases landed fresh' w with ⟨here, -⟩ | ⟨-, kept'⟩
    · exact absurd ((respects v w alike).mpr here) other
    · rw [kept, kept']
      exact .ok (paired_kept alike)

private theorem array_respected (v w : Value) (alike : Resembles Bared v w) :
    (∃ o vs, v = .array o vs) ↔ ∃ p ws, w = .array p ws := by
  cases alike <;> simp

private theorem object_respected (v w : Value) (alike : Resembles Bared v w) :
    (∃ o es, v = .object o es) ↔ ∃ p fs, w = .object p fs := by
  cases alike <;> simp

private theorem named_respected (v w : Value) (alike : Resembles Bared v w) :
    (∃ kind, discriminant v = .ok kind) ↔ ∃ kind, discriminant w = .ok kind := by
  rw [discriminant_eq alike]

private theorem trust_array_steady (inward : Inward excused) {item : Schema}
    (steady : Steady excused (Engine.trust.convert item)) :
    Steady excused (Engine.trust.convert (.array item)) := by
  refine steady_trusted (convertEach_steady inward steady) array_respected fun fresh v => ?_
  have done : Engine.trust.convert (.array item) fresh v = .ok (truster (.array item) fresh v) := rfl
  rcases Engine.convert_array done with ⟨o, vs, rfl, each⟩ | ⟨kept, other⟩
  · exact Or.inl ⟨⟨o, vs, rfl⟩, each⟩
  · exact Or.inr ⟨fun ⟨o, vs, same⟩ => other o vs same, kept⟩

private theorem trust_tuple_steady (inward : Inward excused) {elems : List Schema}
    (steady : ∀ elem ∈ elems, Steady excused (Engine.trust.convert elem)) :
    Steady excused (Engine.trust.convert (.tuple elems)) := by
  have each : ∀ c ∈ elems.map Engine.trust.convert, Steady excused c := by
    intro c member
    obtain ⟨elem, there, rfl⟩ := List.mem_map.mp member
    exact steady elem there
  refine steady_trusted (convertItems_steady (convertAt_steady inward each)) array_respected
    fun fresh v => ?_
  have done : Engine.trust.convert (.tuple elems) fresh v = .ok (truster (.tuple elems) fresh v) :=
    rfl
  rcases Engine.convert_tuple done with ⟨o, vs, f, rfl, made, each⟩ | ⟨kept, other⟩
  · obtain rfl : f = fun j x => convertAt (elems.map Engine.trust.convert) j
        (fresh.enter (.index j)) x := funext fun j => funext fun x => each j x
    exact Or.inl ⟨⟨o, vs, rfl⟩, made⟩
  · exact Or.inr ⟨fun ⟨o, vs, same⟩ => other o vs same, kept⟩

private theorem trust_fields_steady (inward : Inward excused) {declared : List (String × Schema)}
    (steady : ∀ name field, (name, field) ∈ declared →
      Steady excused (Engine.trust.convert field)) :
    ∀ key c, (key, c) ∈ Entries.mapValues Engine.trust.field declared →
      SteadyAt excused (.key key) c := by
  intro key c member
  obtain ⟨field, there, rfl⟩ := Entries.mem_mapValues.mp member
  exact (steady key field there).at inward (.key key)

private theorem trust_object_steady (inward : Inward excused) {declared : List (String × Schema)}
    (steady : ∀ name field, (name, field) ∈ declared →
      Steady excused (Engine.trust.convert field)) :
    Steady excused (Engine.trust.convert (.object declared)) := by
  refine steady_trusted (convertProperties_steady (trust_fields_steady inward steady))
    object_respected fun fresh v => ?_
  have done : Engine.trust.convert (.object declared) fresh v =
    .ok (truster (.object declared) fresh v) := rfl
  rcases Engine.convert_object done with ⟨o, es, rfl, made⟩ | ⟨kept, other⟩
  · exact Or.inl ⟨⟨o, es, rfl⟩, made⟩
  · exact Or.inr ⟨fun ⟨o, es, same⟩ => other o es same, kept⟩

private theorem trust_choice_steady (inward : Inward excused)
    (held : ∀ kind payload, (kind, some payload) ∈ variants →
      Steady excused (Engine.trust.convert payload))
    (spread : ∀ kind declared, (kind, some (.object declared)) ∈ variants →
      ∀ name field, (name, field) ∈ declared → Steady excused (Engine.trust.convert field)) :
    Steady excused (Engine.trust.convert (.choice variants)) := by
  have steady : Steady excused (convertVariant (fun _ v => .ok v) (Entries.mapValues
      (fun _ => payloadBy (Entries.mapValues Engine.trust.field) Engine.trust.convert)
      variants)) := by
    refine convertVariant_steady inward (fun _ v w alike => .ok (paired_kept alike))
      (fun kind converted found => ?_) fun kind c found => ?_
    · obtain ⟨declared, member, rfl⟩ := exists_spread found
      exact trust_fields_steady inward (spread kind declared member)
    · obtain ⟨payload, member, rfl⟩ := exists_held found
      exact held kind payload member
  refine steady_trusted steady named_respected fun fresh v => ?_
  have done : Engine.trust.convert (.choice variants) fresh v =
    .ok (truster (.choice variants) fresh v) := rfl
  rcases Engine.convert_choice done with ⟨o, es, kind, rfl, named, landed⟩ | ⟨kept, other⟩
  · have found : discriminant (.object o es) = .ok kind :=
      discriminant_eq_ok.mpr ⟨o, es, rfl, named⟩
    refine Or.inl ⟨⟨kind, found⟩, ?_⟩
    rw [convertVariant, found, ok_bind, Entries.get?_mapValues]
    cases declared : Entries.get? kind variants with
    | none =>
      rw [declared] at landed
      exact congrArg Except.ok landed.symm
    | some payload =>
      rw [declared] at landed
      cases payload with
      | none => exact congrArg Except.ok landed.symm
      | some payload =>
        rcases landed with ⟨fields, rfl, made⟩ | ⟨plain, mapped, made, shape⟩
        · exact made
        · rw [Option.map_some, payloadBy_held _ _ plain]
          exact mappedPayload_eq_ok.mpr ⟨mapped, made, shape⟩
  · refine Or.inr ⟨fun ⟨kind, found⟩ => ?_, kept⟩
    obtain ⟨o, es, shape, named⟩ := discriminant_eq_ok.mp found
    exact other o es kind shape named

theorem trust_steady (inward : Inward excused) (schema : Schema) :
    Steady excused (Engine.trust.convert schema) := by
  induction schema using byLayout with
  | leaf l => exact Leaf.trust_steady excused l
  | option inner ih =>
    have same : Engine.trust.convert (.option inner) = fun fresh v =>
        if v.isAbsent then .ok .absent else Engine.trust.convert inner fresh v := by
      funext fresh v
      simp only [Engine.convert, truster]
      split <;> rfl
    rw [same]
    exact steady_option ih
  | array item ih => exact trust_array_steady inward ih
  | tuple elems ih => exact trust_tuple_steady inward ih
  | object fields ih => exact trust_object_steady inward ih
  | choice variants held spread => exact trust_choice_steady inward held spread

/-- What excuses a failure of the checking engine; the others need no excuse. -/
def Engine.excuses : Engine → Value → Fault → Prop
  | .read => Value.BlamesAbsent
  | _ => fun _ _ => False

/-- Every engine does the same with values that resemble each other. -/
theorem Engine.steady (engine : Engine) (schema : Schema) :
    Steady engine.excuses (engine.convert schema) := by
  cases engine with
  | read => exact reader_steady schema
  | trust => exact trust_steady (fun _ _ _ => id) schema
  | write options => exact writer_steady options (fun _ _ _ => id) schema

end Schema

end WireSchema
