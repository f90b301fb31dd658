import WireSchema.Proofs.Json.Reading
import WireSchema.Proofs.Schema
import WireSchema.Schema.Document

/-!
Every schema that is read from a text is proper. Fields and variants are gathered under distinct
names wherever they are read: in their place, or from parts that were kept until their kind was
known.
-/

set_option autoImplicit false

namespace WireSchema.Schema

open WireSchema.Json (Node Member Mark Ending Problem DocumentCause DocumentFault within_eq_ok
  withinKey withinIndex)

theorem proper_ofFields {fields : List (String × Schema)}
    (inside : ∀ name field, (name, field) ∈ fields → field.Proper) : (ofFields fields).Proper :=
  .object (Entries.distinct_ofList _) fun name field member =>
    inside name field (Entries.mem_of_mem_ofList member)

theorem proper_ofVariants {variants : List (String × Option Schema)}
    (inside : ∀ name payload, (name, some payload) ∈ variants → payload.Proper) :
    (ofVariants variants).Proper :=
  .choice (Entries.distinct_ofList _) fun name payload member =>
    inside name payload (Entries.mem_of_mem_ofList member)

private theorem exists_source {α β : Type} (makes : List α → List β → Prop) (gives : α → β → Prop)
    (nil : ∀ bs, makes [] bs → bs = [])
    (cons : ∀ a as bs, makes (a :: as) bs → ∃ b more, bs = b :: more ∧ gives a b ∧ makes as more)
    {as : List α} {bs : List β} (done : makes as bs) : ∀ b ∈ bs, ∃ a ∈ as, gives a b := by
  induction as generalizing bs with
  | nil => simp [nil bs done]
  | cons a rest ih =>
    obtain ⟨b, more, rfl, given, others⟩ := cons a rest bs done
    refine List.forall_mem_cons.mpr ⟨⟨a, List.mem_cons_self, given⟩, fun c member => ?_⟩
    obtain ⟨source, there, given⟩ := ih others c member
    exact ⟨source, List.mem_cons_of_mem _ there, given⟩

structure Reading.Sound (reading : Reading) : Prop where
  description : ∀ schema, reading.description = .ok schema → schema.Proper
  parts : ∀ kind schema, reading.parts kind = .ok schema → schema.Proper
  payload : ∀ schema, reading.payload = .ok (some schema) → schema.Proper

def Progress.Sound : Progress → Prop
  | .nothing | .kind _ => True
  | .parts kept => ∀ kind schema, kept kind = .ok schema → schema.Proper
  | .both schema => schema.Proper

theorem Progress.Sound.finish {progress : Progress} (seen : progress.Sound) {schema : Schema}
    (done : progress.finish = .ok schema) : schema.Proper := by
  cases progress with
  | nothing | parts => simp [Progress.finish] at done
  | kind kind =>
    cases kind with
    | leaf l =>
      obtain rfl := Except.ok.inj done
      exact .leaf l
    | _ => simp [Progress.finish, ofKindAlone] at done
  | both whole => exact Except.ok.inj done ▸ seen

private theorem described_fieldsOf {members : List (String × Reading)}
    {fields : List (String × Schema)} (done : fieldsOf members = .ok fields) :
    ∀ field ∈ fields, ∃ member ∈ members, member.2.description = .ok field.2 := by
  refine exists_source (fun members fields => fieldsOf members = .ok fields) _
    (fun fields done => (Except.ok.inj done).symm) (fun member rest fields done => ?_) done
  simp only [fieldsOf, bind_eq_ok, pure_eq_ok] at done
  obtain ⟨schema, described, more, others, rfl⟩ := done
  exact ⟨_, more, rfl, described, others⟩

private theorem described_variantsOf {members : List (String × Reading)}
    {variants : List (String × Option Schema)} (done : variantsOf members = .ok variants) :
    ∀ variant ∈ variants, ∃ member ∈ members, member.2.payload = .ok variant.2 := by
  refine exists_source (fun members variants => variantsOf members = .ok variants) _
    (fun variants done => (Except.ok.inj done).symm) (fun member rest variants done => ?_) done
  simp only [variantsOf, bind_eq_ok, pure_eq_ok] at done
  obtain ⟨payload, described, more, others, rfl⟩ := done
  exact ⟨_, more, rfl, described, others⟩

private theorem described_elemsOf {items : List Reading} {elems : List Schema}
    (done : elemsOf items = .ok elems) :
    ∀ elem ∈ elems, ∃ item ∈ items, item.description = .ok elem := by
  refine exists_source (fun items elems => elemsOf items = .ok elems) _
    (fun elems done => (Except.ok.inj done).symm) (fun item rest elems done => ?_) done
  simp only [elemsOf, bind_eq_ok, pure_eq_ok] at done
  obtain ⟨schema, described, more, others, rfl⟩ := done
  exact ⟨_, more, rfl, described, others⟩

private theorem proper_of_memberDescription {members : List (String × Reading)}
    (sound : ∀ member ∈ members, member.2.Sound) (progress : Progress)
    (seen : progress.Sound) {schema : Schema}
    (done : memberDescription progress members = .ok schema) : schema.Proper := by
  induction members generalizing progress with
  | nil => exact seen.finish done
  | cons member rest ih =>
    have here := sound member List.mem_cons_self
    have later : ∀ progress : Progress, progress.Sound →
        memberDescription progress rest = .ok schema → schema.Proper :=
      ih fun member there => sound member (List.mem_cons_of_mem _ there)
    unfold memberDescription at done
    split at done
    · cases progress with
      | nothing =>
        obtain ⟨kind, -, done⟩ := bind_eq_ok.mp done
        exact later (.kind kind) trivial done
      | parts parts =>
        simp only [bind_eq_ok] at done
        obtain ⟨kind, -, whole, read, done⟩ := done
        exact later (.both whole) (seen kind whole read) done
      | kind | both => simp at done
    · split at done
      · cases progress with
        | nothing => exact later (.parts member.2.parts) here.parts done
        | kind k =>
          obtain ⟨whole, read, done⟩ := bind_eq_ok.mp done
          exact later (.both whole) (here.parts k whole read) done
        | parts | both => simp at done
      · exact later progress seen done

private theorem sound_scalar (json : Json) : (Reading.ofScalar json).Sound := by
  constructor
  · simp [Reading.ofScalar]
  · intro kind schema done
    cases kind with
    | leaf l =>
      cases json with
      | null =>
        obtain rfl := Except.ok.inj done
        exact .leaf l
      | _ => simp [Reading.ofScalar, leafParts] at done
    | _ => simp [Reading.ofScalar] at done
  · intro schema done
    cases json <;> simp [Reading.ofScalar, scalarPayload] at done

private theorem proper_map {ε : Type} {description : Except ε Schema}
    (proper : ∀ schema, description = .ok schema → schema.Proper) {wrap : Schema → Schema}
    (wraps : ∀ {inner : Schema}, inner.Proper → (wrap inner).Proper) {schema : Schema}
    (done : description.map wrap = .ok schema) : schema.Proper := by
  obtain ⟨inner, read, rfl⟩ := map_eq_ok.mp done
  exact wraps (proper inner read)

private theorem proper_map_some {ε : Type} {description : Except ε Schema}
    (proper : ∀ schema, description = .ok schema → schema.Proper) {schema : Schema}
    (done : description.map some = .ok (some schema)) : schema.Proper := by
  obtain ⟨inner, read, same⟩ := map_eq_ok.mp done
  exact Option.some.inj same ▸ proper inner read

private theorem sound_members {members : List (String × Reading)}
    (sound : ∀ member ∈ members, member.2.Sound) :
    (Reading.ofMembers members).Sound := by
  have description : ∀ schema, memberDescription .nothing members = .ok schema → schema.Proper :=
    fun schema done => proper_of_memberDescription sound Progress.nothing trivial done
  refine ⟨description, fun kind schema done => ?_, fun schema done => ?_⟩
  · cases kind with
    | leaf | tuple => simp [Reading.ofMembers] at done
    | option => exact proper_map description .option done
    | array => exact proper_map description .array done
    | object =>
      obtain ⟨fields, read, rfl⟩ := map_eq_ok.mp done
      refine proper_ofFields fun name field declared => ?_
      obtain ⟨member, there, described⟩ := described_fieldsOf read _ declared
      exact (sound member there).description field described
    | choice =>
      obtain ⟨variants, read, rfl⟩ := map_eq_ok.mp done
      refine proper_ofVariants fun name payload declared => ?_
      obtain ⟨member, there, described⟩ := described_variantsOf read _ declared
      exact (sound member there).payload payload described
  · exact proper_map_some description done

private theorem sound_items {items : List Reading} (sound : ∀ reading ∈ items, reading.Sound) :
    (Reading.ofItems items).Sound := by
  have description : ∀ schema, itemDescription items = .ok schema → schema.Proper := by
    intro schema done
    match items with
    | [] => simp [itemDescription] at done
    | [first] => simp [itemDescription] at done
    | first :: second :: rest =>
      simp only [itemDescription, bind_eq_ok] at done
      obtain ⟨kind, -, whole, read, done⟩ := done
      split at done
      · obtain rfl := pure_eq_ok.mp done
        exact (sound second (by simp)).parts kind whole read
      · simp at done
  refine ⟨description, fun kind schema done => ?_, fun schema done => ?_⟩
  · cases kind with
    | leaf | object | choice => simp [Reading.ofItems] at done
    | option => exact proper_map description .option done
    | array => exact proper_map description .array done
    | tuple =>
      obtain ⟨elems, read, rfl⟩ := map_eq_ok.mp done
      refine .tuple fun elem declared => ?_
      obtain ⟨item, there, described⟩ := described_elemsOf read elem declared
      exact (sound item there).description elem described
  · exact proper_map_some description done

private theorem itemReadings_eq_map (items : List Json) : itemReadings items = items.map reading := by
  induction items with
  | nil => rfl
  | cons item rest ih => simp [itemReadings, ih]

private theorem memberReadings_eq (members : List (String × Json)) :
    memberReadings members = Entries.mapValues (fun _ value => reading value) members := by
  induction members with
  | nil => rfl
  | cons member rest ih => simp [memberReadings, ih]

theorem sound_reading (json : Json) : (reading json).Sound := by
  induction json using Json.byParts with
  | null | bool | integer | double | string => exact sound_scalar _
  | array items ih =>
    rw [reading, itemReadings_eq_map]
    refine sound_items fun read member => ?_
    obtain ⟨item, there, rfl⟩ := List.mem_map.mp member
    exact ih item there
  | object members ih =>
    rw [reading, memberReadings_eq]
    refine sound_members fun member there => ?_
    obtain ⟨value, there, same⟩ := Entries.mem_mapValues.mp there
    exact same ▸ ih member.1 value there

@[simp] theorem placing_eq_ok {α : Type} {mark : Mark} {x : Except DocumentCause α} {a : α} :
    placing mark x = .ok a ↔ x = .ok a := by
  cases x <;> simp [placing]

namespace PlacedReading

structure Sound (reading : PlacedReading) : Prop where
  description : ∀ depth schema, reading.description depth = .ok schema → schema.Proper
  parts : ∀ kind depth schema, reading.parts kind depth = .ok schema → schema.Proper
  payload : ∀ depth schema, reading.payload depth = .ok (some schema) → schema.Proper

private theorem described_fields {ending : Ending} {depth : Nat} {members : List PlacedMember}
    {fields : List (String × Schema)} (done : fieldsOf ending depth members = .ok fields) :
    ∀ field ∈ fields, ∃ m ∈ members, m.reading.description depth = .ok field.2 := by
  refine exists_source (fun members fields => fieldsOf ending depth members = .ok fields) _
    (fun fields done => ?_) (fun m rest fields done => ?_) done
  · cases ending with
    | closed finish => exact (Except.ok.inj done).symm
    | cut problem => simp [fieldsOf, endOfMembers, Json.nameFault, Json.within] at done
  · simp only [fieldsOf, bind_eq_ok, pure_eq_ok, withinKey, within_eq_ok] at done
    obtain ⟨_, -, _, -, schema, described, more, others, rfl⟩ := done
    exact ⟨_, more, rfl, described, others⟩

private theorem described_variants {ending : Ending} {depth : Nat} {members : List PlacedMember}
    {variants : List (String × Option Schema)}
    (done : variantsOf ending depth members = .ok variants) :
    ∀ variant ∈ variants, ∃ m ∈ members, m.reading.payload depth = .ok variant.2 := by
  refine exists_source (fun members variants => variantsOf ending depth members = .ok variants) _
    (fun variants done => ?_) (fun m rest variants done => ?_) done
  · cases ending with
    | closed finish => exact (Except.ok.inj done).symm
    | cut problem => simp [variantsOf, endOfMembers, Json.nameFault, Json.within] at done
  · simp only [variantsOf, bind_eq_ok, pure_eq_ok, withinKey, within_eq_ok] at done
    obtain ⟨_, -, _, -, payload, described, more, others, rfl⟩ := done
    exact ⟨_, more, rfl, described, others⟩

private theorem described_elems {ending : Ending} {depth i : Nat} {items : List PlacedReading}
    {elems : List Schema} (done : elemsOf ending depth i items = .ok elems) :
    ∀ elem ∈ elems, ∃ item ∈ items, item.description depth = .ok elem := by
  refine exists_source (fun items elems => ∃ i, elemsOf ending depth i items = .ok elems) _
    (fun elems done => ?_) (fun item rest elems done => ?_) ⟨i, done⟩
  · obtain ⟨_, done⟩ := done
    cases ending with
    | closed finish => exact (Except.ok.inj done).symm
    | cut problem => simp [elemsOf] at done
  · simp only [elemsOf, bind_eq_ok, pure_eq_ok, withinIndex, within_eq_ok] at done
    obtain ⟨i, schema, described, more, others, rfl⟩ := done
    exact ⟨_, more, rfl, described, i + 1, others⟩

private theorem sound_failing (start pastComma : Mark) (isString : Bool) (problem : Problem) :
    (failing start pastComma isString problem).Sound := by
  constructor <;> simp [failing]

private theorem sound_ofScalar (start finish : Mark) (value : Json.Scalar) :
    (ofScalar start finish value).Sound := by
  have sound := sound_scalar value.json
  refine ⟨fun _ schema done => ?_, fun kind _ schema done => ?_, fun _ schema done => ?_⟩
  · exact sound.description schema (placing_eq_ok.mp done)
  · exact sound.parts kind schema (placing_eq_ok.mp done)
  · exact sound.payload schema (placing_eq_ok.mp done)

private theorem proper_memberDescription {ending : Ending} {depth : Nat}
    {members : List PlacedMember} (sound : ∀ m ∈ members, m.reading.Sound) (progress : Progress)
    (seen : progress.Sound) {schema : Schema}
    (done : memberDescription ending depth progress members = .ok schema) : schema.Proper := by
  induction members generalizing progress with
  | nil =>
    cases ending with
    | closed finish => exact seen.finish (placing_eq_ok.mp done)
    | cut problem => simp [memberDescription, endOfMembers, Json.nameFault, Json.within] at done
  | cons m rest ih =>
    have here := sound m List.mem_cons_self
    have later : ∀ progress : Progress, progress.Sound →
        memberDescription ending depth progress rest = .ok schema → schema.Proper :=
      ih fun m there => sound m (List.mem_cons_of_mem _ there)
    rw [memberDescription] at done
    obtain ⟨name, -, done⟩ := bind_eq_ok.mp done
    split at done
    · cases progress with
      | nothing =>
        simp only [bind_eq_ok] at done
        obtain ⟨_, -, kind, -, done⟩ := done
        exact later (.kind kind) trivial done
      | parts parts =>
        simp only [bind_eq_ok, placing_eq_ok] at done
        obtain ⟨_, -, kind, -, whole, read, done⟩ := done
        exact later (.both whole) (seen kind whole read) done
      | kind | both => simp at done
    · split at done
      · cases progress with
        | nothing =>
          simp only [bind_eq_ok] at done
          obtain ⟨_, -, content, -, done⟩ := done
          exact later (.parts (Schema.reading content).parts)
            (sound_reading content).parts done
        | kind k =>
          simp only [bind_eq_ok, withinKey, within_eq_ok] at done
          obtain ⟨_, -, whole, read, done⟩ := done
          exact later (.both whole) (here.parts k depth whole read) done
        | parts | both => simp at done
      · simp only [bind_eq_ok] at done
        obtain ⟨_, -, _, -, done⟩ := done
        exact later progress seen done

private theorem sound_ofMembers (start : Mark) {members : List PlacedMember}
    (sound : ∀ m ∈ members, m.reading.Sound) (ending : Ending) :
    (ofMembers start members ending).Sound := by
  have description : ∀ depth schema,
      (ofMembers start members ending).description depth = .ok schema → schema.Proper := by
    intro depth schema done
    obtain ⟨_, -, done⟩ := bind_eq_ok.mp done
    exact proper_memberDescription sound Progress.nothing trivial done
  refine ⟨description, fun kind depth schema done => ?_, fun depth schema done => ?_⟩
  · cases kind with
    | leaf | tuple => simp [ofMembers] at done
    | option => exact proper_map (description depth) .option done
    | array => exact proper_map (description depth) .array done
    | object =>
      obtain ⟨_, -, done⟩ := bind_eq_ok.mp done
      obtain ⟨fields, read, rfl⟩ := map_eq_ok.mp done
      refine proper_ofFields fun name field declared => ?_
      obtain ⟨m, there, described⟩ := described_fields read _ declared
      exact (sound m there).description _ field described
    | choice =>
      obtain ⟨_, -, done⟩ := bind_eq_ok.mp done
      obtain ⟨variants, read, rfl⟩ := map_eq_ok.mp done
      refine proper_ofVariants fun name payload declared => ?_
      obtain ⟨m, there, described⟩ := described_variants read _ declared
      exact (sound m there).payload _ payload described
  · exact proper_map_some (description depth) done

private theorem sound_ofItems (start : Mark) {items : List PlacedReading}
    (sound : ∀ reading ∈ items, reading.Sound) (ending : Ending) :
    (ofItems start items ending).Sound := by
  have description : ∀ depth schema,
      (ofItems start items ending).description depth = .ok schema → schema.Proper := by
    intro depth schema done
    obtain ⟨_, -, done⟩ := bind_eq_ok.mp done
    match items with
    | [] => cases ending <;> simp [itemDescription, tooShort] at done
    | [first] => cases ending <;> simp [itemDescription, tooShort] at done
    | first :: second :: rest =>
      simp only [itemDescription, bind_eq_ok, pure_eq_ok, withinIndex, within_eq_ok] at done
      obtain ⟨kind, -, whole, read, _, -, rfl⟩ := done
      exact (sound second (by simp)).parts kind _ whole read
  refine ⟨description, fun kind depth schema done => ?_, fun depth schema done => ?_⟩
  · cases kind with
    | leaf | object | choice => simp [ofItems] at done
    | option => exact proper_map (description depth) .option done
    | array => exact proper_map (description depth) .array done
    | tuple =>
      obtain ⟨_, -, done⟩ := bind_eq_ok.mp done
      obtain ⟨elems, read, rfl⟩ := map_eq_ok.mp done
      refine .tuple fun elem declared => ?_
      obtain ⟨item, there, described⟩ := described_elems read elem declared
      exact (sound item there).description _ elem described
  · exact proper_map_some (description depth) done

mutual

theorem sound_ofNode : ∀ node : Node, (ofNode node).Sound
  | .scalar start finish value => sound_ofScalar start finish value
  | .flawed _ _ _ _ => sound_failing _ _ _ _
  | .broken _ _ _ _ _ => sound_failing _ _ _ _
  | .withheld _ => sound_failing _ _ _ _
  | .list start items ending => sound_ofItems start (sound_ofNodes items) ending
  | .object start members ending => sound_ofMembers start (sound_ofMemberNodes members) ending

private theorem sound_ofNodes : ∀ items : List Node, ∀ reading ∈ ofNodes items, reading.Sound
  | [], _, member => absurd member List.not_mem_nil
  | item :: rest, reading, member => by
    rcases List.mem_cons.mp member with rfl | later
    · exact sound_ofNode item
    · exact sound_ofNodes rest reading later

private theorem sound_ofMemberNodes : ∀ members : List (Member × Node),
    ∀ m ∈ ofMemberNodes members, m.reading.Sound
  | [], _, member => absurd member List.not_mem_nil
  | (_, value) :: rest, m, member => by
    rcases List.mem_cons.mp member with rfl | later
    · exact sound_ofNode value
    · exact sound_ofMemberNodes rest m later

end

end PlacedReading

theorem proper_of_ofText {text : String} {schema : Schema} (done : ofText text = .ok schema) :
    schema.Proper :=
  (PlacedReading.sound_ofNode _).description _ schema done

end WireSchema.Schema
