import WireSchema.Convert.Normal
import WireSchema.Proofs.Convert.InPlace
import WireSchema.Proofs.Convert.Steady

/-!
Native values on their way through a document: written with all options off, turned into a tree, and
read from the tree. Only what is absent may be lost. A key that is missing stays missing, but nothing
else that is absent comes back, since a tree has null in its place or the reader wants something
there.
-/

set_option autoImplicit false

namespace WireSchema

open WireSchema.Update (property kindKey valueKey variantValue)

namespace Value

/-- Values that are trees: nothing native or absent is in them and no number that is not finite. -/
structure Portable (v : Value) : Prop where
  plain : v.Plain
  tree : v.HasTree

theorem Portable.ne_absent {v : Value} (portable : v.Portable) : v ≠ .absent :=
  portable.plain.whole.ne_absent

theorem portable_string (s : String) : Portable (.string s) :=
  ⟨.string s, .string s, rfl⟩

theorem portable_number {x : Binary64} (finite : x.isFinite = true) : Portable (.number x) :=
  ⟨.number x, exists_numberJson finite⟩

theorem portable_array {origin : Origin} {items : List Value}
    (each : ∀ x ∈ items, x.Portable) : Portable (.array origin items) :=
  ⟨.array fun x member => (each x member).plain,
    hasTree_array.mpr fun x member => (each x member).tree⟩

theorem portable_object {origin : Origin} {entries : List (String × Value)}
    (distinct : Entries.Distinct entries)
    (each : ∀ key value, (key, value) ∈ entries → value.Portable) :
    Portable (.object origin entries) :=
  ⟨.object distinct fun key value member => (each key value member).plain,
    hasTree_object.mpr fun key value member => (each key value member).tree⟩

theorem portable_variantValue (fresh : Origin) (kind : String) {y : Value} (portable : y.Portable) :
    (variantValue fresh kind y).Portable := by
  rw [Schema.variantValue_eq fresh kind portable.ne_absent]
  refine portable_object Schema.distinct_pair fun key value member => ?_
  rcases Schema.mem_pair member with rfl | rfl
  · exact portable_string kind
  · exact portable

theorem resembles_ofJson {v : Value} (plain : v.Plain) {json : Json} (done : v.toJson = .ok json)
    (origin : Origin) : Resembles Bared (ofJson origin json) v := by
  induction plain generalizing json origin with
  | null | bool | string =>
    obtain rfl := Except.ok.inj done
    exact .scalar rfl
  | number x =>
    rcases numberJson_eq_ok.mp done with ⟨n, safe, rfl⟩ | ⟨-, -, rfl⟩
    · exact .number (alikeNumbers_ofInt safe)
    · exact .scalar rfl
  | @array o items _ ih =>
    obtain ⟨trees, each, rfl⟩ := toJson_array.mp done
    obtain ⟨length, each⟩ := itemsJson_eq_ok.mp each
    refine .array ((length_ofItems _ _ _).trans length) fun i x y found there => ?_
    rw [getElem?_ofItems, Option.map_eq_some_iff] at found
    obtain ⟨tree, here, rfl⟩ := found
    obtain ⟨_, again, made⟩ := each i y there
    obtain rfl := Option.some.inj (here.symm.trans again)
    exact ih y (List.mem_of_getElem? there) made _
  | @object o entries distinct each ih =>
    obtain ⟨members, made, rfl⟩ := toJson_object.mp done
    have whole : Whole (.object o entries) := (Plain.object distinct each).whole
    obtain ⟨tree, rfl, trees⟩ := exists_trees distinct whole.filled made
    rw [ofJson, ofMembers_eq, Entries.mapValues_mapValues]
    have filled : Filled (Entries.mapValues (fun key _ => ofJson (origin.enter (.key key)) (tree key))
        entries) := by
      rintro ⟨key, value⟩ member
      obtain ⟨_, -, rfl⟩ := Entries.mem_mapValues.mp member
      exact ofJson_ne_absent _ _
    refine .object ⟨⟨distinct.mapValues _, distinct⟩, ?_⟩ fun key => ?_
    · rw [filled.present_eq, Entries.names_mapValues]
    · rw [property, property, Entries.get?_mapValues]
      cases found : Entries.get? key entries with
      | none => exact .scalar rfl
      | some x =>
        have member := Entries.mem_of_get? found
        exact ih key x member (trees key x member) _

theorem Whole.part {v : Value} (whole : v.Whole) (step : Step) :
    v.part step = .absent ∨ (v.part step).Whole := by
  rcases v.part_cases step with gone | ⟨origin, items, rfl, member⟩ | ⟨origin, es, key, rfl, member⟩
  · exact Or.inl gone
  · exact Or.inr (whole.item _ member)
  · exact Or.inr (whole.entry member)

theorem walk_absent (p : Path) : walk p .absent = .absent := by
  induction p with
  | nil => rfl
  | cons step rest ih => cases step <;> exact ih

theorem Whole.walk {v : Value} (whole : v.Whole) (p : Path) :
    v.walk p = .absent ∨ (v.walk p).Whole := by
  induction p generalizing v with
  | nil => exact Or.inr whole
  | cons step rest ih =>
    rcases whole.part step with gone | there
    · exact Or.inl (by rw [Value.walk, gone, walk_absent])
    · exact ih there

theorem Whole.not_blamesAbsent {v : Value} (whole : v.Whole) (fault : Fault) :
    ¬v.BlamesAbsent fault := by
  rintro ⟨kind, key, origin, entries, -, place, member⟩
  rcases whole.walk fault.path with gone | there
  · rw [gone] at place
    cases place
  · rw [place] at there
    exact (there.entry member).ne_absent rfl

theorem Whole.of_alike {a b : Value} (whole : a.Whole) (tidy : b.Proper)
    (equal : a.alike b = true) : b.Whole := by
  induction whole generalizing b with
  | scalar plain there =>
    have scalar : b.isContainer = false ∧ b ≠ .absent := by
      rename_i a
      cases a <;> cases b <;> simp_all [alike, equalBy, isContainer]
    exact .scalar scalar.1 scalar.2
  | @array origin items _ ih =>
    cases b with
    | array other values =>
      obtain ⟨length, each⟩ := alike_array.mp equal
      refine .array fun y member => ?_
      obtain ⟨i, there⟩ := List.mem_iff_getElem?.mp member
      have within : i < items.length := length ▸ (List.getElem?_eq_some_iff.mp there).1
      have found := List.getElem?_eq_getElem within
      exact ih _ (List.mem_of_getElem? found) (tidy.items y member) (each i _ y found there)
    | _ => simp [alike, equalBy] at equal
  | @object origin entries distinct _ ih =>
    cases b with
    | object other fields =>
      obtain ⟨-, each⟩ := alike_object.mp equal
      refine .object tidy.distinct fun key y member => ?_
      obtain ⟨x, there⟩ := Entries.exists_get?_of_mem_names
        ((names_perm_of_alike distinct equal).mem_iff.mpr (Entries.mem_names_of_mem member))
      have old := Entries.mem_of_get? there
      obtain ⟨z, found, same⟩ := each key x old
      rw [Entries.get?_of_mem tidy.distinct member] at found
      obtain rfl := Option.some.inj found
      exact ih key x old (tidy.entries key y member) same
    | _ => simp [alike, equalBy] at equal

theorem exists_ofJson_object {o origin : Origin} {entries : List (String × Value)}
    (distinct : Entries.Distinct entries) {json : Json}
    (done : toJson (.object o entries) = .ok json) :
    ∃ fs, ofJson origin json = .object origin fs ∧
      (∀ key, property key entries = .absent → property key fs = .absent) ∧
      ∀ key, property key entries ≠ .absent → ∃ tree, (property key entries).toJson = .ok tree ∧
        property key fs = ofJson (origin.enter (.key key)) tree := by
  obtain ⟨members, made, rfl⟩ := toJson_object.mp done
  rw [← entriesJson_present] at made
  have filled : Filled (present entries) := fun _ member => (mem_present.mp member).2
  obtain ⟨tree, rfl, trees⟩ := exists_trees (distinct_present distinct) filled made
  rw [ofJson, ofMembers_eq, Entries.mapValues_mapValues]
  refine ⟨_, rfl, fun key gone => ?_, fun key there => ?_⟩
  · refine property_of_not_mem fun member => ?_
    rw [Entries.names_mapValues] at member
    exact (mem_names_present distinct).mp member gone
  · have member := mem_present.mpr ⟨Entries.mem_of_get? (get?_of_property there), there⟩
    exact ⟨tree key, trees key _ member,
      Convert.property_mapValues (distinct_present distinct) member⟩

end Value

namespace Leaf

theorem portable_write {l : Leaf} {v w : Value} (holds : l.Holds v)
    (free : l = .json → v.Portable) (done : l.write .off v = .ok w) : w.Portable := by
  have integer : ∀ range : IntegerRange, range.Holds v → v.Portable := by
    rintro range ⟨x, n, rfl, integral, -⟩
    exact Value.portable_number (Binary64.isFinite_of_toInt integral)
  cases l with
  | bool =>
    obtain ⟨b, rfl⟩ := holds
    obtain rfl := Except.ok.inj done
    exact ⟨.bool b, .bool b, rfl⟩
  | string =>
    obtain ⟨s, rfl⟩ := holds
    obtain rfl := Except.ok.inj done
    exact Value.portable_string s
  | int | u32 | i32 =>
    obtain rfl := Except.ok.inj done
    exact integer _ holds
  | json =>
    obtain rfl := Except.ok.inj done
    exact free rfl
  | number =>
    obtain ⟨x, rfl⟩ := holds
    obtain rfl := Except.ok.inj done
    cases finite : x.isFinite with
    | true => simpa [finite] using Value.portable_number finite
    | false => simpa [finite] using Value.portable_string _
  | bigint | u64 | i64 =>
    obtain ⟨_, _, -, rfl⟩ := writeBigint_eq_ok.mp done
    exact Value.portable_string _
  | date =>
    obtain ⟨_, -, rfl⟩ := writeDate_eq_ok.mp done
    exact Value.portable_string _
  | temporal kind =>
    obtain ⟨_, -, -, rfl⟩ := writeTemporal_eq_ok.mp done
    exact Value.portable_string _

end Leaf

namespace Schema

open WireSchema.Convert
open WireSchema.Value (Portable Whole Plain)

variable {fresh origin : Origin} {entries : List (String × Value)} {v w : Value}

/-- What stands in a value where the schema says nothing about it: an opaque part, or a property
that is not declared. -/
inductive Loose : Schema → Value → Value → Prop where
  | json {v : Value} : Loose (.leaf .json) v v
  | field {fields : List (String × Schema)} {origin : Origin} {entries : List (String × Value)}
      {key : String} : key ∉ Entries.names fields →
      Loose (.object fields) (.object origin entries) (property key entries)
  | beside {variants : List (String × Option Schema)} {fields : List (String × Schema)}
      {origin : Origin} {entries : List (String × Value)} {kind key : String} :
      property kindKey entries = .string kind →
      Entries.get? kind variants = some (some (.object fields)) → key ∉ Entries.names fields →
      Loose (.choice variants) (.object origin entries) (property key entries)

/-- The opaque and undeclared parts of a value, if they are there, are documents' values. -/
def Documented (schema : Schema) (v : Value) : Prop :=
  ∀ p s x y, Visits schema v p s x → Loose s x y → y ≠ .absent → y.Portable

theorem Documented.enter {schema part : Schema} {step : Step} {y : Value}
    (documented : Documented schema v) (enters : Enters schema v step part y) :
    Documented part y :=
  fun p s x z visits loose => documented (step :: p) s x z (.enter enters visits) loose

theorem Documented.option {inner : Schema} (documented : Documented (.option inner) v)
    (there : v ≠ .absent) : Documented inner v :=
  fun p s x y visits loose => documented p s x y (.option there visits) loose

theorem Documented.loose {schema : Schema} {y : Value} (documented : Documented schema v)
    (loose : Loose schema v y) (there : y ≠ .absent) : y.Portable :=
  documented [] schema v y .here loose there

theorem documented_absent (schema : Schema) : Documented schema .absent := by
  intro p s x y visits loose there
  cases visits with
  | here =>
    cases loose with
    | json => exact absurd rfl there
  | option present _ => exact absurd rfl present
  | enter enters _ => cases enters

theorem documented_leaf {l : Leaf} (free : l = .json → v.Portable) : Documented (.leaf l) v := by
  intro p s x y visits loose _
  cases visits with
  | here =>
    cases loose with
    | json => exact free rfl
  | enter enters _ => cases enters

theorem documented_array {item : Schema} {values : List Value}
    (each : ∀ x ∈ values, Documented item x) : Documented (.array item) (.array origin values) := by
  intro p s x y visits loose there
  cases visits with
  | here => cases loose
  | enter enters visits =>
    cases enters with
    | item found => exact each _ (List.mem_of_getElem? found) _ s x y visits loose there

theorem documented_object {fields : List (String × Schema)}
    (each : ∀ key field, (key, field) ∈ fields → Documented field (property key entries))
    (others : ∀ key, key ∉ Entries.names fields → property key entries ≠ .absent →
      (property key entries).Portable) :
    Documented (.object fields) (.object origin entries) := by
  intro p s x y visits loose there
  cases visits with
  | here =>
    cases loose with
    | field outside => exact others _ outside there
  | enter enters visits =>
    cases enters with
    | field member => exact each _ _ member _ s x y visits loose there

private theorem portable_fields {fields : List (String × Schema)}
    (distinct : Entries.Distinct fields) (whole : (Value.object origin entries).Whole)
    (old : (Value.object origin entries).Predates fresh)
    (declared : ∀ key field, (key, field) ∈ fields → property key entries ≠ .absent → ∀ y,
      writer .off field (fresh.enter (.key key)) (property key entries) = .ok y → y.Portable)
    (others : ∀ key, key ∉ Entries.names fields → property key entries ≠ .absent →
      (property key entries).Portable)
    (done : writer .off (.object fields) fresh (.object origin entries) = .ok w) : w.Portable := by
  have inPlace := inPlace_writers distinct old whole (fun key field member present y made =>
    (declared key field member present y made).ne_absent) done
  obtain ⟨p, results, rfl, unique, each⟩ := inPlace.exists_object (P := Portable) whole.distinct
    fun key within => by
      have present := whole.filled.property_ne within
      by_cases member : key ∈ Entries.names fields
      · obtain ⟨field, here⟩ := Entries.exists_get?_of_mem_names member
        have here := Entries.mem_of_get? here
        exact declared key field here present _ (written_field inPlace here)
      · have outside : key ∉ Entries.names (fieldWriters .off fields) := by
          rwa [fieldWriters_eq, Entries.names_mapValues]
        rw [inPlace.others key outside]
        exact others key member present
  exact Value.portable_object unique each

private theorem portable_bare {kind : String} (whole : (Value.object origin entries).Whole)
    (named : property kindKey entries = .string kind)
    (keys : ∀ key ∈ Entries.names entries, key = kindKey) : (Value.object origin entries).Portable := by
  refine Value.portable_object whole.distinct fun key value member => ?_
  obtain rfl := keys key (Entries.mem_names_of_mem member)
  rw [← Value.property_of_mem whole.distinct member, named]
  exact Value.portable_string kind

private theorem portable_held {kind : String} {mapped : Value}
    (whole : (Value.object origin entries).Whole) (named : property kindKey entries = .string kind)
    (keys : ∀ key ∈ Entries.names entries, key = kindKey ∨ key = valueKey)
    (portable : mapped.Portable)
    (same : mapped.same (property valueKey entries) = true → mapped = property valueKey entries) :
    (if mapped.same (property valueKey entries) then .object origin entries
      else variantValue fresh kind mapped).Portable := by
  split
  · next kept =>
    refine Value.portable_object whole.distinct fun key value member => ?_
    have own := Value.property_of_mem whole.distinct member
    rcases keys key (Entries.mem_names_of_mem member) with rfl | rfl
    · rw [← own, named]
      exact Value.portable_string kind
    · rw [← own, ← same kept]
      exact portable
  · exact Value.portable_variantValue fresh kind portable

private def WritesPortably (schema : Schema) : Prop :=
  ∀ {fresh : Origin} {v w : Value}, schema.Proper → v.Whole → v.Predates fresh →
    Conforms schema v → Documented schema v → writer .off schema fresh v = .ok w → w.Portable

private theorem writesPortably_choice {variants : List (String × Option Schema)}
    (ih : ∀ kind payload, (kind, some payload) ∈ variants → WritesPortably payload)
    (parts : ∀ kind fields, (kind, some (.object fields)) ∈ variants →
      ∀ key field, (key, field) ∈ fields → WritesPortably field) :
    WritesPortably (.choice variants) := by
  intro fresh v w proper whole old conforms documented done
  cases proper with
  | choice distinct inside =>
    cases conforms with
    | bare named member keys =>
      have done := (writer_choice_eq_ok named).mp done
      rw [Entries.get?_of_mem distinct member] at done
      obtain rfl : w = .object _ _ := done
      exact portable_bare whole named keys
    | spread named member conforms =>
      have declared := Entries.get?_of_mem distinct member
      have done := (writer_choice_eq_ok named).mp done
      rw [declared] at done
      rcases done with ⟨fields, same, done⟩ | ⟨object, -⟩
      · obtain rfl := Schema.object.inj same
        have unique := inside _ _ member
        cases conforms with
        | object filled required conforms =>
          refine portable_fields unique.distinct whole old (fun key field here present y made => ?_)
            (fun key outside present => documented.loose (.beside named declared outside) present)
            done
          exact parts _ _ member key field here (unique.field here) (whole.property_of_ne present)
            ((old.property key).enter _) (conforms key field here)
            (documented.enter (.spread named declared here)) made
      · simp [isObject] at object
    | held named member object keys there conforms =>
      have declared := Entries.get?_of_mem distinct member
      have done := (writer_choice_eq_ok named).mp done
      rw [declared] at done
      rcases done with ⟨fields, rfl, -⟩ | ⟨-, mapped, made, rfl⟩
      · simp [isObject] at object
      · have before := (old.property valueKey).enter (.key valueKey)
        refine portable_held whole named keys ?_ (writer_discerning .off _ _ _ before mapped made)
        exact ih _ _ member (inside _ _ member) (whole.property_of_ne there) before conforms
          (documented.enter (.held named declared object)) made

/-- A native value in which nothing is absent is written as a document's value. -/
theorem portable_writer {schema : Schema} (proper : schema.Proper) (whole : v.Whole)
    (old : v.Predates fresh) (conforms : Conforms schema v) (documented : Documented schema v)
    (done : writer .off schema fresh v = .ok w) : w.Portable := by
  induction schema using byLayout generalizing fresh v w with
  | leaf l =>
    cases conforms with
    | leaf holds =>
      refine Leaf.portable_write holds (fun json => ?_) done
      subst json
      exact documented.loose .json whole.ne_absent
  | option inner ih =>
    cases proper with
    | option inside =>
      have there := whole.ne_absent
      rw [writer_option there] at done
      cases conforms with
      | missing => exact absurd rfl there
      | option conforms => exact ih inside whole old conforms (documented.option there) done
  | array item ih =>
    cases proper with
    | array inside =>
      cases conforms with
      | array conforms =>
        obtain ⟨p, results, rfl, each⟩ := (itemwise_each (writer_discerning .off item)).exists_array
          (P := Portable) old (fun j x y origin values shape _ found made => by
            obtain ⟨rfl, rfl⟩ := Value.array.inj shape
            have member := List.mem_of_getElem? found
            exact ih inside (whole.item x member) ((old.item member).enter _) (conforms x member)
              (documented.enter (.item found)) made) done
        exact Value.portable_array each
  | tuple elems ih =>
    cases proper with
    | tuple inside =>
      cases conforms with
      | tuple length conforms =>
        obtain ⟨p, results, rfl, each⟩ := (itemwise_writer_tuple .off elems).exists_array
          (P := Portable) old (fun j x y origin values shape _ found made => by
            obtain ⟨rfl, rfl⟩ := Value.array.inj shape
            have within : j < elems.length := length ▸ (List.getElem?_eq_some_iff.mp found).1
            have here := List.getElem?_eq_getElem within
            have declared := List.mem_of_getElem? here
            have member := List.mem_of_getElem? found
            rw [atPosition_eq here] at made
            exact ih _ declared (inside _ declared) (whole.item x member) ((old.item member).enter _)
              (conforms j _ x here found) (documented.enter (.elem here found)) made) done
        exact Value.portable_array each
  | object fields ih =>
    cases conforms with
    | object filled required conforms =>
      refine portable_fields proper.distinct whole old (fun key field member present y made => ?_)
        (fun key outside present => documented.loose (.field outside) present) done
      exact ih key field member (proper.field member) (whole.property_of_ne present)
        ((old.property key).enter _) (conforms key field member) (documented.enter (.field member))
        made
  | choice variants ih parts =>
    exact writesPortably_choice ih parts proper whole old conforms documented done

/-- What a value becomes on its way through a document: it is written with all options off, what is
written is turned into a tree, and the tree is read. -/
def Delivered (schema : Schema) (v back : Value) : Prop :=
  ∃ wire json, Schema.write .off schema v = .ok wire ∧ wire.toJson = .ok json ∧
    schema.read (.ofDocument json) = .ok back

theorem Delivered.whole {schema : Schema} {back : Value} (proper : schema.Proper) (tidy : v.Proper)
    (conforms : Conforms schema v) (delivered : Delivered schema v back) : back.Whole := by
  obtain ⟨wire, json, done, tree, read⟩ := delivered
  have stands := (writes .off proper tidy v.predates_freshOrigin conforms).carried wire done
  have plain : (Value.ofDocument json).Plain :=
    Value.plain_ofJson (Value.proper_of_toJson stands.proper tree) _
  exact reader_whole proper plain (Value.predates_freshOrigin _) read

theorem exists_read_of_portable {schema : Schema} {wire native : Value} (proper : schema.Proper)
    (portable : wire.Portable) (read : schema.read wire = .ok native) :
    ∃ json back, wire.toJson = .ok json ∧ schema.read (.ofDocument json) = .ok back ∧
      back.alike native = true := by
  obtain ⟨json, tree⟩ := portable.tree
  have plain : (Value.ofDocument json).Plain :=
    Value.plain_ofJson (portable.plain.settled tree).1 _
  have steady : Concur (Paired (.ofDocument json) wire) (Value.BlamesAbsent (.ofDocument json))
      (schema.read (.ofDocument json)) (schema.read wire) :=
    reader_steady schema (Value.resembles_ofJson portable.plain tree _)
      (Value.predates_freshOrigin _) wire.predates_freshOrigin
  rw [read] at steady
  cases reread : schema.read (.ofDocument json) with
  | error fault =>
    rw [reread] at steady
    cases steady with
    | excused excuse => exact absurd excuse (plain.whole.not_blamesAbsent fault)
  | ok back =>
    rw [reread] at steady
    cases steady with
    | ok paired =>
      have first := reader_whole proper plain (Value.predates_freshOrigin _) reread
      have second := reader_whole proper portable.plain wire.predates_freshOrigin read
      have equal := paired.alike.alike_stripped
      rw [first.stripped_eq, second.stripped_eq] at equal
      exact ⟨json, back, tree, reread, equal⟩

theorem not_delivered {schema : Schema} {wire : Value} {json : Json} {fault : Fault}
    (done : Schema.write .off schema v = .ok wire) (tree : wire.toJson = .ok json)
    (refused : schema.read (.ofDocument json) = .error fault) : ¬∃ back, Delivered schema v back := by
  rintro ⟨back, other, another, again, made, read⟩
  obtain rfl := Except.ok.inj (done.symm.trans again)
  obtain rfl := Except.ok.inj (tree.symm.trans made)
  rw [refused] at read
  cases read

/-- A payload that is held has to be there: without it the object that is read is refused. -/
theorem not_delivered_of_missing_payload {variants : List (String × Option Schema)}
    {payload : Schema} {kind : String} (tidy : (Value.object origin entries).Proper)
    (named : property kindKey entries = .string kind)
    (declared : Entries.get? kind variants = some (some payload)) (solid : payload.isObject = false)
    (gone : property valueKey entries = .absent) :
    ¬∃ back, Delivered (.choice variants) (.object origin entries) back := by
  rintro ⟨back, wire, json, done, tree, read⟩
  have kept : wire = .object origin entries := by
    have written := (writer_choice_eq_ok named).mp done
    rw [declared] at written
    rcases written with ⟨fields, rfl, -⟩ | ⟨-, mapped, made, rfl⟩
    · simp [isObject] at solid
    · rw [gone] at made ⊢
      rw [writer_fixesAbsent .off payload _ mapped made]
      exact if_pos rfl
  subst kept
  obtain ⟨fs, shape, missing, there⟩ := Value.exists_ofJson_object tidy.distinct tree
  obtain ⟨name, spelled, shown⟩ := there kindKey (by simp [named])
  rw [named] at spelled
  obtain rfl := Except.ok.inj spelled
  rw [Value.ofDocument, shape] at read
  rcases (reader_choice_eq_ok shown declared).mp read with ⟨fields, rfl, -⟩ | ⟨-, -, held, -⟩
  · simp [isObject] at solid
  · exact held (missing valueKey gone)

/-- A native value comes back from a document as an equal one exactly if nothing in it is absent. A
key of an object that is missing altogether is no obstacle. -/
theorem delivered_iff_whole {schema : Schema} (proper : schema.Proper) (tidy : v.Proper)
    (conforms : Conforms schema v) (documented : Documented schema v) :
    (∃ back, Delivered schema v back ∧ back.alike v = true) ↔ v.Whole := by
  constructor
  · rintro ⟨back, delivered, equal⟩
    exact (delivered.whole proper tidy conforms).of_alike tidy equal
  · intro whole
    obtain ⟨⟨wire, done⟩, carried⟩ :=
      writes .off proper tidy v.predates_freshOrigin conforms
    have stands := carried wire done
    have portable := portable_writer proper whole v.predates_freshOrigin conforms documented done
    obtain ⟨native, read⟩ := stands.reads wire.freshOrigin wire.predates_freshOrigin
    have equal := stands.back _ native wire.predates_freshOrigin read
    obtain ⟨json, back, tree, reread, same⟩ := exists_read_of_portable proper portable read
    exact ⟨back, ⟨wire, json, done, tree, reread⟩, Value.alike_trans same equal⟩

theorem delivered_iff_whole_optional :
    let schema : Schema :=
      .object [("a", .option (.leaf .u64)), ("n", .leaf .bigint), ("j", .leaf .json)]
    let entries : List (String × Value) :=
      [("n", .bigint (.root 0) 7), ("j", .string "x"), ("extra", .null)]
    let v : Value := .object (.root 1) entries
    schema.Proper ∧ v.Proper ∧ Conforms schema v ∧ Documented schema v ∧ v.Whole ∧
      ∃ back, Delivered schema v back ∧ back.alike v = true := by
  intro schema entries v
  have proper : schema.Proper := by decide +zetaReduce
  have whole : v.Whole := by
    refine .object (by decide) fun key value member => ?_
    simp only [entries, List.mem_cons, Prod.mk.injEq, List.not_mem_nil, or_false] at member
    rcases member with ⟨-, rfl⟩ | ⟨-, rfl⟩ | ⟨-, rfl⟩ <;> exact .scalar rfl (by simp)
  have conforms : Conforms schema v := by
    refine .object whole.filled (fun key field member required => ?_) fun key field member => ?_ <;>
      simp only [List.mem_cons, Prod.mk.injEq, List.not_mem_nil, or_false] at member <;>
      rcases member with ⟨rfl, rfl⟩ | ⟨rfl, rfl⟩ | ⟨rfl, rfl⟩
    · cases required
    · simp [entries, property, Entries.get?]
    · simp [entries, property, Entries.get?]
    · exact .missing
    · exact .leaf ⟨.root 0, 7, rfl⟩
    · exact .leaf trivial
  have documented : Documented schema v := by
    refine documented_object (fun key field member => ?_) fun key outside there => ?_
    · simp only [List.mem_cons, Prod.mk.injEq, List.not_mem_nil, or_false] at member
      rcases member with ⟨rfl, rfl⟩ | ⟨rfl, rfl⟩ | ⟨rfl, rfl⟩
      · exact documented_absent _
      · exact documented_leaf (by simp)
      · exact documented_leaf fun _ => Value.portable_string "x"
    · rcases Value.property_mem key entries with gone | member
      · exact absurd gone there
      · simp only [entries, List.mem_cons, Prod.mk.injEq, List.not_mem_nil, or_false] at member
        rcases member with ⟨rfl, -⟩ | ⟨rfl, -⟩ | ⟨-, null⟩
        · exact absurd (by decide) outside
        · exact absurd (by decide) outside
        · rw [null]
          exact ⟨.null, .null, rfl⟩
  exact ⟨proper, whole.proper, conforms, documented, whole,
    (delivered_iff_whole proper whole.proper conforms documented).mpr whole⟩

/-- An option that is absent is not delivered on its own, as an item or as an element, since there is
null in its place, and not as a payload, since that has to be there. -/
theorem delivers_no_absent_option :
    let item : Schema := .option (.leaf .u64)
    let v : Value := .array (.root 0) [.absent]
    let bare : Value := .object (.root 0) [("kind", .string "a")]
    (Schema.array item).Proper ∧ v.Proper ∧ Conforms (.array item) v ∧ Documented (.array item) v ∧
      (¬∃ back, Delivered (.array item) v back) ∧ (¬∃ back, Delivered (.tuple [item]) v back) ∧
      (¬∃ back, Delivered (.choice [("a", some item)]) bare back) ∧
      ¬∃ back, Delivered item .absent back := by
  intro item v bare
  have proper : (Schema.array item).Proper := by decide +zetaReduce
  have tidy : v.Proper := by decide +zetaReduce
  have conforms : Conforms (.array item) v := .array fun x member => by
    obtain rfl := List.mem_singleton.mp member
    exact .missing
  have documented : Documented (.array item) v := documented_array fun x member => by
    obtain rfl := List.mem_singleton.mp member
    exact documented_absent item
  have named : bare.Proper := by decide +zetaReduce
  refine ⟨proper, tidy, conforms, documented, ?_, ?_, ?_, ?_⟩
  · exact not_delivered rfl rfl rfl
  · exact not_delivered rfl rfl rfl
  · exact not_delivered_of_missing_payload named rfl rfl rfl rfl
  · exact not_delivered rfl rfl rfl

end Schema

end WireSchema
