import WireSchema.Proofs.Convert.Normal

/-!
What is read of a document can be written with all options off, and what is written is a document
that can be read. Only a payload that declares the name of its own variant could be in the way: the
name might be read as something else.
-/

set_option autoImplicit false

namespace WireSchema

namespace Leaf

private theorem exists_written_kept {l : Leaf} {v n : Value}
    (written : ∀ v, l.write .off v = .ok v) (tree : v.HasTree) (kept : n = v) :
    ∃ w, l.write .off n = .ok w ∧ w.HasTree :=
  ⟨n, written n, kept ▸ tree⟩

private theorem exists_written_text {l : Leaf} {n : Value} {s : String}
    (written : l.write .off n = .ok (.string s)) : ∃ w, l.write .off n = .ok w ∧ w.HasTree :=
  ⟨.string s, written, .string s, rfl⟩

private theorem exists_date {v n : Value} (read : readDate v = .ok n) : ∃ t, n = .date t := by
  cases v with
  | date t => exact ⟨t, (Except.ok.inj read).symm⟩
  | string s =>
    obtain ⟨t, -, rfl⟩ := map_eq_ok.mp read
    exact ⟨t, rfl⟩
  | _ => simp [readDate, Value.mistyped] at read

private theorem exists_temporal {kind : TemporalKind} {v n : Value}
    (read : readTemporal kind v = .ok n) : ∃ t, n = .temporal t ∧ t.kind = kind := by
  cases v with
  | temporal t =>
    simp only [readTemporal] at read
    split at read
    · next same => exact ⟨t, (Except.ok.inj read).symm, same⟩
    · simp [Value.mistyped] at read
  | string s =>
    obtain ⟨t, found, rfl⟩ := map_eq_ok.mp read
    unfold temporalOfText at found
    split at found
    · next valid =>
      obtain rfl := Except.ok.inj found
      exact ⟨_, rfl, (Calendar.Temporal.valid_of_read valid).2⟩
    · simp at found
  | _ => simp [readTemporal, Value.mistyped] at read

theorem exists_written {l : Leaf} {fresh : Origin} {v n : Value} (tree : v.HasTree)
    (read : l.read fresh v = .ok n) : ∃ w, l.write .off n = .ok w ∧ w.HasTree := by
  cases l with
  | bool =>
    refine exists_written_kept (fun _ => rfl) tree ?_
    cases v <;> simp_all [Leaf.read, readBool, Value.mistyped]
  | string =>
    refine exists_written_kept (fun _ => rfl) tree ?_
    cases v <;> simp_all [Leaf.read, readString, Value.mistyped]
  | int | u32 | i32 => exact exists_written_kept (fun _ => rfl) tree (readInteger_eq read).symm
  | json => exact exists_written_kept (fun _ => rfl) tree (Except.ok.inj read).symm
  | number =>
    obtain ⟨x, rfl⟩ := exists_number read
    cases finite : x.isFinite with
    | true =>
      refine ⟨.number x, ?_, Value.exists_numberJson finite⟩
      simp [write, WriteOptions.off, writeNumber, finite]
    | false =>
      refine exists_written_text (s := x.text) ?_
      simp [write, WriteOptions.off, writeNumber, finite]
  | bigint | u64 | i64 =>
    obtain ⟨i, -, rfl⟩ := map_eq_ok.mp read
    exact exists_written_text rfl
  | date =>
    obtain ⟨t, rfl⟩ := exists_date read
    exact exists_written_text rfl
  | temporal kind =>
    obtain ⟨t, rfl, same⟩ := exists_temporal read
    exact exists_written_text (writeTemporal_eq_ok.mpr ⟨t, rfl, same, rfl⟩)

end Leaf

namespace Schema

open WireSchema.Convert
open WireSchema.Update (property kindKey valueKey)

/-- No payload whose fields stand beside the name of its variant declares that name as a field, here
and further in. -/
inductive KindFree : Schema → Prop where
  | leaf (l : Leaf) : KindFree (.leaf l)
  | option {inner : Schema} : KindFree inner → KindFree (.option inner)
  | array {item : Schema} : KindFree item → KindFree (.array item)
  | tuple {elems : List Schema} : (∀ elem ∈ elems, KindFree elem) → KindFree (.tuple elems)
  | object {fields : List (String × Schema)} :
      (∀ name field, (name, field) ∈ fields → KindFree field) → KindFree (.object fields)
  | choice {variants : List (String × Option Schema)} :
      (∀ kind payload, (kind, some payload) ∈ variants → KindFree payload) →
      (∀ kind fields, (kind, some (.object fields)) ∈ variants →
        kindKey ∉ Entries.names fields) →
      KindFree (.choice variants)

def Passes (schema : Schema) : Prop :=
  ∀ fresh later v n, v.Plain → v.HasTree → v.Predates fresh → reader schema fresh v = .ok n →
    n.Predates later → ∃ w, writer .off schema later n = .ok w ∧ w.HasTree

private theorem passes_option {inner : Schema} (proper : inner.Proper) (ih : Passes inner) :
    Passes (.option inner) := by
  intro fresh later v n plain tree old read old'
  rw [reader_option plain.whole.ne_absent] at read
  rw [writer_option (reader_whole proper plain old read).ne_absent]
  exact ih fresh later v n plain tree old read old'

private theorem passes_items {read write : Conversion Fault} {size : Nat → Prop}
    {reads writes : Nat → Conversion Fault} (reading : Itemwise read size reads)
    (writing : Itemwise write size writes) {fresh later : Origin} {v n : Value}
    (plain : v.Plain) (tree : v.HasTree) (old : v.Predates fresh) (done : read fresh v = .ok n)
    (old' : n.Predates later)
    (parts : ∀ (length j : Nat), size length → j < length → ∀ fresh later x y, x.Plain →
      x.HasTree → x.Predates fresh → reads j fresh x = .ok y → y.Predates later →
      ∃ z, writes j later y = .ok z ∧ z.HasTree) :
    ∃ w, write later n = .ok w ∧ w.HasTree := by
  obtain ⟨o, values, _, rfl, -⟩ := (reading _ _ _ old).mp done
  obtain ⟨p, natives, rfl, fits, length, made, -⟩ := reading.results old done
  have part : ∀ (j : Nat) (y : Value), natives[j]? = some y →
      ∃ z, writes j (later.enter (.index j)) y = .ok z ∧ z.HasTree := by
    intro j y native
    have within : j < values.length := length ▸ (List.getElem?_eq_some_iff.mp native).1
    have found := List.getElem?_eq_getElem within
    obtain ⟨_, again, read⟩ := made j _ found
    obtain rfl := Option.some.inj (native.symm.trans again)
    have member := List.mem_of_getElem? found
    exact parts values.length j fits within _ _ _ y (plain.item _ member)
      (Value.hasTree_array.mp tree _ member) ((old.item member).enter _) read
      ((old'.item (List.mem_of_getElem? native)).enter _)
  obtain ⟨w, written⟩ := writing.exists old' (length ▸ fits) fun j y native => by
    obtain ⟨z, written, -⟩ := part j y native
    exact ⟨z, written⟩
  refine ⟨w, written, ?_⟩
  obtain ⟨q, wires, rfl, -, length', made', -⟩ := writing.results old' written
  refine Value.hasTree_array.mpr fun z member => ?_
  obtain ⟨j, wire⟩ := List.mem_iff_getElem?.mp member
  have within : j < natives.length := length' ▸ (List.getElem?_eq_some_iff.mp wire).1
  have native := List.getElem?_eq_getElem within
  obtain ⟨_, again, written⟩ := made' j _ native
  obtain rfl := Option.some.inj (wire.symm.trans again)
  obtain ⟨z', written', tree⟩ := part j _ native
  obtain rfl := Except.ok.inj (written.symm.trans written')
  exact tree

private theorem passes_array {item : Schema} (ih : Passes item) : Passes (.array item) := by
  intro fresh later v n plain tree old read old'
  exact passes_items (itemwise_each (reader_discerning item))
    (itemwise_each (writer_discerning .off item)) plain tree old read old' fun _ _ _ _ => ih

private theorem passes_tuple {elems : List Schema} (ih : ∀ elem ∈ elems, Passes elem) :
    Passes (.tuple elems) := by
  intro fresh later v n plain tree old read old'
  refine passes_items (itemwise_reader_tuple elems) (itemwise_writer_tuple .off elems) plain tree
    old read old' fun length j fits within => ?_
  have here := List.getElem?_eq_getElem (fits ▸ within : j < elems.length)
  rw [atPosition_eq here, atPosition_eq here]
  exact ih _ (List.mem_of_getElem? here)

private theorem passes_object {fields : List (String × Schema)}
    (proper : (Schema.object fields).Proper)
    (ih : ∀ key field, (key, field) ∈ fields → Passes field) : Passes (.object fields) := by
  intro fresh later v n plain tree old read old'
  obtain ⟨origin, entries, -, rfl, -⟩ := convertProperties_eq_ok_iff.mp read
  obtain ⟨-, reads⟩ := reader_fields proper plain old read
  have part : ∀ key field, (key, field) ∈ fields → key ∈ Entries.names entries →
      ∃ y, writer .off field (later.enter (.key key)) (n.get key) = .ok y ∧ y.HasTree := by
    intro key field member within
    exact ih key field member _ _ _ _ (plain.property within) (Value.hasTree_property tree key)
      ((old.property key).enter _) (read_field reads member).2 ((old'.get key).enter _)
  obtain ⟨w, written⟩ : ∃ w, writer .off (.object fields) later n = .ok w := by
    obtain ⟨p, es, rfl, -⟩ := reads.exists_entries
    refine exists_writer_object fun key field member => ?_
    by_cases within : key ∈ Entries.names entries
    · obtain ⟨y, written, -⟩ := part key field member within
      exact ⟨y, written⟩
    · have absent : property key es = .absent := reads.missing within
      have optional := (read_field reads member).1 (Value.property_of_not_mem within)
      rw [absent]
      exact ⟨_, writer_absent optional _ _⟩
  refine ⟨w, written, ?_⟩
  have both := passed proper (fun key field member => settles .off (proper.field member)) plain
    old read old' written
  obtain ⟨q, shape⟩ := both.wire
  rw [shape]
  refine Value.hasTree_object.mpr fun key value member => ?_
  obtain ⟨x, there, rfl⟩ := Entries.mem_mapValues.mp member
  have read := both.read key
  have written := both.written key
  cases here : Entries.get? key fields with
  | none =>
    rw [atKey_eq_idle here] at read written
    rw [← Except.ok.inj written, ← Except.ok.inj read]
    exact Value.hasTree_property tree key
  | some field =>
    rw [atKey_eq here] at written
    obtain ⟨y, written', tree⟩ :=
      part key field (Entries.mem_of_get? here) (Entries.mem_names_of_mem there)
    obtain rfl := Except.ok.inj (written.symm.trans written')
    exact tree

section Choices

variable {variants : List (String × Option Schema)} {kind : String} {fresh later origin : Origin}
  {entries : List (String × Value)} {n : Value}

private theorem passes_spread {fields : List (String × Schema)}
    (declared : Entries.get? kind variants = some (some (.object fields)))
    (proper : (Schema.object fields).Proper) (free : kindKey ∉ Entries.names fields)
    (ih : Passes (.object fields)) (plain : (Value.object origin entries).Plain)
    (tree : (Value.object origin entries).HasTree)
    (old : (Value.object origin entries).Predates fresh)
    (named : property kindKey entries = .string kind)
    (read : reader (.object fields) fresh (.object origin entries) = .ok n)
    (old' : n.Predates later) :
    ∃ w, writer .off (.choice variants) later n = .ok w ∧ w.HasTree := by
  obtain ⟨-, reads⟩ := reader_fields proper plain old read
  obtain ⟨w, written, tree⟩ := ih _ _ _ n plain tree old read old'
  have naming := read_key reads kindKey
  rw [atKey_eq_idle (Entries.get?_eq_none free), named] at naming
  obtain ⟨p, es, rfl, -⟩ := reads.exists_entries
  have still : property kindKey es = .string kind := (Except.ok.inj naming).symm
  refine ⟨w, (writer_choice_eq_ok still).mpr ?_, tree⟩
  rw [declared]
  exact Or.inl ⟨fields, rfl, written⟩

private theorem passes_held {payload : Schema}
    (declared : Entries.get? kind variants = some (some payload))
    (object : payload.isObject = false) (proper : payload.Proper) (ih : Passes payload)
    (plain : (Value.object origin entries).Plain) (tree : (Value.object origin entries).HasTree)
    (old : (Value.object origin entries).Predates fresh)
    (named : property kindKey entries = .string kind)
    (keys : ∀ key ∈ Entries.names entries, key = kindKey ∨ key = valueKey)
    (there : property valueKey entries ≠ .absent) {mapped : Value}
    (inner : reader payload (fresh.enter (.key valueKey)) (property valueKey entries) = .ok mapped)
    (read : reader (.choice variants) fresh (.object origin entries) = .ok n)
    (old' : n.Predates later) :
    ∃ w, writer .off (.choice variants) later n = .ok w ∧ w.HasTree := by
  have inside := plain.property_of_ne there
  have held := Value.hasTree_property tree valueKey
  have older := old.property valueKey
  obtain ⟨first, spelled⟩ := exists_eq_pair plain.distinct keys named there
  generalize property valueKey entries = x at *
  subst spelled
  have present := (reader_whole proper inside (older.enter _) inner).ne_absent
  obtain ⟨p, second, again, -⟩ :=
    read_pair declared object origin first older there present inner
  obtain rfl := Except.ok.inj (read.symm.trans again)
  have older' : mapped.Predates later := by simpa using old'.property valueKey
  obtain ⟨y, outer, t, shown⟩ := ih _ (later.enter (.key valueKey)) x mapped inside held
    (older.enter _) inner (older'.enter _)
  have some := (settles .off proper _ _ x mapped y inside (older.enter _) inner (older'.enter _)
    outer).1
  obtain ⟨q, third, written, -⟩ :=
    written_pair declared object p second older' some outer
  exact ⟨_, written, _, (toJson_pair some).mpr ⟨t, shown, rfl⟩⟩

private theorem passes_choice (proper : (Schema.choice variants).Proper)
    (free : ∀ kind fields, (kind, some (.object fields)) ∈ variants →
      kindKey ∉ Entries.names fields)
    (ih : ∀ kind payload, (kind, some payload) ∈ variants → Passes payload) :
    Passes (.choice variants) := by
  intro fresh later v n plain tree old read old'
  obtain ⟨origin, entries, kind, payload, rfl, named, declared, landed⟩ := readVariant_eq_ok.mp read
  cases payload with
  | none =>
    obtain ⟨-, rfl⟩ := landed
    refine ⟨_, (writer_choice_eq_ok named).mpr ?_, tree⟩
    rw [declared]
    rfl
  | some payload =>
    have member := Entries.mem_of_get? declared
    have inside := proper.payload declared
    rcases landed with ⟨fields, rfl, done⟩ | ⟨object, keys, there, mapped, inner, -⟩
    · exact passes_spread declared inside (free kind fields member) (ih kind _ member) plain tree
        old named done old'
    · exact passes_held declared object inside (ih kind payload member) plain tree old named keys
        there inner read old'

end Choices

theorem passes {schema : Schema} (proper : schema.Proper) (free : schema.KindFree) :
    Passes schema := by
  induction schema using byParts with
  | leaf l =>
    intro fresh later v n _ tree _ read _
    exact Leaf.exists_written tree read
  | option inner ih =>
    cases proper with
    | option inside =>
      cases free with
      | option free => exact passes_option inside (ih inside free)
  | array item ih =>
    cases proper with
    | array inside =>
      cases free with
      | array free => exact passes_array (ih inside free)
  | tuple elems ih =>
    cases proper with
    | tuple inside =>
      cases free with
      | tuple free =>
        exact passes_tuple fun elem member => ih elem member (inside elem member) (free elem member)
  | object fields ih =>
    cases free with
    | object free =>
      exact passes_object proper fun key field member =>
        ih key field member (proper.field member) (free key field member)
  | choice variants ih =>
    cases free with
    | choice free plain =>
      refine passes_choice proper plain fun kind payload member => ?_
      cases proper with
      | choice _ inside =>
        exact ih kind payload member (inside kind payload member) (free kind payload member)

/-- What is read of a document is written with all options off, and what is written is a document
that reads again. -/
theorem exists_passage {schema : Schema} (proper : schema.Proper) (free : schema.KindFree)
    {json : Json} (form : json.Proper) (sized : json.Sized) {native : Value}
    (read : schema.read (.ofDocument json) = .ok native) :
    ∃ wire again back, Schema.write .off schema native = .ok wire ∧ wire.toJson = .ok again ∧
      schema.read (.ofDocument again) = .ok back := by
  have plain : (Value.ofDocument json).Plain := Value.plain_ofJson form _
  have tree : (Value.ofDocument json).HasTree := Value.hasTree_ofJson sized _
  obtain ⟨wire, written, again, shown⟩ := passes proper free _ _ _ native plain tree
    (Value.predates_freshOrigin _) read native.predates_freshOrigin
  obtain ⟨-, lasting⟩ := settles .off proper _ _ _ native wire plain
    (Value.predates_freshOrigin _) read native.predates_freshOrigin written
  obtain ⟨-, settled⟩ := lasting again shown
  obtain ⟨back, reread, -⟩ := settled (.root 0) _ (Value.predates_freshOrigin _)
  exact ⟨wire, again, back, written, shown, reread⟩

theorem exists_passage_spread :
    let schema : Schema := .choice [("big", some (.object [("n", .leaf .bigint)]))]
    let json : Json := .object [("n", .string "007"), ("kind", .string "big"), ("more", .integer 5)]
    let native : Value := .object (.root 1)
      [("n", .bigint ((Origin.root 1).enter (.key "n")) 7), ("kind", .string "big"),
        ("more", .number (.ofInt 5))]
    schema.Proper ∧ schema.KindFree ∧ json.Proper ∧ json.Sized ∧
      schema.read (.ofDocument json) = .ok native ∧
      ∃ wire again back, Schema.write .off schema native = .ok wire ∧ wire.toJson = .ok again ∧
        schema.read (.ofDocument again) = .ok back := by
  intro schema json native
  have fields : ∀ name field, (name, field) ∈ [("n", Schema.leaf .bigint)] →
      field = .leaf .bigint := by simp
  have payloads : ∀ kind payload, (kind, some payload) ∈ [("big",
      some (Schema.object [("n", .leaf .bigint)]))] → payload = .object [("n", .leaf .bigint)] := by
    simp
  have proper : schema.Proper := by decide +zetaReduce
  have free : schema.KindFree := by
    refine .choice (fun kind payload member => payloads kind payload member ▸ ?_)
      fun kind declared member => ?_
    · exact .object fun name field member => fields name field member ▸ .leaf _
    · rw [Schema.object.inj (payloads kind _ member)]
      decide
  have values : ∀ name value, (name, value) ∈
      [("n", Json.string "007"), ("kind", .string "big"), ("more", .integer 5)] →
      value = .string "007" ∨ value = .string "big" ∨ value = .integer 5 := by
    intro name value member
    simpa using (by simpa using member : _ ∨ _ ∨ _).imp And.right (Or.imp And.right And.right)
  have form : json.Proper := by
    refine .object (by decide) fun name value member => ?_
    rcases values name value member with rfl | rfl | rfl
    · exact .string _
    · exact .string _
    · exact .integer _
  have sized : json.Sized := by
    refine .object fun name value member => ?_
    rcases values name value member with rfl | rfl | rfl
    · exact .string _
    · exact .string _
    · exact .integer (by decide) (by decide)
  have read : schema.read (.ofDocument json) = .ok native := by rfl
  exact ⟨proper, free, form, sized, read, exists_passage proper free form sized read⟩

end Schema

end WireSchema
