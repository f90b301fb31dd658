import WireSchema.Convert.Normal
import WireSchema.Proofs.Convert.InPlace

/-!
The normal form of a document is its own normal form, with the same keys in the same order. The
proof follows the two passes over a value and then the same two over the value of the tree that
they lead to. Only a held payload that is converted moves its key behind the name of the variant,
and it cannot move again.
-/

set_option autoImplicit false

namespace WireSchema.Schema

open WireSchema.Convert
open WireSchema.Value (ofItems)
open WireSchema.Update (property kindKey valueKey variantValue)

def Settles (options : WriteOptions) (schema : Schema) : Prop :=
  ∀ fresh later v n w, v.Plain → v.Predates fresh → reader schema fresh v = .ok n →
    n.Predates later → writer options schema later n = .ok w →
    w ≠ .absent ∧ ∀ json, w.toJson = .ok json →
      Settled (reader schema) (writer options schema) v n w json

private theorem settles_leaf (options : WriteOptions) (l : Leaf) : Settles options (.leaf l) := by
  intro fresh later v n w plain _ read _ written
  have there := (whole_of_leaf plain read).ne_absent
  refine ⟨?_, fun json tree => Leaf.settled plain read written tree⟩
  rcases Leaf.eq_or_text_of_write written with rfl | ⟨-, -, text⟩
  · exact there
  · rintro rfl
    simp [Leaf.isText] at text

private theorem settles_option {options : WriteOptions} {inner : Schema} (proper : inner.Proper)
    (ih : Settles options inner) : Settles options (.option inner) := by
  intro fresh later v n w plain old read old' written
  rw [reader_option plain.whole.ne_absent] at read
  have there := (reader_whole proper plain old read).ne_absent
  rw [writer_option there] at written
  obtain ⟨some, settled⟩ := ih fresh later v n w plain old read old' written
  refine ⟨some, fun json tree => ?_⟩
  obtain ⟨form, again⟩ := settled json tree
  refine ⟨form, fun origin fresh old => ?_⟩
  obtain ⟨m, read, rewritten⟩ := again origin fresh old
  have plain := Value.plain_ofJson form origin
  have present := (reader_whole proper plain old read).ne_absent
  refine ⟨m, by rw [reader_option plain.whole.ne_absent]; exact read, fun fresh before => ?_⟩
  rw [writer_option present]
  exact rewritten fresh before

private theorem settled_undeclared {v : Value} {json : Json} (plain : v.Plain)
    (tree : v.toJson = .ok json) :
    Settled (fun _ x => .ok x) (fun _ x => .ok x) v v v json := by
  obtain ⟨proper, again⟩ := plain.settled tree
  exact ⟨proper, fun origin _ _ => ⟨_, rfl, fun _ _ =>
    ⟨_, rfl, again origin, fun _ _ => ⟨rfl, rfl⟩⟩⟩⟩

section Items

variable {read write : Conversion Fault} {size : Nat → Prop} {reads writes : Nat → Conversion Fault}
  (reading : Itemwise read size reads) (writing : Itemwise write size writes)
  {fresh later origin : Origin} {v n w : Value} {json : Json}
include reading writing

private theorem again_items {trees : List Json} (fits : size trees.length) {kept : Prop}
    (part : ∀ (j : Nat) (t : Json), trees[j]? = some t → ∀ origin fresh,
      (Value.ofJson origin t).Predates fresh → ∃ y, reads j fresh (.ofJson origin t) = .ok y ∧
        ∀ fresh, y.Predates fresh → ∃ z, writes j fresh y = .ok z ∧ z.toJson = .ok t ∧
          (kept → y = .ofJson origin t ∧ z = y))
    (before : (Value.array origin (ofItems origin 0 trees)).Predates fresh) :
    ∃ m, read fresh (.array origin (ofItems origin 0 trees)) = .ok m ∧
      ∀ later, m.Predates later → ∃ x, write later m = .ok x ∧ x.toJson = .ok (.array trees) ∧
        (kept → m = .array origin (ofItems origin 0 trees) ∧ x = m) := by
  have item : ∀ (j : Nat) (x : Value), (ofItems origin 0 trees)[j]? = some x →
      ∃ t, trees[j]? = some t ∧ x = Value.ofJson (origin.enter (.index j)) t ∧
        x.Predates (fresh.enter (.index j)) := by
    intro j x found
    have old := (before.item (List.mem_of_getElem? found)).enter (.index j)
    rw [Value.getElem?_ofItems, Option.map_eq_some_iff, Nat.zero_add] at found
    obtain ⟨t, here, rfl⟩ := found
    exact ⟨t, here, rfl, old⟩
  have room : size (ofItems origin 0 trees).length := by rwa [Value.length_ofItems]
  obtain ⟨m, done⟩ := reading.exists before room fun j x found => by
    obtain ⟨t, here, rfl, old⟩ := item j x found
    obtain ⟨y, read, -⟩ := part j t here _ _ old
    exact ⟨y, read⟩
  obtain ⟨p, natives, rfl, -, length, made, still⟩ := reading.results before done
  -- What an item is read as can be written, and that leads back to the tree of the item.
  have promise : ∀ (j : Nat) (y : Value), natives[j]? = some y → ∃ t, trees[j]? = some t ∧
      ∀ later, y.Predates later → ∃ z, writes j later y = .ok z ∧ z.toJson = .ok t ∧
        (kept → (ofItems origin 0 trees)[j]? = some y ∧ z = y) := by
    intro j y native
    have within : j < (ofItems origin 0 trees).length :=
      length ▸ (List.getElem?_eq_some_iff.mp native).1
    have found := List.getElem?_eq_getElem within
    obtain ⟨_, again, read⟩ := made j _ found
    obtain rfl := Option.some.inj (native.symm.trans again)
    obtain ⟨t, here, value, old⟩ := item j _ found
    rw [value] at found read old
    obtain ⟨y', read', rest⟩ := part j t here _ _ old
    obtain rfl := Except.ok.inj (read.symm.trans read')
    refine ⟨t, here, fun later before => ?_⟩
    obtain ⟨z, written, shown, same⟩ := rest later before
    exact ⟨z, written, shown, fun kept => ⟨(same kept).1 ▸ found, (same kept).2⟩⟩
  refine ⟨_, done, fun later before' => ?_⟩
  obtain ⟨x, done'⟩ := writing.exists before' (by rwa [length]) fun j y native => by
    obtain ⟨t, -, rest⟩ := promise j y native
    obtain ⟨z, written, -⟩ := rest _ ((before'.item (List.mem_of_getElem? native)).enter _)
    exact ⟨z, written⟩
  obtain ⟨q, wires, rfl, -, length', made', still'⟩ := writing.results before' done'
  have final : ∀ (j : Nat) (y : Value), natives[j]? = some y → ∃ t z, trees[j]? = some t ∧
      wires[j]? = some z ∧ z.toJson = .ok t ∧
        (kept → (ofItems origin 0 trees)[j]? = some y ∧ z = y) := by
    intro j y native
    obtain ⟨t, here, rest⟩ := promise j y native
    obtain ⟨z, wire, written⟩ := made' j y native
    obtain ⟨z', written', shown, same⟩ :=
      rest _ ((before'.item (List.mem_of_getElem? native)).enter (.index j))
    obtain rfl := Except.ok.inj (written.symm.trans written')
    exact ⟨t, z, here, wire, shown, same⟩
  refine ⟨_, done',
    Value.toJson_array.mpr ⟨trees, Value.itemsJson_eq_ok.mpr ⟨?_, ?_⟩, rfl⟩, fun kept => ?_⟩
  · rw [length', length, Value.length_ofItems]
  · intro j z wire
    have within : j < natives.length := length' ▸ (List.getElem?_eq_some_iff.mp wire).1
    obtain ⟨t, z', here, wire', shown, -⟩ := final j _ (List.getElem?_eq_getElem within)
    obtain rfl := Option.some.inj (wire.symm.trans wire')
    exact ⟨t, here, shown⟩
  · have read : natives = ofItems origin 0 trees := by
      refine eq_of_each length fun j x found => ?_
      obtain ⟨y, native, -⟩ := made j x found
      obtain ⟨t, _, -, -, -, same⟩ := final j y native
      rw [native, ← (same kept).1, found]
    have written : wires = natives := by
      refine eq_of_each length' fun j y native => ?_
      obtain ⟨t, z, -, wire, -, same⟩ := final j y native
      rw [wire, (same kept).2]
    exact ⟨still.mpr read, still'.mpr written⟩

private theorem settled_items (plain : v.Plain) (old : v.Predates fresh)
    (done : read fresh v = .ok n) (old' : n.Predates later) (done' : write later n = .ok w)
    (tree : w.toJson = .ok json)
    (parts : ∀ (length j : Nat), size length → j < length → ∀ fresh later x y z, x.Plain →
      x.Predates fresh → reads j fresh x = .ok y → y.Predates later → writes j later y = .ok z →
      ∀ t, z.toJson = .ok t → Settled (reads j) (writes j) x y z t) :
    Settled read write v n w json := by
  obtain ⟨o, values, _, rfl, -⟩ := (reading _ _ _ old).mp done
  obtain ⟨p, natives, rfl, fits, length, made, still⟩ := reading.results old done
  obtain ⟨q, wires, rfl, -, length', made', still'⟩ := writing.results old' done'
  obtain ⟨trees, shown, rfl⟩ := Value.toJson_array.mp tree
  obtain ⟨count, shown⟩ := Value.itemsJson_eq_ok.mp shown
  have part : ∀ (j : Nat) (t : Json), trees[j]? = some t → ∃ x y z, values[j]? = some x ∧
      natives[j]? = some y ∧ wires[j]? = some z ∧ Settled (reads j) (writes j) x y z t := by
    intro j t here
    have within : j < values.length := by
      have := (List.getElem?_eq_some_iff.mp here).1
      omega
    have found := List.getElem?_eq_getElem within
    obtain ⟨y, native, read⟩ := made j _ found
    obtain ⟨z, wire, written⟩ := made' j y native
    obtain ⟨t', again, tree⟩ := shown j z wire
    obtain rfl := Option.some.inj (here.symm.trans again)
    have member := List.mem_of_getElem? found
    refine ⟨_, y, z, found, native, wire, ?_⟩
    exact parts values.length j fits within _ _ _ y z (plain.item _ member)
      ((old.item member).enter _) read ((old'.item (List.mem_of_getElem? native)).enter _) written t
      tree
  have again : ∀ (j : Nat) (t : Json), trees[j]? = some t → ∀ origin fresh,
      (Value.ofJson origin t).Predates fresh → ∃ y, reads j fresh (.ofJson origin t) = .ok y ∧
        ∀ fresh, y.Predates fresh → ∃ z, writes j fresh y = .ok z ∧ z.toJson = .ok t ∧
          (natives = values ∧ wires = natives → y = .ofJson origin t ∧ z = y) := by
    intro j t here origin fresh before
    obtain ⟨x, y, z, was, became, wrote, settled⟩ := part j t here
    obtain ⟨m, read, rest⟩ := settled.again origin fresh before
    refine ⟨m, read, fun later before => ?_⟩
    obtain ⟨x', written, shown, same⟩ := rest later before
    refine ⟨x', written, shown, ?_⟩
    rintro ⟨rfl, rfl⟩
    exact same (Option.some.inj (became.symm.trans was))
      (Option.some.inj (wrote.symm.trans became))
  refine ⟨.array fun t member => ?_, fun origin fresh before => ?_⟩
  · obtain ⟨j, here⟩ := List.mem_iff_getElem?.mp member
    obtain ⟨_, _, _, -, -, -, settled⟩ := part j t here
    exact settled.proper
  · have room : size trees.length := by
      rw [count, length', length]
      exact fits
    obtain ⟨m, read, rest⟩ := again_items reading writing room again before
    refine ⟨m, read, fun later before => ?_⟩
    obtain ⟨x, written, shown, same⟩ := rest later before
    exact ⟨x, written, shown, fun unread unwritten =>
      same ⟨still.mp unread, still'.mp unwritten⟩⟩

end Items

private theorem settles_array {options : WriteOptions} {item : Schema}
    (ih : Settles options item) : Settles options (.array item) := by
  have reading := itemwise_each (reader_discerning item)
  have writing := itemwise_each (writer_discerning options item)
  intro fresh later v n w plain old read old' written
  refine ⟨?_, fun json tree => ?_⟩
  · obtain ⟨_, _, _, rfl, -⟩ := (writing _ _ _ old').mp written
    obtain ⟨_, _, rfl, -⟩ := writing.results old' written
    simp
  · exact settled_items reading writing plain old read old' written tree
      fun _ _ _ _ fresh later x y z plain old read old' written t tree =>
        (ih fresh later x y z plain old read old' written).2 t tree

private theorem settles_tuple {options : WriteOptions} {elems : List Schema}
    (ih : ∀ elem ∈ elems, Settles options elem) : Settles options (.tuple elems) := by
  have reading := itemwise_reader_tuple elems
  have writing := itemwise_writer_tuple options elems
  intro fresh later v n w plain old read old' written
  refine ⟨?_, fun json tree => ?_⟩
  · obtain ⟨_, _, _, rfl, -⟩ := (writing _ _ _ old').mp written
    obtain ⟨_, _, rfl, -⟩ := writing.results old' written
    simp
  · refine settled_items reading writing plain old read old' written tree
      fun length j fits within fresh later x y z plain old read old' written t tree => ?_
    have here := List.getElem?_eq_getElem (fits ▸ within : j < elems.length)
    rw [atPosition_eq here] at read written
    rw [atPosition_eq here, atPosition_eq here]
    exact (ih _ (List.mem_of_getElem? here) fresh later x y z plain old read old' written).2 t tree

structure Passed (options : WriteOptions) (fields : List (String × Schema)) (fresh later : Origin)
    (origin : Origin) (entries : List (String × Value)) (n w : Value) : Prop where
  native : ∃ p, n = .object p (Entries.mapValues (fun key _ => n.get key) entries)
  wire : ∃ q, w = .object q (Entries.mapValues (fun key _ => w.get key) entries)
  required : ∀ key field, (key, field) ∈ fields → property key entries = .absent →
    field.isOption = true
  read : ∀ key, atKey reader fields key (fresh.enter (.key key)) (property key entries) =
    .ok (n.get key)
  written : ∀ key, atKey (writer options) fields key (later.enter (.key key)) (n.get key) =
    .ok (w.get key)
  there : ∀ key ∈ Entries.names entries, w.get key ≠ .absent
  missing : ∀ key, key ∉ Entries.names entries → n.get key = .absent ∧ w.get key = .absent
  unread : (∀ key, n.get key = property key entries) → n = .object origin entries
  unwritten : (∀ key, w.get key = n.get key) → w = n

section Fields

variable {options : WriteOptions} {fields : List (String × Schema)} {fresh later origin : Origin}
  {entries : List (String × Value)} {n w : Value}

theorem passed (proper : (Schema.object fields).Proper)
    (ih : ∀ key field, (key, field) ∈ fields → Settles options field)
    (plain : (Value.object origin entries).Plain)
    (old : (Value.object origin entries).Predates fresh)
    (read : reader (.object fields) fresh (.object origin entries) = .ok n)
    (old' : n.Predates later) (written : writer options (.object fields) later n = .ok w) :
    Passed options fields fresh later origin entries n w := by
  obtain ⟨whole, reads⟩ := reader_fields proper plain old read
  obtain ⟨p, es, rfl, spelled⟩ := reads.exists_entries
  have names : Entries.names es = Entries.names entries := by
    rw [spelled, Entries.names_mapValues]
  have writes : InPlace (fieldWriters options fields) later p es w := by
    refine inPlace_writers proper.distinct old' whole (fun key field member present y made => ?_)
      written
    have within : key ∈ Entries.names entries := by
      by_contra missing
      exact present (Value.property_of_not_mem (names ▸ missing))
    exact (ih key field member _ _ _ _ y (plain.property within) ((old.property key).enter _)
      (read_field reads member).2 ((old'.property key).enter _) made).1
  refine ⟨reads.shape, ?_, fun key field member => (read_field reads member).1, read_key reads,
    written_key writes, fun key within => writes.there key (names ▸ within),
    fun key missing => ⟨reads.missing missing, writes.missing (names ▸ missing)⟩,
    reads.still, writes.still⟩
  obtain ⟨q, shape⟩ := writes.shape
  refine ⟨q, shape.trans (congrArg _ ?_)⟩
  rw [spelled, Entries.mapValues_mapValues]

private theorem settled_key (ih : ∀ key field, (key, field) ∈ fields → Settles options field)
    (plain : (Value.object origin entries).Plain)
    (old : (Value.object origin entries).Predates fresh) (old' : n.Predates later)
    (passed : Passed options fields fresh later origin entries n w) {key : String}
    (within : key ∈ Entries.names entries) {json : Json} (tree : (w.get key).toJson = .ok json) :
    Settled (atKey reader fields key) (atKey (writer options) fields key) (property key entries)
      (n.get key) (w.get key) json := by
  have read := passed.read key
  have written := passed.written key
  cases here : Entries.get? key fields with
  | none =>
    rw [atKey_eq_idle here] at read written
    rw [atKey_eq_idle here, atKey_eq_idle here]
    obtain kept := Except.ok.inj read
    rw [← Except.ok.inj written, ← kept] at tree ⊢
    exact settled_undeclared (plain.property within) tree
  | some field =>
    rw [atKey_eq here] at read written
    rw [atKey_eq here, atKey_eq here]
    exact (ih key field (Entries.mem_of_get? here) _ _ _ _ _ (plain.property within)
      ((old.property key).enter _) read ((old'.get key).enter _) written).2 json tree

private theorem Passed.exists_trees (passed : Passed options fields fresh later origin entries n w)
    (distinct : Entries.Distinct entries) {json : Json} (done : w.toJson = .ok json) :
    ∃ tree : String → Json, json = .object (Entries.mapValues (fun key _ => tree key) entries) ∧
      ∀ key ∈ Entries.names entries, (w.get key).toJson = .ok (tree key) := by
  obtain ⟨q, shape⟩ := passed.wire
  rw [shape] at done
  obtain ⟨members, shown, rfl⟩ := Value.toJson_object.mp done
  have filled : Value.Filled (Entries.mapValues (fun key _ => w.get key) entries) := by
    rintro ⟨key, value⟩ member
    obtain ⟨x, there, rfl⟩ := Entries.mem_mapValues.mp member
    exact passed.there key (Entries.mem_names_of_mem there)
  obtain ⟨tree, rfl, each⟩ := Value.exists_trees (distinct.mapValues _) filled shown
  refine ⟨tree, by rw [Entries.mapValues_mapValues], fun key within => ?_⟩
  obtain ⟨x, found⟩ := Entries.exists_get?_of_mem_names within
  exact each key _ (Entries.mem_mapValues.mpr ⟨x, Entries.mem_of_get? found, rfl⟩)

private theorem Passed.toJson (passed : Passed options fields fresh later origin entries n w)
    {tree : String → Json}
    (each : ∀ key ∈ Entries.names entries, (w.get key).toJson = .ok (tree key)) :
    w.toJson = .ok (.object (Entries.mapValues (fun key _ => tree key) entries)) := by
  obtain ⟨q, shape⟩ := passed.wire
  rw [shape]
  exact Value.toJson_object.mpr ⟨_, Value.entriesJson_mapValues
    (fun key _ member => passed.there key (Entries.mem_names_of_mem member))
    (fun key _ member => each key (Entries.mem_names_of_mem member)), rfl⟩

private def regrown (origin : Origin) (tree : String → Json) (entries : List (String × Value)) :
    List (String × Value) :=
  Entries.mapValues (fun key _ => Value.ofJson (origin.enter (.key key)) (tree key)) entries

private theorem names_regrown (tree : String → Json) :
    Entries.names (regrown origin tree entries) = Entries.names entries :=
  Entries.names_mapValues _ _

private theorem property_regrown {tree : String → Json} (distinct : Entries.Distinct entries)
    {key : String} (within : key ∈ Entries.names entries) :
    property key (regrown origin tree entries) =
      Value.ofJson (origin.enter (.key key)) (tree key) := by
  obtain ⟨x, found⟩ := Entries.exists_get?_of_mem_names within
  exact property_mapValues distinct (Entries.mem_of_get? found)

private theorem property_regrown_of_not_mem {tree : String → Json} {key : String}
    (missing : key ∉ Entries.names entries) :
    property key (regrown origin tree entries) = .absent :=
  Value.property_of_not_mem (by rwa [names_regrown])

private theorem ofJson_object (origin : Origin) (tree : String → Json)
    (entries : List (String × Value)) :
    Value.ofJson origin (.object (Entries.mapValues (fun key _ => tree key) entries)) =
      .object origin (regrown origin tree entries) := by
  rw [Value.ofJson, Value.ofMembers_eq, Entries.mapValues_mapValues, regrown]

private theorem again_object (proper : (Schema.object fields).Proper)
    (ih : ∀ key field, (key, field) ∈ fields → Settles options field) {tree : String → Json}
    (distinct : Entries.Distinct entries)
    (part : ∀ key ∈ Entries.names entries, Settled (atKey reader fields key)
      (atKey (writer options) fields key) (property key entries) (n.get key) (w.get key) (tree key))
    (optional : ∀ key field, (key, field) ∈ fields → key ∉ Entries.names entries →
      field.isOption = true)
    (plain : (Value.object origin (regrown origin tree entries)).Plain)
    (before : (Value.object origin (regrown origin tree entries)).Predates fresh) :
    ∃ m, reader (.object fields) fresh (.object origin (regrown origin tree entries)) = .ok m ∧
      ∀ later, m.Predates later → ∃ x, writer options (.object fields) later m = .ok x ∧
        x.toJson = .ok (.object (Entries.mapValues (fun key _ => tree key) entries)) ∧
        ((∀ key, n.get key = property key entries) → (∀ key, w.get key = n.get key) →
          m = .object origin (regrown origin tree entries) ∧ x = m) := by
  have inside : ∀ key ∈ Entries.names entries,
      (Value.ofJson (origin.enter (.key key)) (tree key)).Predates (fresh.enter (.key key)) :=
    fun key within => property_regrown distinct within ▸ (before.property key).enter _
  obtain ⟨m, read⟩ : ∃ m, reader (.object fields) fresh
      (.object origin (regrown origin tree entries)) = .ok m := by
    refine exists_reader_object fun key field member => ?_
    by_cases within : key ∈ Entries.names entries
    · obtain ⟨y, read, -⟩ := (part key within).again _ _ (inside key within)
      rw [atKey_eq (Entries.get?_of_mem proper.distinct member)] at read
      rw [property_regrown distinct within]
      exact ⟨fun absent => absurd absent (Value.ofJson_ne_absent _ _), y, read⟩
    · have optional := optional key field member within
      rw [property_regrown_of_not_mem within]
      exact ⟨fun _ => optional, _, reader_absent optional _⟩
  obtain ⟨-, reads⟩ := reader_fields proper plain before read
  have promise : ∀ key ∈ Entries.names entries, ∀ later, (m.get key).Predates later →
      ∃ x, atKey (writer options) fields key later (m.get key) = .ok x ∧ x.toJson = .ok (tree key) ∧
        (n.get key = property key entries → w.get key = n.get key →
          m.get key = Value.ofJson (origin.enter (.key key)) (tree key) ∧ x = m.get key) := by
    intro key within
    have read := read_key reads key
    rw [property_regrown distinct within] at read
    obtain ⟨y, again, rest⟩ := (part key within).again _ _ (inside key within)
    obtain rfl := Except.ok.inj (read.symm.trans again)
    exact rest
  have outside : ∀ key, key ∉ Entries.names entries →
      key ∉ Entries.names (regrown origin tree entries) :=
    fun key missing => (names_regrown tree).symm ▸ missing
  refine ⟨m, read, fun later before' => ?_⟩
  obtain ⟨x, written⟩ : ∃ x, writer options (.object fields) later m = .ok x := by
    obtain ⟨p, es, rfl, -⟩ := reads.exists_entries
    refine exists_writer_object fun key field member => ?_
    by_cases within : key ∈ Entries.names entries
    · obtain ⟨x, written, -⟩ := promise key within (later.enter (.key key))
        ((before'.get key).enter _)
      rw [atKey_eq (Entries.get?_of_mem proper.distinct member)] at written
      exact ⟨x, written⟩
    · have absent : property key es = .absent := reads.missing (outside key within)
      rw [absent]
      exact ⟨_, writer_absent (optional key field member within) _ _⟩
  have again := passed proper ih plain before read before' written
  have kept : ∀ key ∈ Entries.names entries, (x.get key).toJson = .ok (tree key) ∧
      (n.get key = property key entries → w.get key = n.get key →
        m.get key = Value.ofJson (origin.enter (.key key)) (tree key) ∧ x.get key = m.get key) := by
    intro key within
    obtain ⟨y, written, rest⟩ := promise key within (later.enter (.key key))
      ((before'.get key).enter _)
    obtain rfl := Except.ok.inj ((again.written key).symm.trans written)
    exact rest
  refine ⟨x, written, ?_, fun same same' =>
    ⟨again.unread fun key => ?_, again.unwritten fun key => ?_⟩⟩
  · rw [again.toJson fun key within => (kept key (names_regrown tree ▸ within)).1, regrown,
      Entries.mapValues_mapValues]
  · by_cases within : key ∈ Entries.names entries
    · rw [((kept key within).2 (same key) (same' key)).1, property_regrown distinct within]
    · rw [(again.missing key (outside key within)).1, property_regrown_of_not_mem within]
  · by_cases within : key ∈ Entries.names entries
    · exact ((kept key within).2 (same key) (same' key)).2
    · obtain ⟨unread, unwritten⟩ := again.missing key (outside key within)
      rw [unread, unwritten]

private theorem settles_object (proper : (Schema.object fields).Proper)
    (ih : ∀ key field, (key, field) ∈ fields → Settles options field) :
    Settles options (.object fields) := by
  intro fresh later v n w plain old read old' written
  obtain ⟨origin, entries, -, rfl, -⟩ := convertProperties_eq_ok_iff.mp read
  have first := passed proper ih plain old read old' written
  refine ⟨?_, fun json done => ?_⟩
  · obtain ⟨q, shape⟩ := first.wire
    rw [shape]
    simp
  · obtain ⟨tree, rfl, trees⟩ := first.exists_trees plain.distinct done
    have part := fun key within => settled_key ih plain old old' first within (trees key within)
    have form : (Json.object (Entries.mapValues (fun key _ => tree key) entries)).Proper := by
      refine .object (plain.distinct.mapValues _) fun key value member => ?_
      obtain ⟨x, there, rfl⟩ := Entries.mem_mapValues.mp member
      exact (part key (Entries.mem_names_of_mem there)).proper
    refine ⟨form, fun origin fresh before => ?_⟩
    have plain' := Value.plain_ofJson form origin
    rw [ofJson_object] at before plain' ⊢
    have optional : ∀ key field, (key, field) ∈ fields → key ∉ Entries.names entries →
        field.isOption = true :=
      fun key field member missing =>
        first.required key field member (Value.property_of_not_mem missing)
    obtain ⟨m, read, rest⟩ :=
      again_object proper ih plain.distinct part optional plain' before
    refine ⟨m, read, fun later before' => ?_⟩
    obtain ⟨x, written, shown, still⟩ := rest later before'
    refine ⟨x, written, shown, fun same same' => still (fun key => ?_) fun key => ?_⟩
    · rw [same]
      rfl
    · rw [same']

end Fields

section Choices

variable {options : WriteOptions} {variants : List (String × Option Schema)} {kind : String}
  {fresh later origin : Origin} {entries : List (String × Value)} {v n w : Value} {json : Json}

private theorem settled_bare (declared : Entries.get? kind variants = some none)
    (plain : (Value.object origin entries).Plain)
    (named : property kindKey entries = .string kind)
    (keys : ∀ key ∈ Entries.names entries, key = kindKey)
    (tree : (Value.object origin entries).toJson = .ok json) :
    Settled (reader (.choice variants)) (writer options (.choice variants)) (.object origin entries)
      n w json := by
  obtain ⟨form, settled⟩ := plain.settled tree
  obtain ⟨members, shown, rfl⟩ := Value.toJson_object.mp tree
  clear tree
  obtain ⟨tree, rfl, trees⟩ := Value.exists_trees plain.distinct plain.whole.filled shown
  refine ⟨form, fun origin fresh _ => ?_⟩
  have settled := settled origin
  rw [ofJson_object] at settled ⊢
  have within : kindKey ∈ Entries.names entries := by
    by_contra missing
    simp [Value.property_of_not_mem missing] at named
  obtain ⟨x, found⟩ := Entries.exists_get?_of_mem_names within
  have member := Entries.mem_of_get? found
  have again : property kindKey (regrown origin tree entries) = .string kind := by
    have text := trees kindKey x member
    rw [← Value.property_of_mem plain.distinct member, named] at text
    rw [property_regrown plain.distinct within, ← Except.ok.inj text]
    rfl
  refine ⟨_, (reader_choice_eq_ok again declared).mpr ⟨fun key member => ?_, rfl⟩, fun fresh _ =>
    ⟨_, (writer_choice_eq_ok again).mpr ?_, settled, fun _ _ => ⟨rfl, rfl⟩⟩⟩
  · exact keys key (names_regrown tree ▸ member)
  · rw [declared]
    rfl

private theorem settles_spread {fields : List (String × Schema)}
    (declared : Entries.get? kind variants = some (some (.object fields)))
    (proper : (Schema.object fields).Proper)
    (ih : ∀ key field, (key, field) ∈ fields → Settles options field)
    (plain : (Value.object origin entries).Plain)
    (old : (Value.object origin entries).Predates fresh)
    (named : property kindKey entries = .string kind)
    (read : reader (.object fields) fresh (.object origin entries) = .ok n)
    (old' : n.Predates later) (written : writer options (.choice variants) later n = .ok w) :
    w ≠ .absent ∧ ∀ json, w.toJson = .ok json → Settled (reader (.choice variants))
      (writer options (.choice variants)) (.object origin entries) n w json := by
  -- A name that is read as anything but itself is refused when it is written.
  obtain ⟨-, reads⟩ := reader_fields proper plain old read
  have naming := read_key reads kindKey
  rw [named] at naming
  obtain ⟨p, es, kind', shape, again, done⟩ := writeVariant_eq_ok.mp written
  have native : n.get kindKey = .string kind' := by
    rw [shape]
    exact again
  obtain ⟨rfl, everywhere⟩ := atKey_reader_string (native ▸ naming)
  rw [declared] at done
  have written : writer options (.object fields) later n = .ok w := by
    rcases done with ⟨_, same, done⟩ | ⟨object, -⟩
    · obtain rfl := Schema.object.inj same
      exact shape ▸ done
    · simp [isObject] at object
  have first := passed proper ih plain old read old' written
  obtain ⟨some, settled⟩ := settles_object proper ih fresh later _ n w plain old read old' written
  refine ⟨some, fun json done => ?_⟩
  obtain ⟨tree, rfl, trees⟩ := first.exists_trees plain.distinct done
  obtain ⟨form, rest⟩ := settled _ done
  have within : kindKey ∈ Entries.names entries := by
    by_contra missing
    simp [Value.property_of_not_mem missing] at named
  have text : tree kindKey = .string kind' := by
    have writing := first.written kindKey
    rw [native] at writing
    have shown := trees kindKey within
    rw [atKey_writer_string writing] at shown
    exact (Except.ok.inj shown).symm
  refine ⟨form, fun origin fresh before => ?_⟩
  obtain ⟨m, read, rest⟩ := rest origin fresh before
  have plain' := Value.plain_ofJson form origin
  rw [ofJson_object] at before read rest plain' ⊢
  have named : property kindKey (regrown origin tree entries) = .string kind' := by
    rw [property_regrown plain.distinct within, text]
    rfl
  obtain ⟨-, reads⟩ := reader_fields proper plain' before read
  have naming := read_key reads kindKey
  rw [named, everywhere] at naming
  obtain ⟨q, ms, rfl, -⟩ := reads.exists_entries
  have named' : property kindKey ms = .string kind' := (Except.ok.inj naming).symm
  refine ⟨_, (reader_choice_eq_ok named declared).mpr (Or.inl ⟨fields, rfl, read⟩),
    fun later before' => ?_⟩
  obtain ⟨x, written, shown, still⟩ := rest later before'
  refine ⟨x, (writer_choice_eq_ok named').mpr ?_, shown, still⟩
  rw [declared]
  exact Or.inl ⟨fields, rfl, written⟩

section Held

variable {payload : Schema} (declared : Entries.get? kind variants = some (some payload))
  (object : payload.isObject = false) {kindFirst : Bool} {x y : Value}
include declared object

private theorem settled_pair (proper : payload.Proper) (ih : Settles options payload)
    {mapped : Value}
    (settled : Settled (reader payload) (writer options payload) x mapped y json)
    (last : kindFirst = false → mapped = x ∧ y = mapped)
    (unread : n = v → mapped = x) (unwritten : w = n → y = mapped) :
    Settled (reader (.choice variants)) (writer options (.choice variants)) v n w
      (.object (pair kindFirst (.string kind) json)) := by
  obtain ⟨form, again⟩ := settled
  refine ⟨.object distinct_pair fun key value member => ?_, fun origin fresh before => ?_⟩
  · rcases mem_pair member with rfl | rfl
    · exact .string kind
    · exact form
  · rw [ofJson_pair] at before ⊢
    have older : (Value.ofJson (origin.enter (.key valueKey)) json).Predates fresh := by
      simpa using before.property valueKey
    have inside := Value.plain_ofJson form (origin.enter (.key valueKey))
    obtain ⟨m, inner, rest⟩ := again _ (fresh.enter (.key valueKey)) (older.enter _)
    have present := (reader_whole proper inside (older.enter _) inner).ne_absent
    obtain ⟨p, second, read, kept, moved⟩ := read_pair declared object origin
      kindFirst older (Value.ofJson_ne_absent _ _) present inner
    refine ⟨_, read, fun later before' => ?_⟩
    have older' : m.Predates later := by simpa using before'.property valueKey
    obtain ⟨z, outer, shown, same⟩ := rest (later.enter (.key valueKey)) (older'.enter _)
    have some := (ih _ _ _ m z inside (older.enter _) inner (older'.enter _) outer).1
    obtain ⟨q, third, written, kept', moved'⟩ :=
      written_pair declared object p second older' some outer
    refine ⟨_, written, (toJson_pair some).mpr ⟨json, shown, ?_⟩, fun still still' => ?_⟩
    · have order : kindFirst = third := by
        cases kindFirst with
        | true =>
          cases third with
          | true => rfl
          | false => exact absurd (moved (moved' rfl).2).2 (by simp)
        | false =>
          obtain ⟨unread, unwritten⟩ := same (last rfl).1 (last rfl).2
          rw [(kept' unwritten).2, (kept unread).2]
      rw [order]
    · obtain ⟨rfl, rfl⟩ := same (unread still) (unwritten still')
      rw [(kept' rfl).1, (kept' rfl).2, (kept rfl).1, (kept rfl).2]
      exact ⟨rfl, rfl⟩

private theorem settles_held (proper : payload.Proper) (ih : Settles options payload)
    (plain : (Value.object origin entries).Plain)
    (old : (Value.object origin entries).Predates fresh)
    (named : property kindKey entries = .string kind)
    (keys : ∀ key ∈ Entries.names entries, key = kindKey ∨ key = valueKey)
    (there : property valueKey entries ≠ .absent) {mapped : Value}
    (inner : reader payload (fresh.enter (.key valueKey)) (property valueKey entries) = .ok mapped)
    (read : reader (.choice variants) fresh (.object origin entries) = .ok n)
    (old' : n.Predates later) (written : writer options (.choice variants) later n = .ok w) :
    w ≠ .absent ∧ ∀ json, w.toJson = .ok json → Settled (reader (.choice variants))
      (writer options (.choice variants)) (.object origin entries) n w json := by
  have inside := plain.property_of_ne there
  have older := old.property valueKey
  obtain ⟨first, spelled⟩ := exists_eq_pair plain.distinct keys named there
  generalize property valueKey entries = x at *
  subst spelled
  have present := (reader_whole proper inside (older.enter _) inner).ne_absent
  obtain ⟨p, second, again, -, moved⟩ :=
    read_pair declared object origin first older there present inner
  obtain rfl := Except.ok.inj (read.symm.trans again)
  have older' : mapped.Predates later := by simpa using old'.property valueKey
  obtain ⟨y, outer⟩ := exists_written_of_pair declared object written
  obtain ⟨some, settled⟩ := ih _ _ x mapped y inside (older.enter _) inner (older'.enter _) outer
  obtain ⟨q, third, again, -, moved'⟩ :=
    written_pair declared object p second older' some outer
  obtain rfl := Except.ok.inj (written.symm.trans again)
  refine ⟨by simp, fun json tree => ?_⟩
  obtain ⟨t, shown, rfl⟩ := (toJson_pair some).mp tree
  refine settled_pair declared object proper ih (settled t shown) (fun last => ?_) (fun same => ?_)
    fun same => ?_
  · exact ⟨(moved (moved' last).2).1, (moved' last).1⟩
  · have held := congrArg (Value.get valueKey) same
    exact property_pair_value.symm.trans (held.trans property_pair_value)
  · have held := congrArg (Value.get valueKey) same
    exact property_pair_value.symm.trans (held.trans property_pair_value)

end Held

private theorem settles_choice (proper : (Schema.choice variants).Proper)
    (ih : ∀ kind payload, (kind, some payload) ∈ variants → Settles options payload)
    (parts : ∀ kind fields, (kind, some (.object fields)) ∈ variants →
      ∀ key field, (key, field) ∈ fields → Settles options field) :
    Settles options (.choice variants) := by
  intro fresh later v n w plain old read old' written
  obtain ⟨origin, entries, kind, payload, rfl, named, declared, landed⟩ := readVariant_eq_ok.mp read
  cases payload with
  | none =>
    obtain ⟨keys, rfl⟩ := landed
    have done := (writer_choice_eq_ok named).mp written
    rw [declared] at done
    obtain rfl : w = .object origin entries := done
    exact ⟨by simp, fun json tree => settled_bare declared plain named keys tree⟩
  | some payload =>
    have member := Entries.mem_of_get? declared
    have inside := proper.payload declared
    rcases landed with ⟨fields, rfl, done⟩ | ⟨object, keys, there, mapped, inner, -⟩
    · exact settles_spread declared inside (parts kind fields member) plain old named done old'
        written
    · exact settles_held declared object inside (ih kind payload member) plain old named keys there
        inner read old' written

end Choices

/-- What is read of a document and written is settled, under every schema. -/
theorem settles (options : WriteOptions) {schema : Schema} (proper : schema.Proper) :
    Settles options schema := by
  induction schema using byLayout with
  | leaf l => exact settles_leaf options l
  | option inner ih =>
    cases proper with
    | option inside => exact settles_option inside (ih inside)
  | array item ih =>
    cases proper with
    | array inside => exact settles_array (ih inside)
  | tuple elems ih =>
    cases proper with
    | tuple inside => exact settles_tuple fun elem member => ih elem member (inside elem member)
  | object fields ih =>
    exact settles_object proper fun key field member => ih key field member (proper.field member)
  | choice variants ih parts =>
    have payload : ∀ kind payload, (kind, some payload) ∈ variants → payload.Proper := by
      cases proper with
      | choice _ inside => exact inside
    exact settles_choice proper (fun kind p member => ih kind p member (payload kind p member))
      fun kind fields member key field here =>
        parts kind fields member key field here ((payload kind _ member).field here)

theorem normalForm_eq_ok {schema : Schema} {options : WriteOptions} {json settled : Json} :
    normalForm schema options json = .ok settled ↔ ∃ native wire,
      schema.read (.ofDocument json) = .ok native ∧
        Schema.write options schema native = .ok wire ∧ wire.toJson = .ok settled := by
  simp only [normalForm, bind_eq_ok, mapError_eq_ok, exists_and_left]

/-- The normal form of a document is its own normal form, down to the order of the keys. -/
theorem normalForm_normalForm {schema : Schema} (proper : schema.Proper) (options : WriteOptions)
    {json settled : Json} (form : json.Proper)
    (done : normalForm schema options json = .ok settled) :
    normalForm schema options settled = .ok settled := by
  obtain ⟨native, wire, read, written, tree⟩ := normalForm_eq_ok.mp done
  have plain : (Value.ofDocument json).Plain := Value.plain_ofJson form _
  obtain ⟨-, lasting⟩ := settles options proper _ _ _ native wire plain
    (Value.predates_freshOrigin _) read native.predates_freshOrigin written
  obtain ⟨-, again⟩ := lasting settled tree
  obtain ⟨m, read, rest⟩ := again (.root 0) _ (Value.predates_freshOrigin _)
  obtain ⟨x, written, shown, -⟩ := rest _ m.predates_freshOrigin
  exact normalForm_eq_ok.mpr ⟨m, x, read, written, shown⟩

theorem normalForm_normalForm_held :
    let schema : Schema := .choice [("big", some (.leaf .bigint))]
    let json : Json := .object [("value", .string "007"), ("kind", .string "big")]
    let settled : Json := .object [("kind", .string "big"), ("value", .string "7")]
    schema.Proper ∧ json.Proper ∧ normalForm schema .off json = .ok settled ∧
      normalForm schema .off settled = .ok settled := by
  intro schema json settled
  have proper : schema.Proper := by decide +zetaReduce
  have form : json.Proper := by
    refine .object (by decide) fun name value member => ?_
    rcases (by simpa [json] using member : _ ∨ _) with ⟨-, rfl⟩ | ⟨-, rfl⟩
    · exact .string _
    · exact .string _
  have done : normalForm schema .off json = .ok settled := by rfl
  exact ⟨proper, form, done, normalForm_normalForm proper _ form done⟩

end WireSchema.Schema
