import WireSchema.Proofs.Schema.Reading

/-!
Descriptions of schemas and what is read from them. In a tree, and in a text that holds the tree, a
description is read as the schema it describes, with its fields, variants and elements in their order,
whichever of kind and parts comes first in each of its objects.
-/

set_option autoImplicit false

namespace WireSchema

namespace Kind

theorem mem_all (k : Kind) : k ∈ all := by
  cases k with
  | leaf l =>
    cases l with
    | temporal kind => cases kind <;> decide
    | _ => decide
  | _ => decide

theorem ofName?_name (k : Kind) : ofName? k.name = some k := by
  have each : ∀ k ∈ all, ofName? k.name = some k := by decide
  exact each k (mem_all k)

end Kind

namespace Schema

open WireSchema.Json (Node Member Mark Ending Scalar DocumentCause descend within withinKey
  withinIndex read_eq_scalar read_eq_array read_eq_object)

mutual

/-- The tree describes the schema. The kind of a schema that has parts may stand before them or after
them. -/
inductive Describes : Schema → Json → Prop where
  | leaf (l : Leaf) : Describes (.leaf l) (.object [("kind", .string l.name)])
  | kindFirst {s : Schema} {parts : Json} : DescribesParts s parts →
      Describes s (.object [("kind", .string s.kind.name), ("spec", parts)])
  | specFirst {s : Schema} {parts : Json} : DescribesParts s parts →
      Describes s (.object [("spec", parts), ("kind", .string s.kind.name)])

inductive DescribesParts : Schema → Json → Prop where
  | option {inner : Schema} {json : Json} : Describes inner json → DescribesParts (.option inner) json
  | array {item : Schema} {json : Json} : Describes item json → DescribesParts (.array item) json
  | tuple {elems : List Schema} {items : List Json} : DescribesElems elems items →
      DescribesParts (.tuple elems) (.array items)
  | object {fields : List (String × Schema)} {members : List (String × Json)} :
      DescribesFields fields members → DescribesParts (.object fields) (.object members)
  | choice {variants : List (String × Option Schema)} {members : List (String × Json)} :
      DescribesVariants variants members → DescribesParts (.choice variants) (.object members)

inductive DescribesElems : List Schema → List Json → Prop where
  | nil : DescribesElems [] []
  | cons {elem : Schema} {elems : List Schema} {item : Json} {items : List Json} :
      Describes elem item → DescribesElems elems items →
      DescribesElems (elem :: elems) (item :: items)

inductive DescribesFields : List (String × Schema) → List (String × Json) → Prop where
  | nil : DescribesFields [] []
  | cons {name : String} {field : Schema} {fields : List (String × Schema)} {json : Json}
      {members : List (String × Json)} : Describes field json → DescribesFields fields members →
      DescribesFields ((name, field) :: fields) ((name, json) :: members)

inductive DescribesVariants : List (String × Option Schema) → List (String × Json) → Prop where
  | nil : DescribesVariants [] []
  | bare {name : String} {variants : List (String × Option Schema)}
      {members : List (String × Json)} : DescribesVariants variants members →
      DescribesVariants ((name, none) :: variants) ((name, .null) :: members)
  | loaded {name : String} {payload : Schema} {variants : List (String × Option Schema)}
      {json : Json} {members : List (String × Json)} : Describes payload json →
      DescribesVariants variants members →
      DescribesVariants ((name, some payload) :: variants) ((name, json) :: members)

end

theorem describes_describe (s : Schema) : Describes s (describe s) := by
  induction s using byParts with
  | leaf l => exact .leaf l
  | option inner ih => exact .kindFirst (.option ih)
  | array item ih => exact .kindFirst (.array ih)
  | tuple elems ih =>
    refine .kindFirst (.tuple ?_)
    induction elems with
    | nil => exact .nil
    | cons elem rest others =>
      exact .cons (ih elem List.mem_cons_self)
        (others fun x member => ih x (List.mem_cons_of_mem _ member))
  | object fields ih =>
    refine .kindFirst (.object ?_)
    induction fields with
    | nil => exact .nil
    | cons field rest others =>
      exact .cons (ih _ _ List.mem_cons_self)
        (others fun name x member => ih name x (List.mem_cons_of_mem _ member))
  | choice variants ih =>
    refine .kindFirst (.choice ?_)
    induction variants with
    | nil => exact .nil
    | cons variant rest others =>
      obtain ⟨name, payload⟩ := variant
      have rest := others fun name x member => ih name x (List.mem_cons_of_mem _ member)
      cases payload with
      | none => exact .bare rest
      | some payload => exact .loaded (ih name payload List.mem_cons_self) rest

theorem kindNamed_name (k : Kind) : kindNamed k.name = .ok k := by
  rw [kindNamed, Kind.ofName?_name]

section Members

variable (r : Reading) (rest : List (String × Reading))

@[simp] theorem memberDescription_kind :
    memberDescription .nothing (("kind", r) :: rest) =
      r.kind >>= fun k => memberDescription (.kind k) rest := by
  rw [memberDescription.eq_def]
  simp

@[simp] theorem memberDescription_kind_after (parts : Kind → Except DocumentCause Schema) :
    memberDescription (.parts parts) (("kind", r) :: rest) =
      r.kind >>= fun k => parts k >>= fun s => memberDescription (.both s) rest := by
  rw [memberDescription.eq_def]
  simp

@[simp] theorem memberDescription_spec :
    memberDescription .nothing (("spec", r) :: rest) = memberDescription (.parts r.parts) rest := by
  rw [memberDescription.eq_def]
  simp

@[simp] theorem memberDescription_spec_after (k : Kind) :
    memberDescription (.kind k) (("spec", r) :: rest) =
      r.parts k >>= fun s => memberDescription (.both s) rest := by
  rw [memberDescription.eq_def]
  simp

@[simp] theorem memberDescription_nil (progress : Progress) :
    memberDescription progress [] = progress.finish := by
  rw [memberDescription.eq_def]

end Members

/-- A description is read as soon as its parts are, before their kind or after it. -/
private theorem ofJson_of_parts {s : Schema}
    (read : ∀ json, DescribesParts s json → (reading json).parts s.kind = .ok s) {json : Json}
    (described : Describes s json) : ofJson json = .ok s := by
  cases described with
  | leaf l =>
    have named : kindNamed l.name = .ok (.leaf l) := kindNamed_name (.leaf l)
    simp [ofJson, reading, memberReadings, Reading.ofMembers, Reading.ofScalar, kindOfScalar, named,
      Progress.finish, ofKindAlone]
  | kindFirst parts =>
    simp [ofJson, reading, memberReadings, Reading.ofMembers, Reading.ofScalar, kindOfScalar,
      kindNamed_name, read _ parts, Progress.finish]
  | specFirst parts =>
    simp [ofJson, reading, memberReadings, Reading.ofMembers, Reading.ofScalar, kindOfScalar,
      kindNamed_name, read _ parts, Progress.finish]

private theorem reading_of_describes {s : Schema} {json : Json} (described : Describes s json) :
    (reading json).parts .option = (ofJson json).map .option ∧
      (reading json).parts .array = (ofJson json).map .array ∧
      (reading json).payload = (ofJson json).map some := by
  cases described <;> exact ⟨rfl, rfl, rfl⟩

private theorem elemsOf_items {elems : List Schema}
    (read : ∀ elem ∈ elems, ∀ json, Describes elem json → ofJson json = .ok elem)
    {items : List Json} (described : DescribesElems elems items) :
    elemsOf (itemReadings items) = .ok elems := by
  induction elems generalizing items with
  | nil =>
    cases described
    rfl
  | cons elem rest ih =>
    cases described with
    | cons first others =>
      have head := read elem List.mem_cons_self _ first
      have tail := ih (fun x member => read x (List.mem_cons_of_mem _ member)) others
      rw [ofJson] at head
      simp [itemReadings, elemsOf, head, tail]

private theorem fieldsOf_members {fields : List (String × Schema)}
    (read : ∀ name field, (name, field) ∈ fields → ∀ json, Describes field json →
      ofJson json = .ok field) {members : List (String × Json)}
    (described : DescribesFields fields members) :
    fieldsOf (memberReadings members) = .ok fields := by
  induction fields generalizing members with
  | nil =>
    cases described
    rfl
  | cons field rest ih =>
    cases described with
    | cons first others =>
      have head := read _ _ List.mem_cons_self _ first
      have tail := ih (fun name x member => read name x (List.mem_cons_of_mem _ member)) others
      rw [ofJson] at head
      simp [memberReadings, fieldsOf, head, tail]

private theorem variantsOf_members {variants : List (String × Option Schema)}
    (read : ∀ name payload, (name, some payload) ∈ variants → ∀ json, Describes payload json →
      ofJson json = .ok payload) {members : List (String × Json)}
    (described : DescribesVariants variants members) :
    variantsOf (memberReadings members) = .ok variants := by
  induction variants generalizing members with
  | nil =>
    cases described
    rfl
  | cons variant rest ih =>
    have inside := fun name x member => read name x (List.mem_cons_of_mem _ member)
    cases described with
    | bare others =>
      have nothing : (reading .null).payload = .ok none := rfl
      simp [memberReadings, variantsOf, nothing, ih inside others]
    | loaded first others =>
      have payload := (reading_of_describes first).2.2
      rw [read _ _ List.mem_cons_self _ first] at payload
      simp [memberReadings, variantsOf, payload, Except.map, ih inside others]

-- The induction is about parts: with their kind beside them they make a description, and what is
-- around that needs no more of it.
theorem parts_of_describes {s : Schema} (proper : s.Proper) {json : Json}
    (described : DescribesParts s json) : (reading json).parts s.kind = .ok s := by
  induction proper generalizing json with
  | leaf l => cases described
  | option _ ih =>
    cases described with
    | option inside =>
      rw [kind, (reading_of_describes inside).1, ofJson_of_parts (fun _ => ih) inside]
      rfl
  | array _ ih =>
    cases described with
    | array inside =>
      rw [kind, (reading_of_describes inside).2.1, ofJson_of_parts (fun _ => ih) inside]
      rfl
  | tuple _ ih =>
    cases described with
    | tuple inside =>
      have read := elemsOf_items
        (fun elem member _ => ofJson_of_parts fun _ => ih elem member) inside
      simp [kind, reading, Reading.ofItems, read, Except.map]
  | object distinct _ ih =>
    cases described with
    | object inside =>
      have read := fieldsOf_members
        (fun name field member _ => ofJson_of_parts fun _ => ih name field member) inside
      simp [kind, reading, Reading.ofMembers, read, Except.map, ofFields,
        Entries.ofList_of_distinct distinct]
  | choice distinct _ ih =>
    cases described with
    | choice inside =>
      have read := variantsOf_members
        (fun name payload member _ => ofJson_of_parts fun _ => ih name payload member) inside
      simp [kind, reading, Reading.ofMembers, read, Except.map, ofVariants,
        Entries.ofList_of_distinct distinct]

theorem ofJson_of_describes {s : Schema} (proper : s.Proper) {json : Json}
    (described : Describes s json) : ofJson json = .ok s :=
  ofJson_of_parts (fun _ => parts_of_describes proper) described

namespace PlacedReading

theorem kind_of_read {node : Node} {depth : Nat} {k : Kind}
    (read : node.read depth = .ok (.string k.name)) : (ofNode node).kind depth = .ok k := by
  have plain : node.read depth = .ok (Scalar.string k.name).json := read
  obtain ⟨start, finish, rfl⟩ := read_eq_scalar plain
  simp [ofNode, ofScalar, kindNamed_name]

section Members

variable {ending : Ending} {depth : Nat} {member : Member} {value : Node} (rest : List PlacedMember)

private theorem colon_of_read {json : Json} (there : value.read depth = .ok json) :
    PlacedMember.colon ⟨member, value, ofNode value⟩ = .ok () := by
  cases value with
  | withheld problem => simp [Node.read] at there
  | _ => rfl

private theorem memberDescription_kind {k : Kind} (named : member.name = .ok "kind")
    (there : value.read depth = .ok (.string k.name)) :
    memberDescription ending depth .nothing (⟨member, value, ofNode value⟩ :: rest) =
      memberDescription ending depth (.kind k) rest := by
  simp [memberDescription, PlacedMember.name, named, colon_of_read there, kind_of_read there,
    withinKey, within]

private theorem memberDescription_kind_after {k : Kind} (named : member.name = .ok "kind")
    (there : value.read depth = .ok (.string k.name))
    {parts : Kind → Except DocumentCause Schema} {s : Schema} (given : parts k = .ok s) :
    memberDescription ending depth (.parts parts) (⟨member, value, ofNode value⟩ :: rest) =
      memberDescription ending depth (.both s) rest := by
  simp [memberDescription, PlacedMember.name, named, colon_of_read there, kind_of_read there,
    withinKey, within, given, placing]

private theorem memberDescription_spec {json : Json} (named : member.name = .ok "spec")
    (there : value.read depth = .ok json) :
    memberDescription ending depth .nothing (⟨member, value, ofNode value⟩ :: rest) =
      memberDescription ending depth (.parts (Schema.reading json).parts) rest := by
  simp [memberDescription, PlacedMember.name, named, colon_of_read there, there, withinKey, within]

private theorem memberDescription_spec_after {json : Json} (named : member.name = .ok "spec")
    (there : value.read depth = .ok json) {k : Kind} {s : Schema}
    (given : (ofNode value).parts k depth = .ok s) :
    memberDescription ending depth (.kind k) (⟨member, value, ofNode value⟩ :: rest) =
      memberDescription ending depth (.both s) rest := by
  simp [memberDescription, PlacedMember.name, named, colon_of_read there, given, withinKey, within]

end Members

theorem description_object {depth inner : Nat} {start : Mark}
    (deeper : descend depth start = .ok inner) (members : List (Member × Node))
    (ending : Ending) : (ofNode (.object start members ending)).description depth =
      memberDescription ending inner .nothing (ofMemberNodes members) := by
  simp [ofNode, ofMembers, deeper]

private theorem description_of_parts {s : Schema} (proper : s.Proper)
    (read : ∀ node depth json, node.read depth = .ok json → DescribesParts s json →
      (ofNode node).parts s.kind depth = .ok s) {node : Node} {depth : Nat} {json : Json}
    (whole : node.read depth = .ok json) (described : Describes s json) :
    (ofNode node).description depth = .ok s := by
  cases described with
  | leaf l =>
    obtain ⟨start, members, finish, inner, rfl, deeper, each⟩ := read_eq_object whole
    obtain ⟨m, _, ⟨named, there⟩, none, rfl⟩ := List.forall₂_cons_right_iff.mp each
    obtain rfl := List.forall₂_nil_right_iff.mp none
    rw [description_object deeper, ofMemberNodes, ofMemberNodes,
      memberDescription_kind (k := .leaf l) [] named there]
    rfl
  | kindFirst parts =>
    obtain ⟨start, members, finish, inner, rfl, deeper, each⟩ := read_eq_object whole
    obtain ⟨m, _, ⟨kindNamed, kindThere⟩, more, rfl⟩ := List.forall₂_cons_right_iff.mp each
    obtain ⟨n, _, ⟨specNamed, specThere⟩, none, rfl⟩ := List.forall₂_cons_right_iff.mp more
    obtain rfl := List.forall₂_nil_right_iff.mp none
    rw [description_object deeper, ofMemberNodes, memberDescription_kind _ kindNamed kindThere,
      ofMemberNodes, memberDescription_spec_after _ specNamed specThere
        (read _ _ _ specThere parts)]
    rfl
  | specFirst parts =>
    -- Parts in front of their kind are kept as a tree, so it is the tree that is read.
    obtain ⟨start, members, finish, inner, rfl, deeper, each⟩ := read_eq_object whole
    obtain ⟨m, _, ⟨specNamed, specThere⟩, more, rfl⟩ := List.forall₂_cons_right_iff.mp each
    obtain ⟨n, _, ⟨kindNamed, kindThere⟩, none, rfl⟩ := List.forall₂_cons_right_iff.mp more
    obtain rfl := List.forall₂_nil_right_iff.mp none
    rw [description_object deeper, ofMemberNodes, memberDescription_spec _ specNamed specThere,
      ofMemberNodes, memberDescription_kind_after _ kindNamed kindThere
        (parts_of_describes proper parts)]
    rfl

private theorem ofNode_of_describes {s : Schema} {node : Node} {depth : Nat} {json : Json}
    (whole : node.read depth = .ok json) (described : Describes s json) :
    (ofNode node).parts .option depth = ((ofNode node).description depth).map .option ∧
      (ofNode node).parts .array depth = ((ofNode node).description depth).map .array ∧
      (ofNode node).payload depth = ((ofNode node).description depth).map some := by
  cases described <;>
    · obtain ⟨start, members, finish, inner, rfl, -, -⟩ := read_eq_object whole
      exact ⟨rfl, rfl, rfl⟩

variable {depth : Nat} (finish : Mark)

private theorem elemsOf_nodes {elems : List Schema}
    (read : ∀ elem ∈ elems, ∀ node json, node.read depth = .ok json → Describes elem json →
      (ofNode node).description depth = .ok elem) {nodes : List Node} {trees : List Json}
    (there : List.Forall₂ (fun node tree => node.read depth = .ok tree) nodes trees)
    (described : DescribesElems elems trees) (i : Nat) :
    elemsOf (.closed finish) depth i (ofNodes nodes) = .ok elems := by
  induction elems generalizing nodes trees i with
  | nil =>
    cases described
    obtain rfl := List.forall₂_nil_right_iff.mp there
    rfl
  | cons elem rest ih =>
    cases described with
    | cons first others =>
      obtain ⟨node, nodes, here, later, rfl⟩ := List.forall₂_cons_right_iff.mp there
      have head := read elem List.mem_cons_self _ _ here first
      have tail := ih (fun x member => read x (List.mem_cons_of_mem _ member)) later others (i + 1)
      simp [ofNodes, elemsOf, head, tail, withinIndex, within]

private theorem fieldsOf_nodes {fields : List (String × Schema)}
    (read : ∀ name field, (name, field) ∈ fields → ∀ node json, node.read depth = .ok json →
      Describes field json → (ofNode node).description depth = .ok field)
    {members : List (Member × Node)} {trees : List (String × Json)}
    (there : List.Forall₂ (fun m tree => m.1.name = .ok tree.1 ∧ m.2.read depth = .ok tree.2)
      members trees) (described : DescribesFields fields trees) :
    fieldsOf (.closed finish) depth (ofMemberNodes members) = .ok fields := by
  induction fields generalizing members trees with
  | nil =>
    cases described
    obtain rfl := List.forall₂_nil_right_iff.mp there
    rfl
  | cons field rest ih =>
    cases described with
    | cons first others =>
      obtain ⟨m, members, ⟨named, here⟩, later, rfl⟩ := List.forall₂_cons_right_iff.mp there
      have head := read _ _ List.mem_cons_self _ _ here first
      have tail := ih (fun name x member => read name x (List.mem_cons_of_mem _ member)) later others
      simp [ofMemberNodes, fieldsOf, PlacedMember.name, named, colon_of_read here, head, tail,
        withinKey, within]

private theorem variantsOf_nodes {variants : List (String × Option Schema)}
    (read : ∀ name payload, (name, some payload) ∈ variants → ∀ node json,
      node.read depth = .ok json → Describes payload json →
      (ofNode node).description depth = .ok payload)
    {members : List (Member × Node)} {trees : List (String × Json)}
    (there : List.Forall₂ (fun m tree => m.1.name = .ok tree.1 ∧ m.2.read depth = .ok tree.2)
      members trees) (described : DescribesVariants variants trees) :
    variantsOf (.closed finish) depth (ofMemberNodes members) = .ok variants := by
  induction variants generalizing members trees with
  | nil =>
    cases described
    obtain rfl := List.forall₂_nil_right_iff.mp there
    rfl
  | cons variant rest ih =>
    have inside := fun name x member => read name x (List.mem_cons_of_mem _ member)
    cases described with
    | bare others =>
      obtain ⟨m, members, ⟨named, here⟩, later, rfl⟩ := List.forall₂_cons_right_iff.mp there
      have nothing : (ofNode m.2).payload depth = .ok none := by
        have plain : m.2.read depth = .ok Scalar.null.json := here
        obtain ⟨start, finish, same⟩ := read_eq_scalar plain
        rw [same]
        rfl
      simp [ofMemberNodes, variantsOf, PlacedMember.name, named, colon_of_read here, nothing,
        ih inside later others, withinKey, within]
    | loaded first others =>
      obtain ⟨m, members, ⟨named, here⟩, later, rfl⟩ := List.forall₂_cons_right_iff.mp there
      have payload := (ofNode_of_describes here first).2.2
      rw [read _ _ List.mem_cons_self _ _ here first] at payload
      simp [ofMemberNodes, variantsOf, PlacedMember.name, named, colon_of_read here, payload,
        ih inside later others, withinKey, within, Except.map]

theorem parts_of_describes {s : Schema} (proper : s.Proper) {node : Node} {depth : Nat} {json : Json}
    (there : node.read depth = .ok json) (described : DescribesParts s json) :
    (ofNode node).parts s.kind depth = .ok s := by
  induction proper generalizing node depth json with
  | leaf l => cases described
  | option proper ih =>
    cases described with
    | option inside =>
      have read := description_of_parts proper (fun _ _ _ => ih) there inside
      rw [Schema.kind, (ofNode_of_describes there inside).1, read]
      rfl
  | array proper ih =>
    cases described with
    | array inside =>
      have read := description_of_parts proper (fun _ _ _ => ih) there inside
      rw [Schema.kind, (ofNode_of_describes there inside).2.1, read]
      rfl
  | tuple proper ih =>
    cases described with
    | tuple inside =>
      obtain ⟨start, items, finish, inner, rfl, deeper, each⟩ := read_eq_array there
      have read := elemsOf_nodes finish (fun elem member _ _ =>
        description_of_parts (proper elem member) fun _ _ _ => ih elem member) each inside 0
      simp [Schema.kind, ofNode, ofItems, deeper, read, Except.map]
  | object distinct proper ih =>
    cases described with
    | object inside =>
      obtain ⟨start, members, finish, inner, rfl, deeper, each⟩ := read_eq_object there
      have read := fieldsOf_nodes finish (fun name field member _ _ =>
        description_of_parts (proper name field member) fun _ _ _ => ih name field member) each inside
      simp [Schema.kind, ofNode, ofMembers, deeper, read, Except.map, ofFields,
        Entries.ofList_of_distinct distinct]
  | choice distinct proper ih =>
    cases described with
    | choice inside =>
      obtain ⟨start, members, finish, inner, rfl, deeper, each⟩ := read_eq_object there
      have read := variantsOf_nodes finish (fun name payload member _ _ =>
        description_of_parts (proper name payload member) fun _ _ _ => ih name payload member)
        each inside
      simp [Schema.kind, ofNode, ofMembers, deeper, read, Except.map, ofVariants,
        Entries.ofList_of_distinct distinct]

theorem description_of_describes {s : Schema} (proper : s.Proper) {node : Node} {depth : Nat}
    {json : Json} (there : node.read depth = .ok json) (described : Describes s json) :
    (ofNode node).description depth = .ok s :=
  description_of_parts proper (fun _ _ _ => parts_of_describes proper) there described

end PlacedReading

/-- A schema is what is read from its description, and from every tree that describes it, whichever of
kind and parts comes first in each object of the tree. So it is from a text that holds such a tree
within the depth that is allowed. Fields, variants and elements are in their order. -/
theorem describing_inverse {s : Schema} (proper : s.Proper) :
    ofJson (describe s) = .ok s ∧
      ∀ json, Describes s json → ofJson json = .ok s ∧
        ∀ text, (Json.readText text.toList).node.read Json.depthLimit = .ok json →
          ofText text = .ok s := by
  refine ⟨ofJson_of_describes proper (describes_describe s), fun json described => ?_⟩
  refine ⟨ofJson_of_describes proper described, fun text there => ?_⟩
  exact PlacedReading.description_of_describes proper there described

/-- A field is named as the kind is, a variant as the parts are, and the parts come first. -/
theorem describing_inverse_parts_first :
    ∃ s json text, s = Schema.object [("kind", .choice [("spec", none)])] ∧
      json = Json.object [("spec", .object [("kind", .object [("kind", .string "choice"),
        ("spec", .object [("spec", .null)])])]), ("kind", .string "object")] ∧
      text = "\x7b\"spec\":\x7b\"kind\":\x7b\"kind\":\"choice\",\"spec\":\x7b\"spec\":null" ++
        "\x7d\x7d\x7d,\"kind\":\"object\"\x7d" ∧
      s.Proper ∧ Describes s json ∧ ofJson (describe s) = .ok s ∧ ofJson json = .ok s ∧
      (Json.readText text.toList).node.read Json.depthLimit = .ok json ∧ ofText text = .ok s := by
  refine ⟨_, _, _, rfl, rfl, rfl, ?_⟩
  have proper : Proper (.object [("kind", .choice [("spec", none)])]) := by decide +zetaReduce
  have described : Describes (.object [("kind", .choice [("spec", none)])])
      (.object [("spec", .object [("kind", .object [("kind", .string "choice"),
        ("spec", .object [("spec", .null)])])]), ("kind", .string "object")]) :=
    .specFirst (.object (.cons (.kindFirst (.choice (.bare .nil))) .nil))
  obtain ⟨back, each⟩ := describing_inverse proper
  obtain ⟨tree, inText⟩ := each _ described
  refine ⟨proper, described, back, tree, ?held, inText _ ?held⟩
  simp only [String.toList_append, String.reduceToList]
  rfl

end Schema

end WireSchema
