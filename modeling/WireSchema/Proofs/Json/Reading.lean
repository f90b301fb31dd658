import WireSchema.Json.Document
import WireSchema.Proofs.Document

/-!
Every document that is read from a text is a tree whose names are distinct and whose numbers are of
at most 64 bits or finite. The names are made distinct last; the numbers are right from where they
stand in the text.
-/

set_option autoImplicit false

namespace WireSchema

namespace Json

theorem byParts {P : Json → Prop} (null : P .null) (bool : ∀ b, P (.bool b))
    (integer : ∀ n, P (.integer n)) (double : ∀ x, P (.double x)) (string : ∀ s, P (.string s))
    (array : ∀ items, (∀ item ∈ items, P item) → P (.array items))
    (object : ∀ members, (∀ name value, (name, value) ∈ members → P value) → P (.object members))
    (json : Json) : P json := by
  refine @Json.rec P (fun items => ∀ item ∈ items, P item)
    (fun members => ∀ name value, (name, value) ∈ members → P value) (fun member => P member.2)
    null bool integer double string array object (by simp)
    (fun _ _ first others => List.forall_mem_cons.mpr ⟨first, others⟩) (by simp)
    (fun _ _ first others => Entries.forall_mem_cons.mpr ⟨first, others⟩) (fun _ _ ih => ih) json

theorem distinctItems_eq_map (items : List Json) : distinctItems items = items.map distinct := by
  induction items with
  | nil => rfl
  | cons item rest ih => simp [distinctItems, ih]

theorem distinctMembers_eq (members : List (String × Json)) :
    distinctMembers members = Entries.mapValues (fun _ value => distinct value) members := by
  induction members with
  | nil => rfl
  | cons member rest ih => simp [distinctMembers, ih]

theorem proper_distinct (json : Json) : json.distinct.Proper := by
  induction json using byParts with
  | null => exact .null
  | bool b => exact .bool b
  | integer n => exact .integer n
  | double x => exact .double x
  | string s => exact .string s
  | array items ih =>
    rw [distinct, distinctItems_eq_map]
    refine .array fun tree member => ?_
    obtain ⟨item, there, rfl⟩ := List.mem_map.mp member
    exact ih item there
  | object members ih =>
    rw [distinct, distinctMembers_eq]
    refine .object (Entries.distinct_ofList _) fun name tree member => ?_
    obtain ⟨value, there, rfl⟩ := Entries.mem_mapValues.mp (Entries.mem_of_mem_ofList member)
    exact ih name value there

theorem Sized.distinct {json : Json} (sized : json.Sized) : json.distinct.Sized := by
  induction sized with
  | null => exact .null
  | bool b => exact .bool b
  | integer least greatest => exact .integer least greatest
  | double finite => exact .double finite
  | string s => exact .string s
  | @array items _ ih =>
    rw [Json.distinct, distinctItems_eq_map]
    refine .array fun tree member => ?_
    obtain ⟨item, there, rfl⟩ := List.mem_map.mp member
    exact ih item there
  | @object members _ ih =>
    rw [Json.distinct, distinctMembers_eq]
    refine .object fun name tree member => ?_
    obtain ⟨value, there, rfl⟩ := Entries.mem_mapValues.mp (Entries.mem_of_mem_ofList member)
    exact ih name value there

def ScalarRead.Sized (read : ScalarRead) : Prop :=
  ∀ value next, read = .found value next → value.json.Sized

private theorem sized_found (value : Scalar) (sized : value.json.Sized) (next : Cursor) :
    (ScalarRead.found value next).Sized := by
  intro found after same
  obtain ⟨rfl, -⟩ := ScalarRead.found.inj same
  exact sized

private theorem sized_flawed (problem : Problem) (next : Cursor) :
    (ScalarRead.flawed problem next).Sized := by
  intro value after found
  simp at found

private theorem sized_broken (reading passing : Problem) :
    (ScalarRead.broken reading passing).Sized := by
  intro value next found
  simp at found

private theorem sized_stop (cause : SyntaxCause) (mark : Mark) :
    (ScalarRead.stop cause mark).Sized :=
  sized_broken _ _

private theorem sized_ite {p : Prop} [Decidable p] {a b : ScalarRead} (left : p → a.Sized)
    (right : ¬p → b.Sized) : (if p then a else b).Sized := by
  split
  · next holds => exact left holds
  · next fails => exact right fails

private theorem isFinite_neg (x : Binary64) : x.neg.isFinite = x.isFinite := rfl

private theorem sized_doubleOf (negative : Bool) (x : Binary64) (next : Cursor) :
    (doubleOf negative x next).Sized := by
  refine sized_ite (fun finite => ?_) fun _ => sized_flawed _ _
  cases negative with
  | false => exact sized_found (.double x) (.double finite) next
  | true => exact sized_found (.double x.neg) (.double ((isFinite_neg x).trans finite)) next

private theorem takeDigits_lt {n : Nat} (small : n < 18446744073709551616) (ds : List Char) :
    (takeDigits n ds).1 < 18446744073709551616 := by
  induction ds generalizing n with
  | nil => exact small
  | cons d ds ih =>
    dsimp only [takeDigits]
    split
    · next more => exact ih more
    · exact small

private theorem decimalOf_lt (whole part : List Char) :
    (decimalOf whole part).1 < 18446744073709551616 :=
  takeDigits_lt (takeDigits_lt (by decide) whole) part

private theorem sized_integerOf (negative : Bool) {n : Nat} (small : n < 18446744073709551616)
    (next : Cursor) : (integerOf negative n next).Sized := by
  refine sized_ite (fun _ => ?_) fun _ => sized_ite (fun fits => ?_) fun _ => sized_doubleOf _ _ _
  · exact sized_found (.integer n) (.integer (by omega) (by omega)) next
  · exact sized_found (.integer (-n)) (.integer (by omega) (by omega)) next

private theorem sized_numberOf (negative : Bool) (whole : List Char) (part : Option (List Char))
    (exponent : Option (Bool × List Char × Mark)) (next : Cursor) :
    (numberOf negative whole part exponent next).Sized := by
  unfold numberOf
  dsimp only
  split
  · exact sized_ite (fun _ => sized_integerOf _ (decimalOf_lt _ _) _) fun _ => sized_doubleOf _ _ _
  · exact sized_doubleOf _ _ _
  · split
    · exact sized_ite (fun _ => sized_flawed _ _) fun _ => sized_doubleOf _ _ _
    · exact sized_doubleOf _ _ _

private theorem sized_readNumberExponent (negative : Bool) (whole : List Char)
    (part : Option (List Char)) (c : Cursor) :
    (readNumberExponent negative whole part c).Sized := by
  unfold readNumberExponent
  dsimp only
  split
  · exact sized_ite (fun _ => sized_broken _ _) fun _ => sized_stop _ _
  · exact sized_numberOf _ _ _ _ _

private theorem sized_readNumberTail (negative : Bool) (whole : List Char) (c : Cursor) :
    (readNumberTail negative whole c).Sized := by
  unfold readNumberTail
  dsimp only
  split
  · split
    · exact sized_ite (fun _ => sized_broken _ _) fun _ => sized_stop _ _
    · split
      · exact sized_readNumberExponent _ _ _ _
      · exact sized_readNumberExponent _ _ _ _
      · exact sized_numberOf _ _ _ _ _
  · exact sized_readNumberExponent _ _ _ _
  · exact sized_readNumberExponent _ _ _ _
  · exact sized_numberOf _ _ _ _ _

private theorem sized_readNumber (negative : Bool) (c : Cursor) :
    (readNumber negative c).Sized := by
  unfold readNumber
  split
  · exact sized_ite (fun _ => sized_broken _ _) fun _ => sized_stop _ _
  · exact sized_stop _ _
  · exact sized_readNumberTail _ _ _

private theorem sized_stringStop (s : StringState) (cause : SyntaxCause) (mark : Mark) :
    (s.stop cause mark).Sized :=
  sized_broken _ _

private theorem sized_badHex (s : StringState) (mark : Mark) (rest : List Char) :
    (s.badHex mark rest).Sized :=
  sized_ite (fun _ => sized_stringStop _ _ _) fun _ => sized_stringStop _ _ _

private theorem sized_readString (s : StringState) (mark : Mark) (cs : List Char) :
    (readString s mark cs).Sized := by
  fun_induction readString s mark cs with
  | case1 => exact sized_stringStop _ _ _
  | case2 => exact sized_stringStop _ _ _
  | case3 => exact sized_flawed _ _
  | case4 => exact sized_found (.string _) (.string _) _
  | case5 _ _ _ _ _ _ _ _ _ _ _ ih => exact ih
  | case6 => exact sized_badHex _ _ _
  | case7 => exact sized_badHex _ _ _
  | case8 _ _ _ _ _ _ _ _ _ _ ih => exact ih
  | case9 => exact sized_stringStop _ _ _
  | case10 => exact sized_broken _ _
  | case11 _ _ _ _ _ _ _ _ _ _ ih => exact ih

private theorem sized_readWord (value : Scalar) (sized : value.json.Sized) (word : List Char)
    (mark : Mark) (cs : List Char) : (readWord value word mark cs).Sized := by
  induction word generalizing mark cs with
  | nil => exact sized_found value sized _
  | cons w word ih =>
    cases cs with
    | nil => exact sized_stop _ _
    | cons c rest => exact sized_ite (fun _ => ih _ _) fun _ => sized_stop _ _

private theorem sized_readScalar (c : Cursor) (first : Char) : (readScalar c first).Sized := by
  unfold readScalar
  refine sized_ite (fun _ => sized_readString _ _ _) fun _ => ?_
  refine sized_ite (fun _ => sized_readNumber _ _) fun _ => ?_
  refine sized_ite (fun _ => sized_readNumber _ _) fun _ => ?_
  refine sized_ite (fun _ => sized_readWord .null .null _ _ _) fun _ => ?_
  refine sized_ite (fun _ => sized_readWord (.bool true) (.bool true) _ _ _) fun _ => ?_
  refine sized_ite (fun _ => sized_readWord (.bool false) (.bool false) _ _ _) fun _ => ?_
  exact sized_stop _ _

inductive Node.Sized : Node → Prop where
  | scalar {start finish : Mark} {value : Scalar} : value.json.Sized →
      Node.Sized (.scalar start finish value)
  | flawed (start finish : Mark) (first : Char) (problem : Problem) :
      Node.Sized (.flawed start finish first problem)
  | broken (start past : Mark) (first : Option Char) (reading passing : Problem) :
      Node.Sized (.broken start past first reading passing)
  | withheld (problem : Problem) : Node.Sized (.withheld problem)
  | list {start : Mark} {items : List Node} {ending : Ending} : (∀ item ∈ items, Node.Sized item) →
      Node.Sized (.list start items ending)
  | object {start : Mark} {members : List (Member × Node)} {ending : Ending} :
      (∀ member value, (member, value) ∈ members → Node.Sized value) →
      Node.Sized (.object start members ending)

structure SizedWith (fuel : Nat) : Prop where
  node : ∀ c, (readNode fuel c).node.Sized
  items : ∀ isFirst c, ∀ item ∈ (readItems fuel isFirst c).items, item.Sized
  item : ∀ c, ∀ item ∈ (readItem fuel c).items, item.Sized
  members : ∀ isFirst c member value, (member, value) ∈ (readMembers fuel isFirst c).members →
    value.Sized
  member : ∀ c member value, (member, value) ∈ (readMember fuel c).members → value.Sized
  value : ∀ start name c member value, (member, value) ∈ (readValue fuel start name c).members →
    value.Sized

private theorem sized_scalarNode {read : ScalarRead} (sized : read.Sized) (c : Cursor)
    (first : Char) : (read.node c first).node.Sized := by
  cases read with
  | found value next => exact .scalar (sized value next rfl)
  | flawed problem next => exact .flawed _ _ _ _
  | broken reading passing => exact .broken _ _ _ _ _

section Step

variable {fuel : Nat}

private theorem sized_readNode (ih : SizedWith fuel) (c : Cursor) :
    (readNode (fuel + 1) c).node.Sized := by
  rw [readNode]
  dsimp only
  split
  · exact .broken _ _ _ _ _
  · exact .list (ih.items _ _)
  · exact .object (ih.members _ _)
  · exact sized_scalarNode (sized_readScalar _ _) _ _

private theorem sized_readItems (ih : SizedWith fuel) (isFirst : Bool) (c : Cursor) :
    ∀ item ∈ (readItems (fuel + 1) isFirst c).items, item.Sized := by
  rw [readItems]
  dsimp only
  split
  · simp [ItemsRead.stop]
  · simp
  · split
    · exact ih.item _
    · split
      · split
        · simp [ItemsRead.stop]
        · simp [ItemsRead.stop]
        · exact ih.item _
      · simp [ItemsRead.stop]

private theorem sized_readItem (ih : SizedWith fuel) (c : Cursor) :
    ∀ item ∈ (readItem (fuel + 1) c).items, item.Sized := by
  rw [readItem]
  dsimp only
  split
  · simpa using ih.node c
  · exact List.forall_mem_cons.mpr ⟨ih.node c, ih.items _ _⟩

private theorem sized_readMembers (ih : SizedWith fuel) (isFirst : Bool) (c : Cursor) :
    ∀ member value, (member, value) ∈ (readMembers (fuel + 1) isFirst c).members → value.Sized := by
  rw [readMembers]
  dsimp only
  split
  · simp [MembersRead.stop]
  · simp
  · split
    · split
      · exact ih.member _
      · simp [MembersRead.stop]
    · split
      · split
        · simp [MembersRead.stop]
        · exact ih.member _
        · simp [MembersRead.stop]
        · simp [MembersRead.stop]
      · simp [MembersRead.stop]

private theorem sized_member {first : Member} {node : Node} {rest : List (Member × Node)}
    (sized : node.Sized) (others : ∀ member value, (member, value) ∈ rest → value.Sized)
    (member : Member) (value : Node) (there : (member, value) ∈ (first, node) :: rest) :
    value.Sized := by
  rcases List.mem_cons.mp there with same | later
  · obtain ⟨-, rfl⟩ := Prod.mk.inj same
    exact sized
  · exact others member value later

private theorem sized_readMember (ih : SizedWith fuel) (c : Cursor) :
    ∀ member value, (member, value) ∈ (readMember (fuel + 1) c).members → value.Sized := by
  rw [readMember]
  split
  · exact sized_member (.broken _ _ _ _ _) (by simp)
  · exact ih.value _ _ _
  · exact ih.value _ _ _
  · exact ih.value _ _ _

private theorem sized_readValue (ih : SizedWith fuel) (start : Mark)
    (name : Except Problem String) (c : Cursor) :
    ∀ member value, (member, value) ∈ (readValue (fuel + 1) start name c).members →
      value.Sized := by
  rw [readValue]
  dsimp only
  split
  · split
    · exact sized_member (ih.node _) (by simp)
    · exact sized_member (ih.node _) (ih.members _ _)
  · exact sized_member (.withheld _) (by simp)

end Step

private theorem sizedWith (fuel : Nat) : SizedWith fuel := by
  induction fuel with
  | zero =>
    constructor
    · exact fun c => .broken _ _ _ _ _
    · simp [readItems, ItemsRead.stop]
    · simp [readItem, ItemsRead.stop]
    · simp [readMembers, MembersRead.stop]
    · simp [readMember, MembersRead.stop]
    · simp [readValue, MembersRead.stop]
  | succ fuel ih =>
    exact ⟨sized_readNode ih, sized_readItems ih, sized_readItem ih, sized_readMembers ih,
      sized_readMember ih, sized_readValue ih⟩

theorem sized_readText (text : List Char) : (readText text).node.Sized :=
  (sizedWith _).node _

@[simp] theorem within_eq_ok {α : Type} {step : DocumentStep} {x : Except DocumentFault α} {a : α} :
    within step x = .ok a ↔ x = .ok a := by
  cases x <;> simp [within]

section Reads

variable {depth : Nat} {ending : Ending}

theorem readItems_eq_ok {i : Nat} {items : List Node} {trees : List Json}
    (done : Node.readItems depth i ending items = .ok trees) :
    (∃ finish, ending = .closed finish) ∧
      List.Forall₂ (fun item tree => item.read depth = .ok tree) items trees := by
  induction items generalizing i trees with
  | nil =>
    cases ending with
    | closed finish =>
      obtain rfl := Except.ok.inj done
      exact ⟨⟨finish, rfl⟩, .nil⟩
    | cut problem => simp [Node.readItems] at done
  | cons item rest ih =>
    simp only [Node.readItems, bind_eq_ok, pure_eq_ok, withinIndex, within_eq_ok] at done
    obtain ⟨tree, read, more, others, rfl⟩ := done
    obtain ⟨closed, each⟩ := ih others
    exact ⟨closed, .cons read each⟩

theorem readMembers_eq_ok {members : List (Member × Node)} {trees : List (String × Json)}
    (done : Node.readMembers depth ending members = .ok trees) :
    (∃ finish, ending = .closed finish) ∧
      List.Forall₂ (fun m tree => m.1.name = .ok tree.1 ∧ m.2.read depth = .ok tree.2)
        members trees := by
  induction members generalizing trees with
  | nil =>
    cases ending with
    | closed finish =>
      obtain rfl := Except.ok.inj done
      exact ⟨⟨finish, rfl⟩, .nil⟩
    | cut problem => simp [Node.readMembers, nameFault, within] at done
  | cons first rest ih =>
    obtain ⟨⟨start, name, endOfName, afterName, afterValue⟩, value⟩ := first
    cases name with
    | error problem => simp [Node.readMembers, nameFault, within] at done
    | ok name =>
      cases value with
      | withheld problem => simp [Node.readMembers] at done
      | _ =>
        simp only [Node.readMembers, bind_eq_ok, pure_eq_ok, withinKey, within_eq_ok] at done
        obtain ⟨tree, read, more, others, rfl⟩ := done
        obtain ⟨closed, each⟩ := ih others
        exact ⟨closed, .cons ⟨rfl, read⟩ each⟩

/-- What stands in a text where a tree is read: nothing is flawed, broken or cut short. -/
inductive Node.Holds (depth : Nat) : Node → Json → Prop where
  | scalar (start finish : Mark) (value : Scalar) :
      Holds depth (.scalar start finish value) value.json
  | list {start finish : Mark} {items : List Node} {inner : Nat} {trees : List Json} :
      descend depth start = .ok inner →
      List.Forall₂ (fun item tree => item.read inner = .ok tree) items trees →
      Holds depth (.list start items (.closed finish)) (.array trees)
  | object {start finish : Mark} {members : List (Member × Node)} {inner : Nat}
      {trees : List (String × Json)} : descend depth start = .ok inner →
      List.Forall₂ (fun m tree => m.1.name = .ok tree.1 ∧ m.2.read inner = .ok tree.2)
        members trees →
      Holds depth (.object start members (.closed finish)) (.object trees)

theorem holds_of_read {node : Node} {json : Json} (done : node.read depth = .ok json) :
    node.Holds depth json := by
  cases node with
  | scalar start finish value =>
    obtain rfl := Except.ok.inj done
    exact .scalar start finish value
  | flawed | broken | withheld => simp [Node.read] at done
  | list start items ending =>
    simp only [Node.read, bind_eq_ok, pure_eq_ok] at done
    obtain ⟨inner, deeper, trees, read, rfl⟩ := done
    obtain ⟨⟨finish, rfl⟩, each⟩ := readItems_eq_ok read
    exact .list deeper each
  | object start members ending =>
    simp only [Node.read, bind_eq_ok, pure_eq_ok] at done
    obtain ⟨inner, deeper, trees, read, rfl⟩ := done
    obtain ⟨⟨finish, rfl⟩, each⟩ := readMembers_eq_ok read
    exact .object deeper each

theorem read_eq_scalar {node : Node} {value : Scalar} (done : node.read depth = .ok value.json) :
    ∃ start finish, node = .scalar start finish value := by
  generalize same : value.json = json at done
  cases holds_of_read done with
  | scalar start finish other =>
    obtain rfl : value = other := by cases value <;> cases other <;> cases same <;> rfl
    exact ⟨start, finish, rfl⟩
  | list | object => cases value <;> cases same

theorem read_eq_array {node : Node} {trees : List Json}
    (done : node.read depth = .ok (.array trees)) :
    ∃ start items finish inner, node = .list start items (.closed finish) ∧
      descend depth start = .ok inner ∧
      List.Forall₂ (fun item tree => item.read inner = .ok tree) items trees := by
  generalize same : Json.array trees = json at done
  cases holds_of_read done with
  | scalar start finish value => cases value <;> cases same
  | list deeper each =>
    obtain rfl := Json.array.inj same
    exact ⟨_, _, _, _, rfl, deeper, each⟩
  | object => cases same

theorem read_eq_object {node : Node} {trees : List (String × Json)}
    (done : node.read depth = .ok (.object trees)) :
    ∃ start members finish inner, node = .object start members (.closed finish) ∧
      descend depth start = .ok inner ∧
      List.Forall₂ (fun m tree => m.1.name = .ok tree.1 ∧ m.2.read inner = .ok tree.2)
        members trees := by
  generalize same : Json.object trees = json at done
  cases holds_of_read done with
  | scalar start finish value => cases value <;> cases same
  | list => cases same
  | object deeper each =>
    obtain rfl := Json.object.inj same
    exact ⟨_, _, _, _, rfl, deeper, each⟩

end Reads

private theorem exists_source_of_forall₂ {α β : Type} {R : α → β → Prop} {as : List α}
    {bs : List β} (each : List.Forall₂ R as bs) : ∀ b ∈ bs, ∃ a ∈ as, R a b := by
  induction each with
  | nil => simp
  | @cons a b as bs first _ ih =>
    refine List.forall_mem_cons.mpr ⟨⟨a, List.mem_cons_self, first⟩, fun c member => ?_⟩
    obtain ⟨source, there, related⟩ := ih c member
    exact ⟨source, List.mem_cons_of_mem _ there, related⟩

theorem sized_of_read {node : Node} (sized : node.Sized) {depth : Nat} {json : Json}
    (done : node.read depth = .ok json) : json.Sized := by
  induction sized generalizing depth json with
  | scalar sized => exact Except.ok.inj done ▸ sized
  | flawed | broken | withheld => cases holds_of_read done
  | list _ ih =>
    cases holds_of_read done with
    | list _ each =>
      refine .array fun tree member => ?_
      obtain ⟨item, there, read⟩ := exists_source_of_forall₂ each tree member
      exact ih item there read
  | object _ ih =>
    cases holds_of_read done with
    | object _ each =>
      refine .object fun name tree member => ?_
      obtain ⟨m, there, -, read⟩ := exists_source_of_forall₂ each (name, tree) member
      exact ih m.1 m.2 there read

theorem exists_read_of_ofText {text : String} {json : Json} (done : ofText text = .ok json) :
    ∃ tree, (readText text.toList).node.read depthLimit = .ok tree ∧ json = tree.distinct := by
  simp only [ofText, bind_eq_ok] at done
  obtain ⟨tree, read, done⟩ := done
  refine ⟨tree, read, ?_⟩
  split at done
  · exact (pure_eq_ok.mp done).symm
  · split at done
    · exact (pure_eq_ok.mp done).symm
    · simp at done

theorem proper_of_ofText {text : String} {json : Json} (done : ofText text = .ok json) :
    json.Proper := by
  obtain ⟨tree, -, rfl⟩ := exists_read_of_ofText done
  exact proper_distinct tree

theorem sized_of_ofText {text : String} {json : Json} (done : ofText text = .ok json) :
    json.Sized := by
  obtain ⟨tree, read, rfl⟩ := exists_read_of_ofText done
  exact (sized_of_read (sized_readText _) read).distinct

end Json

end WireSchema
