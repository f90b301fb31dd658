import WireSchema.Proofs.Generated.Spelling

/-!
The bodies of helpers that writers define are told by their texts, so helpers that share a text do
the same.
-/

set_option autoImplicit false

namespace WireSchema.Generated

open WireSchema.Text

inductive Arm.Writes (bound : Nat) : Arm → Prop where
  | keep : Writes bound .keep
  | whole {code : Code} : code.Writes bound → code.isIdentity = false → Writes bound (.whole code)
  | payload {code : Code} : code.Writes bound → Writes bound (.payload code)

inductive Body.Writes (bound : Nat) : Body → Prop where
  | copying {fields : List (String × Code)} :
      (∀ key code, (key, code) ∈ fields → code.Writes bound) → Writes bound (.copying fields)
  | sparing {fields : List (String × Code)} :
      (∀ key code, (key, code) ∈ fields → code.Writes bound) → Writes bound (.sparing fields)
  | dispatch {arms : List (String × Arm)} (lenient : Bool) :
      (∀ kind arm, (kind, arm) ∈ arms → arm.Writes bound) → Writes bound (.dispatch arms lenient)

theorem text_keep : Arm.keep.text = "Ok(" ++ Code.identity.applied "input" ++ ")" := rfl

theorem text_whole (code : Code) :
    (Arm.whole code).text = "Ok(" ++ code.applied "input" ++ ")" := rfl

theorem text_payload (code : Code) : (Arm.payload code).text =
    "map_payload(input, &kind, |value| Ok(" ++ code.applied "value" ++ "))" := rfl

theorem armLine_eq (arm : String × Arm) :
    Body.armLine arm = quoted arm.1 ++ " => " ++ arm.2.text ++ "," := rfl

theorem otherLine_eq (lenient : Bool) : Body.otherLine lenient =
    if lenient then "_ => Ok(Value::Absent),"
    else "other => Err(Error::UnknownVariant(other.to_owned()))," := rfl

def fieldLine (start : String) (field : String × Code) : String :=
  start ++ quoted field.1 ++ ", |value| Ok(" ++ field.2.applied "value" ++ "))?;"

theorem fieldLine_eq (start : String) (field : String × Code) : fieldLine start field =
    start ++ quoted field.1 ++ ", |value| Ok(" ++ field.2.applied "value" ++ "))?;" := rfl

theorem render_copying (fields : List (String × Code)) : (Body.copying fields).render =
    "\n".intercalate ("let mut copy = shallow_copy(&input)?;" ::
      (fields.map (fieldLine "map_field(&mut copy, ") ++ ["Ok(Value::object(copy))"])) := rfl

theorem render_sparing (fields : List (String × Code)) : (Body.sparing fields).render =
    "\n".intercalate ("let source = input.as_object()?;" :: "let mut output = None;" ::
      (fields.map (fieldLine "set_cow_property(source, &mut output, ") ++
        ["Ok(finish_cow(input, output))"])) := rfl

theorem render_dispatch (arms : List (String × Arm)) (lenient : Bool) :
    (Body.dispatch arms lenient).render =
      "let kind = discriminant(&input)?;\nmatch kind.as_str() \x7b\n" ++
        indent ("\n".intercalate (arms.map Body.armLine ++ [Body.otherLine lenient])) ++
          "\n\x7d" := rfl

/-- Whatever follows it, the line of an entry tells the entry and where it ends. -/
private def LineTold {α : Type} (line : α → String) (a b : α) : Prop :=
  ∀ xs ys, (line a).toList ++ xs = (line b).toList ++ ys → a = b ∧ xs = ys

private def Stops {α : Type} (line : α → String) (last : String) (a : α) : Prop :=
  ∀ xs ys, (line a).toList ++ xs ≠ last.toList ++ ys

private theorem lines_told {α : Type} {line : α → String} {as bs : List α} {last last' : String}
    (told : ∀ a ∈ as, ∀ b ∈ bs, LineTold line a b) (left : ∀ a ∈ as, Stops line last' a)
    (right : ∀ b ∈ bs, Stops line last b)
    (same : "\n".intercalate (as.map line ++ [last]) = "\n".intercalate (bs.map line ++ [last'])) :
    as = bs ∧ last = last' := by
  have split : ∀ (a : α) (rest : List α) (last : String),
      ("\n".intercalate ((a :: rest).map line ++ [last])).toList =
        (line a).toList ++ ('\n' :: ("\n".intercalate (rest.map line ++ [last])).toList) := by
    intro a rest last
    rw [List.map_cons, List.cons_append, String.intercalate_cons_of_ne_nil (by simp)]
    simp
  induction as generalizing bs with
  | nil =>
    cases bs with
    | nil => exact ⟨rfl, by simpa using same⟩
    | cons b more =>
      have text := congrArg String.toList same
      rw [split, List.map_nil, List.nil_append, String.intercalate_singleton] at text
      exact absurd text.symm fun eq =>
        right b List.mem_cons_self _ [] (eq.trans (List.append_nil _).symm)
  | cons a rest ih =>
    have text := congrArg String.toList same
    cases bs with
    | nil =>
      rw [split, List.map_nil, List.nil_append, String.intercalate_singleton] at text
      exact absurd text fun eq =>
        left a List.mem_cons_self _ [] (eq.trans (List.append_nil _).symm)
    | cons b more =>
      rw [split, split] at text
      obtain ⟨rfl, others⟩ := told a List.mem_cons_self b List.mem_cons_self _ _ text
      obtain ⟨rfl, ends⟩ := ih
        (fun a left b right => told a (List.mem_cons_of_mem _ left) b (List.mem_cons_of_mem _ right))
        (fun a member => left a (List.mem_cons_of_mem _ member))
        (fun b member => right b (List.mem_cons_of_mem _ member))
        (String.toList_inj.mp (List.cons.inj others).2)
      exact ⟨rfl, ends⟩

private theorem field_told {bound : Nat} (start : String) {a b : String × Code}
    (left : a.2.Writes bound) (right : b.2.Writes bound) : LineTold (fieldLine start) a b := by
  intro xs ys same
  simp only [fieldLine_eq, String.toList_append, List.append_assoc,
    List.append_cancel_left_eq] at same
  obtain ⟨key, same⟩ := quoted_prefix same
  have same := List.append_cancel_left same
  obtain ⟨code, same⟩ := left.applied_prefix right Code.isArgument_value same
  exact ⟨Prod.ext key code, List.append_cancel_left same⟩

private theorem field_stops {start last : String} {c d : Char} (left : start.toList.head? = some c)
    (right : last.toList.head? = some d) (differ : c ≠ d) (field : String × Code) :
    Stops (fieldLine start) last field := by
  intro xs ys same
  obtain ⟨before, left⟩ := List.head?_eq_some_iff.mp left
  obtain ⟨after, right⟩ := List.head?_eq_some_iff.mp right
  rw [fieldLine_eq, right] at same
  simp only [String.toList_append, left, List.cons_append] at same
  exact differ (List.cons.inj same).1

-- An arm that keeps its input reads like the expression that is the input itself, which is no arm's
-- for a whole object.
private theorem arm_told {bound : Nat} {a b : Arm} (left : a.Writes bound) (right : b.Writes bound)
    {xs ys : List Char} (same : a.text.toList ++ xs = b.text.toList ++ ys) : a = b ∧ xs = ys := by
  have whole : ∀ {a b : Code}, a.Writes bound → b.Writes bound →
      ("Ok(" ++ a.applied "input" ++ ")").toList ++ xs =
        ("Ok(" ++ b.applied "input" ++ ")").toList ++ ys → a = b ∧ xs = ys := by
    intro a b left right same
    simp only [String.toList_append, List.append_assoc, List.append_cancel_left_eq] at same
    obtain ⟨code, same⟩ := left.applied_prefix right Code.isArgument_input same
    exact ⟨code, List.append_cancel_left same⟩
  cases left with
  | keep =>
    cases right with
    | keep => exact ⟨rfl, List.append_cancel_left same⟩
    | whole writes other =>
      rw [text_keep, text_whole] at same
      obtain ⟨rfl, -⟩ := whole .identity writes same
      simp [Code.isIdentity] at other
    | payload _ =>
      rw [text_keep, text_payload] at same
      simp at same
  | whole writes other =>
    cases right with
    | keep =>
      rw [text_keep, text_whole] at same
      obtain ⟨rfl, -⟩ := whole writes .identity same
      simp [Code.isIdentity] at other
    | whole writes' _ =>
      rw [text_whole, text_whole] at same
      obtain ⟨rfl, after⟩ := whole writes writes' same
      exact ⟨rfl, after⟩
    | payload _ =>
      rw [text_whole, text_payload] at same
      simp at same
  | payload writes =>
    cases right with
    | keep =>
      rw [text_payload, text_keep] at same
      simp at same
    | whole _ _ =>
      rw [text_payload, text_whole] at same
      simp at same
    | payload writes' =>
      simp only [text_payload, String.toList_append, List.append_assoc,
        List.append_cancel_left_eq] at same
      obtain ⟨rfl, after⟩ := writes.applied_prefix writes' Code.isArgument_value same
      exact ⟨rfl, List.append_cancel_left after⟩

private def indented (arm : String × Arm) : String :=
  "    " ++ Body.armLine arm

private theorem indented_told {bound : Nat} {a b : String × Arm} (left : a.2.Writes bound)
    (right : b.2.Writes bound) : LineTold indented a b := by
  intro xs ys same
  simp only [indented, armLine_eq, String.toList_append, List.append_assoc,
    List.append_cancel_left_eq] at same
  obtain ⟨kind, same⟩ := quoted_prefix same
  have same := List.append_cancel_left same
  obtain ⟨arm, same⟩ := arm_told left right same
  exact ⟨Prod.ext kind arm, List.append_cancel_left same⟩

private theorem indented_stops (lenient : Bool) (arm : String × Arm) :
    Stops indented ("    " ++ Body.otherLine lenient) arm := by
  intro xs ys same
  rw [indented, armLine_eq, otherLine_eq] at same
  cases lenient <;> simp [quoted] at same

theorem breakless_of_ink {cs : List Char} (ink : cs.all Code.isInk = true) :
    ∀ c ∈ cs, c ≠ '\n' ∧ c ≠ '\r' := by
  intro c member
  have free := List.all_eq_true.mp ink c member
  simp only [Code.isInk, Bool.and_eq_true, bne_iff_ne] at free
  exact ⟨free.1.2, free.2⟩

theorem plain_of_breakless {line : List Char} (some : line ≠ [])
    (free : ∀ c ∈ line, c ≠ '\n' ∧ c ≠ '\r') : Plain line :=
  ⟨some, fun member => (free _ member).1 rfl, fun member => (free _ member).2 rfl⟩

theorem Arm.text_ink (arm : Arm) : arm.text.toList.all Code.isInk = true := by
  have value : "value".toList.all Code.isInk = true := by simp [Code.isInk]
  have input : "input".toList.all Code.isInk = true := by simp [Code.isInk]
  cases arm with
  | keep =>
    rw [text_keep]
    simp [Code.applied_ink _ input, Code.isInk]
  | whole code =>
    rw [text_whole]
    simp [code.applied_ink input, Code.isInk]
  | payload code =>
    rw [text_payload]
    simp [code.applied_ink value, Code.isInk]

theorem armLine_plain (arm : String × Arm) : Plain (Body.armLine arm).toList := by
  rw [armLine_eq]
  refine plain_of_breakless (by simp) fun c member => ?_
  simp only [String.toList_append, List.mem_append] at member
  rcases member with ((member | member) | member) | member
  · exact quoted_plain member
  · exact breakless_of_ink (by simp [Code.isInk]) c member
  · exact breakless_of_ink arm.2.text_ink c member
  · exact breakless_of_ink (by simp [Code.isInk]) c member

theorem otherLine_plain (lenient : Bool) : Plain (Body.otherLine lenient).toList := by
  rw [otherLine_eq]
  cases lenient <;>
    exact plain_of_breakless (by simp) (breakless_of_ink (by simp [Code.isInk]))

theorem arms_plain (arms : List (String × Arm)) (lenient : Bool) :
    ∀ line ∈ arms.map Body.armLine ++ [Body.otherLine lenient], Plain line.toList := by
  intro line member
  rcases List.mem_append.mp member with member | member
  · obtain ⟨arm, -, rfl⟩ := List.mem_map.mp member
    exact armLine_plain arm
  · rw [List.mem_singleton.mp member]
    exact otherLine_plain lenient

private theorem indent_arms (arms : List (String × Arm)) (lenient : Bool) :
    indent ("\n".intercalate (arms.map Body.armLine ++ [Body.otherLine lenient])) =
      "\n".intercalate (arms.map indented ++ ["    " ++ Body.otherLine lenient]) := by
  rw [indent_intercalate (by simp) (arms_plain arms lenient), List.map_append, List.map_map]
  rfl

private theorem otherLine_injective {l l' : Bool}
    (same : "    " ++ Body.otherLine l = "    " ++ Body.otherLine l') : l = l' := by
  have text := congrArg String.toList same
  rw [otherLine_eq, otherLine_eq] at text
  cases l <;> cases l' <;> first | rfl | simp at text

private theorem fields_told {bound : Nat} {start last : String} {c d : Char}
    (starts : start.toList.head? = some c) (ends : last.toList.head? = some d) (differ : c ≠ d)
    {as bs : List (String × Code)}
    (left : ∀ key code, (key, code) ∈ as → code.Writes bound)
    (right : ∀ key code, (key, code) ∈ bs → code.Writes bound)
    (same : "\n".intercalate (as.map (fieldLine start) ++ [last]) =
      "\n".intercalate (bs.map (fieldLine start) ++ [last])) : as = bs :=
  (lines_told
    (fun a one b two => field_told start (left a.1 a.2 one) (right b.1 b.2 two))
    (fun a _ => field_stops starts ends differ a) (fun b _ => field_stops starts ends differ b)
    same).1

private theorem cons_line_cancel {line : String} {as bs : List String} (left : as ≠ [])
    (right : bs ≠ [])
    (same : "\n".intercalate (line :: as) = "\n".intercalate (line :: bs)) :
    "\n".intercalate as = "\n".intercalate bs := by
  rw [String.intercalate_cons_of_ne_nil left, String.intercalate_cons_of_ne_nil right] at same
  have text := congrArg String.toList same
  simp only [String.toList_append, List.append_assoc, List.append_cancel_left_eq] at text
  exact String.toList_inj.mp text

private theorem first_line {line : String} {rest : List String} (some : rest ≠ []) :
    ("\n".intercalate (line :: rest)).toList =
      line.toList ++ ("\n".toList ++ ("\n".intercalate rest).toList) := by
  rw [String.intercalate_cons_of_ne_nil some, String.toList_append, String.toList_append,
    List.append_assoc]

/-- Bodies with the same text are the same. -/
theorem Body.Writes.render_injective {bound : Nat} {a b : Body} (left : a.Writes bound)
    (right : b.Writes bound) (same : a.render = b.render) : a = b := by
  have text := congrArg String.toList same
  cases left with
  | copying fields =>
    cases right with
    | copying fields' =>
      rw [render_copying, render_copying] at same
      have lines := cons_line_cancel (by simp) (by simp) same
      have starts : "map_field(&mut copy, ".toList.head? = some 'm' := by simp
      have ends : "Ok(Value::object(copy))".toList.head? = some 'O' := by simp
      rw [fields_told starts ends (by decide) fields fields' lines]
    | sparing _ =>
      rw [render_copying, render_sparing, first_line (by simp), first_line (by simp)] at text
      simp at text
    | dispatch _ _ =>
      rw [render_copying, render_dispatch, first_line (by simp), String.toList_append,
        String.toList_append] at text
      simp at text
  | sparing fields =>
    cases right with
    | copying _ =>
      rw [render_copying, render_sparing, first_line (by simp), first_line (by simp)] at text
      simp at text
    | sparing fields' =>
      rw [render_sparing, render_sparing] at same
      have lines := cons_line_cancel (by simp) (by simp) (cons_line_cancel (by simp) (by simp) same)
      have starts : "set_cow_property(source, &mut output, ".toList.head? = some 's' := by simp
      have ends : "Ok(finish_cow(input, output))".toList.head? = some 'O' := by simp
      rw [fields_told starts ends (by decide) fields fields' lines]
    | dispatch _ _ =>
      rw [render_sparing, render_dispatch, first_line (by simp), String.toList_append,
        String.toList_append] at text
      simp at text
  | dispatch lenient arms =>
    cases right with
    | copying _ =>
      rw [render_copying, render_dispatch, first_line (by simp), String.toList_append,
        String.toList_append] at text
      simp at text
    | sparing _ =>
      rw [render_sparing, render_dispatch, first_line (by simp), String.toList_append,
        String.toList_append] at text
      simp at text
    | dispatch lenient' arms' =>
      rw [render_dispatch, render_dispatch, indent_arms, indent_arms] at text
      simp only [String.toList_append, List.append_assoc, List.append_cancel_left_eq] at text
      have lines := String.toList_inj.mp (List.append_cancel_right text)
      obtain ⟨rfl, others⟩ := lines_told
        (fun a one b two => indented_told (arms a.1 a.2 one) (arms' b.1 b.2 two))
        (fun a _ => indented_stops lenient' a) (fun b _ => indented_stops lenient b) lines
      rw [otherLine_injective others]

end WireSchema.Generated
