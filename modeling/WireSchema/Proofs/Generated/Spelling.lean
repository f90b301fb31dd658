import WireSchema.Generated.Code
import WireSchema.Proofs.Text.Digits
import WireSchema.Proofs.Text.Lines
import WireSchema.Proofs.Text.Quoted

/-!
Generated text can be read back: an expression that a writer is made of, and the body of a helper that
consists of such expressions, are told by their text.
-/

set_option autoImplicit false

namespace WireSchema.Generated

open WireSchema.Text

namespace Code

theorem byParts {P : Code → Prop} (identity : P .identity) (helper : ∀ index, P (.helper index))
    (routine : ∀ r, P (.routine r)) (bigintText : P .bigintText) (dateText : P .dateText)
    (temporalText : ∀ kind, P (.temporalText kind))
    (parseTemporal : ∀ kind, P (.parseTemporal kind))
    (whenPresent : ∀ inner, P inner → P (.whenPresent inner))
    (each : ∀ sparing item, P item → P (.each sparing item))
    (eachChecked : ∀ item, P item → P (.eachChecked item))
    (positions : ∀ codes, (∀ code ∈ codes, P code) → P (.positions codes))
    (positionsChecked : ∀ codes, (∀ code ∈ codes, P code) → P (.positionsChecked codes))
    (code : Code) : P code := by
  refine @Code.rec P (fun codes => ∀ code ∈ codes, P code) identity helper routine bigintText
    dateText temporalText parseTemporal whenPresent each eachChecked positions positionsChecked
    (by simp) ?_ code
  intro first rest one others candidate member
  rcases List.mem_cons.mp member with rfl | member
  · exact one
  · exact others candidate member

theorem eq_identity {code : Code} (same : code.isIdentity = true) : code = .identity := by
  cases code with
  | identity => rfl
  | _ => simp [isIdentity] at same

def before : Code → List String
  | .identity => []
  | .helper index => [helperName index, "("]
  | .routine r => [r.name, "("]
  | .bigintText | .temporalText _ => ["Value::from("]
  | .dateText => ["Value::from(to_iso_string("]
  | .parseTemporal kind => ["parse_temporal(", kindConstant kind, ", "]
  | .whenPresent _ => ["match "]
  | .each sparing _ => [if sparing then "map_cow(" else "map_array("]
  | .eachChecked _ => ["map_cow(parse_array("]
  | .positions _ => ["\x7b let items = parse_length("]
  | .positionsChecked codes =>
    ["(", "|input: ::typekind::Value| -> ::typekind::Result<::typekind::Value> \x7b ",
      "let items = parse_length(input, ", decimal codes.length, ")?; Ok(Value::array(vec![",
      ", ".intercalate (itemExprs 0 codes), "])) \x7d", ")("]

def after : Code → List String
  | .identity => []
  | .helper _ | .routine _ | .parseTemporal _ | .positionsChecked _ => [")?"]
  | .bigintText => [".as_bigint()?.to_string())"]
  | .dateText => [".as_date()?))"]
  | .temporalText kind => [".as_temporal(", kindConstant kind, ")?.to_string())"]
  | .whenPresent inner =>
    [" \x7b Value::Absent => Value::Absent, value => ", inner.applied "value", " \x7d"]
  | .each _ item => [", |item| Ok(", item.applied "item", "))?"]
  | .eachChecked item => [")?, |item| Ok(", item.applied "item", "))?"]
  | .positions codes =>
    [", ", decimal codes.length, ")?; Value::array(vec![", ", ".intercalate (itemExprs 0 codes),
      "]) \x7d"]

def letters (pieces : List String) : List Char :=
  pieces.flatMap String.toList

theorem template_eq {code : Code} {body : String} (template : code.fragment = .template body) :
    body.toList = letters code.before ++ inputMarker.toList ++ letters code.after := by
  cases code with
  | identity | helper | routine | positionsChecked => simp [fragment] at template
  | each sparing item =>
    rw [← Fragment.template.inj template]
    cases sparing
    all_goals
      -- a literal is a list of characters by this lemma; computing its characters takes long
      simp only [before, after, letters, inputMarker, applied, List.flatMap_cons, List.flatMap_nil,
        String.toList_append, reduceIte, -String.reduceToList, -String.reduceAppend]
      repeat rw [String.toList_ofList]
      simp
  | _ =>
    rw [← Fragment.template.inj template]
    simp only [before, after, letters, inputMarker, applied, List.flatMap_cons, List.flatMap_nil,
      String.toList_append, -String.reduceToList, -String.reduceAppend]
    repeat rw [String.toList_ofList]
    simp

/-- The expressions that writers are made of, calling only helpers below a number. -/
inductive Writes (bound : Nat) : Code → Prop where
  | identity : Writes bound .identity
  | helper {index : Nat} : index < bound → Writes bound (.helper index)
  | number : Writes bound (.routine .serializeNumber)
  | bigintText : Writes bound .bigintText
  | dateText : Writes bound .dateText
  | temporalText (kind : TemporalKind) : Writes bound (.temporalText kind)
  | whenPresent {inner : Code} : Writes bound inner → Writes bound (.whenPresent inner)
  | each (sparing : Bool) {item : Code} : Writes bound item → Writes bound (.each sparing item)
  | positions {codes : List Code} : (∀ code ∈ codes, Writes bound code) →
      Writes bound (.positions codes)

private theorem toList_applied_of_plain {code : Code} (left : '$' ∉ letters code.before)
    (right : '$' ∉ letters code.after) (arg : String) :
    (code.applied arg).toList = letters code.before ++ arg.toList ++ letters code.after := by
  have template : ∀ {body : String}, code.fragment = .template body →
      (code.applied arg).toList = letters code.before ++ arg.toList ++ letters code.after := by
    intro body shape
    rw [applied, shape]
    exact substitute_once (by simp [inputMarker]; rfl)
      (by simpa [inputMarker] using template_eq shape) left right arg
  cases code with
  | identity => simp [applied, fragment, Fragment.resolve, before, after, letters]
  | helper index => simp [applied, fragment, Fragment.resolve, before, after, letters]
  | routine r => simp [applied, fragment, Fragment.resolve, before, after, letters]
  | positionsChecked codes =>
    simp only [applied, fragment, Fragment.resolve, before, after, letters, String.toList_append,
      List.flatMap_cons, List.flatMap_nil, List.append_assoc, List.append_nil]
  | _ => exact template rfl

/-- The characters of expressions: none of them opens a marker or ends a line. -/
def isInk (c : Char) : Bool :=
  c != '$' && c != '\n' && c != '\r'

theorem dollar_not_mem {cs : List Char} (ink : cs.all isInk = true) : '$' ∉ cs :=
  fun member => absurd (List.all_eq_true.mp ink _ member) (by decide)

private theorem name_ink (r : Routine) : r.name.toList.all isInk = true := by
  cases r
  all_goals
    rw [Routine.name, String.toList_ofList]
    rfl

theorem toList_kindConstant (kind : TemporalKind) :
    (kindConstant kind).toList = "TemporalKind::".toList ++ kind.constantName.toList :=
  String.toList_append

private theorem constant_ink (kind : TemporalKind) :
    (kindConstant kind).toList.all isInk = true := by
  have start : "TemporalKind::".toList.all isInk = true := by
    rw [String.toList_ofList]
    rfl
  rw [toList_kindConstant, List.all_append, start, Bool.true_and]
  cases kind
  all_goals
    rw [TemporalKind.constantName, String.toList_ofList]
    rfl

private theorem digits_ink (n : Nat) : (digits n).all isInk = true := by
  refine List.all_eq_true.mpr fun c member => ?_
  have digit := isDigit_iff.mp (isDigit_of_mem_digits member)
  have differ : ∀ d : Char, d.toNat < 48 → c ≠ d := by
    rintro d small rfl
    omega
  simp [isInk, differ '$' (by decide), differ '\n' (by decide), differ '\r' (by decide)]

private theorem intercalate_ink {exprs : List String}
    (ink : ∀ expr ∈ exprs, expr.toList.all isInk = true) :
    (", ".intercalate exprs).toList.all isInk = true := by
  induction exprs with
  | nil => simp
  | cons expr rest ih =>
    have first := ink expr List.mem_cons_self
    have later := ih fun expr member => ink expr (List.mem_cons_of_mem _ member)
    cases rest with
    | nil => rwa [String.intercalate_singleton]
    | cons next more =>
      rw [String.intercalate_cons_cons, String.toList_append, String.toList_append,
        List.all_append, List.all_append, first, later]
      simp [isInk]

theorem mem_itemExprs {i : Nat} {codes : List Code} {expr : String}
    (member : expr ∈ itemExprs i codes) : ∃ k, ∃ code ∈ codes, expr = code.applied (itemExpr k) := by
  induction codes generalizing i with
  | nil => simp [itemExprs] at member
  | cons code rest ih =>
    rw [itemExprs] at member
    rcases List.mem_cons.mp member with rfl | member
    · exact ⟨i, code, List.mem_cons_self, rfl⟩
    · obtain ⟨k, found, there, same⟩ := ih member
      exact ⟨k, found, List.mem_cons_of_mem _ there, same⟩

theorem frame_ink (code : Code) :
    (letters code.before).all isInk = true ∧ (letters code.after).all isInk = true := by
  have inside : ∀ {code : Code},
      (letters code.before).all isInk = true ∧ (letters code.after).all isInk = true →
        ∀ arg : String, arg.toList.all isInk = true →
          (code.applied arg).toList.all isInk = true := by
    intro code free arg ink
    rw [toList_applied_of_plain (dollar_not_mem free.1) (dollar_not_mem free.2), List.all_append,
      List.all_append, free.1, free.2, ink]
    rfl
  have items : ∀ {codes : List Code}, (∀ code ∈ codes,
      (letters code.before).all isInk = true ∧ (letters code.after).all isInk = true) →
        (", ".intercalate (itemExprs 0 codes)).toList.all isInk = true := by
    intro codes each
    refine intercalate_ink fun expr member => ?_
    obtain ⟨k, code, there, rfl⟩ := mem_itemExprs member
    refine inside (each code there) _ ?_
    simp [itemExpr, decimal, List.all_append, digits_ink, isInk]
  have value : "value".toList.all isInk = true := by simp [isInk]
  have item : "item".toList.all isInk = true := by simp [isInk]
  induction code using byParts with
  | identity => simp [before, after, letters]
  | helper | routine | bigintText | dateText | temporalText | parseTemporal =>
    simp only [before, after, letters, helperName, decimal, List.flatMap_cons, List.flatMap_nil,
      String.toList_append, -String.reduceToList]
    repeat rw [String.toList_ofList]
    simp [name_ink, constant_ink, digits_ink, isInk]
  | whenPresent inner ih =>
    have inner := inside ih _ value
    simp only [before, after, letters, List.flatMap_cons, List.flatMap_nil, -String.reduceToList]
    repeat rw [String.toList_ofList]
    simp [inner, isInk]
  | each sparing code ih =>
    have inner := inside ih _ item
    cases sparing
    all_goals
      simp only [before, after, letters, List.flatMap_cons, List.flatMap_nil, -String.reduceToList]
      repeat rw [String.toList_ofList]
      simp [inner, isInk]
  | eachChecked code ih =>
    have inner := inside ih _ item
    simp only [before, after, letters, List.flatMap_cons, List.flatMap_nil, -String.reduceToList]
    repeat rw [String.toList_ofList]
    simp [inner, isInk]
  | positions codes ih | positionsChecked codes ih =>
    have free := items ih
    simp only [before, after, letters, decimal, List.flatMap_cons, List.flatMap_nil,
      List.all_append, free, -String.reduceToList]
    repeat rw [String.toList_ofList]
    simp [digits_ink, isInk]

/-- The argument takes the one place between what stands before and after it. -/
theorem toList_applied (code : Code) (arg : String) :
    (code.applied arg).toList = letters code.before ++ arg.toList ++ letters code.after :=
  toList_applied_of_plain (dollar_not_mem (frame_ink code).1) (dollar_not_mem (frame_ink code).2) arg

theorem applied_ink (code : Code) {arg : String} (ink : arg.toList.all isInk = true) :
    (code.applied arg).toList.all isInk = true := by
  rw [toList_applied, List.all_append, List.all_append, (frame_ink code).1, (frame_ink code).2, ink]
  rfl

/-- The arguments that expressions are applied to: variables, and items of the local vector. -/
def IsArgument (arg : String) : Prop :=
  ∃ c rest, arg.toList = c :: rest ∧ (c = 'i' ∨ c = 'v')

theorem isArgument_value : IsArgument "value" :=
  ⟨'v', "alue".toList, by simp, Or.inr rfl⟩

theorem isArgument_input : IsArgument "input" :=
  ⟨'i', "nput".toList, by simp, Or.inl rfl⟩

theorem isArgument_item : IsArgument "item" :=
  ⟨'i', "tem".toList, by simp, Or.inl rfl⟩

theorem isArgument_itemExpr (i : Nat) : IsArgument (itemExpr i) :=
  ⟨'i', "tems[".toList ++ ((decimal i).toList ++ "].clone()".toList), by simp [itemExpr], Or.inl rfl⟩

private def initial (first : Char) : Code → Char
  | .identity => first
  | .helper _ | .routine _ => 's'
  | .bigintText | .dateText | .temporalText _ => 'V'
  | .whenPresent _ | .each _ _ => 'm'
  | .positions _ => '\x7b'
  | _ => '('

private theorem Writes.head {bound : Nat} {code : Code} (writes : code.Writes bound) {arg : String}
    {first : Char} {rest : List Char} (shape : arg.toList = first :: rest) :
    ∃ tail, (code.applied arg).toList = initial first code :: tail := by
  rw [toList_applied, shape]
  cases writes with
  | each sparing item => cases sparing <;> simp [before, letters, initial]
  | _ => simp [before, letters, helperName, Routine.name, initial]

private theorem digits_prefix {m n : Nat} {c : Char} {xs ys : List Char} (stop : c.isDigit = false)
    (same : digits m ++ c :: xs = digits n ++ c :: ys) : m = n ∧ xs = ys := by
  have outside : ∀ n, c ∉ digits n := fun n member => by
    simp [isDigit_of_mem_digits member] at stop
  obtain ⟨number, rest⟩ := split_at_first (outside m) (outside n) same
  refine ⟨?_, rest⟩
  rw [← ofDigits_digits m, ← ofDigits_digits n, number]

private theorem constant_prefix {j k : TemporalKind} {xs ys : List Char}
    (same : (kindConstant j).toList ++ ')' :: xs = (kindConstant k).toList ++ ')' :: ys) :
    j = k ∧ xs = ys := by
  have outside : ∀ k, ')' ∉ (kindConstant k).toList := by
    intro k
    rw [toList_kindConstant, String.toList_ofList]
    cases k
    all_goals
      rw [TemporalKind.constantName, String.toList_ofList]
      simp
  obtain ⟨constant, rest⟩ := split_at_first (outside j) (outside k) same
  refine ⟨?_, rest⟩
  have names : j.constantName = k.constantName := by
    rw [toList_kindConstant, toList_kindConstant] at constant
    exact String.toList_inj.mp (List.append_cancel_left constant)
  cases j <;> cases k <;> first | rfl | simp [TemporalKind.constantName] at names

/-- Whatever follows it, the text of the expression tells it and where it ends. -/
private def Told (bound : Nat) (a : Code) : Prop :=
  ∀ b, b.Writes bound → ∀ arg, IsArgument arg → ∀ xs ys,
    (a.applied arg).toList ++ xs = (b.applied arg).toList ++ ys → a = b ∧ xs = ys

private theorem itemExprs_prefix {bound : Nat} {as : List Code} (told : ∀ a ∈ as, Told bound a)
    {bs : List Code} (right : ∀ b ∈ bs, b.Writes bound) (length : as.length = bs.length) {i : Nat}
    {xs ys : List Char}
    (same : (", ".intercalate (itemExprs i as)).toList ++ xs =
      (", ".intercalate (itemExprs i bs)).toList ++ ys) : as = bs ∧ xs = ys := by
  induction as generalizing bs i with
  | nil =>
    obtain rfl := List.length_eq_zero_iff.mp length.symm
    exact ⟨rfl, same⟩
  | cons a rest ih =>
    cases bs with
    | nil => simp at length
    | cons b more =>
      have first := told a List.mem_cons_self b (right b List.mem_cons_self) (itemExpr i)
        (isArgument_itemExpr i)
      have later := fun a member => told a (List.mem_cons_of_mem _ member)
      have right' := fun b member => right b (List.mem_cons_of_mem _ member)
      cases rest with
      | nil =>
        obtain rfl : more = [] := List.length_eq_zero_iff.mp (by simpa using length.symm)
        simp only [itemExprs, String.intercalate_singleton] at same
        obtain ⟨rfl, after⟩ := first _ _ same
        exact ⟨rfl, after⟩
      | cons next others =>
        cases more with
        | nil => simp at length
        | cons next' others' =>
          simp only [itemExprs, String.intercalate_cons_cons, String.toList_append,
            List.append_assoc] at same
          obtain ⟨rfl, others⟩ := first _ _ same
          have others := List.append_cancel_left others
          obtain ⟨rest, after⟩ := ih later right' (by simpa using length)
            (by simpa only [itemExprs] using others)
          exact ⟨by rw [rest], after⟩

private theorem letter_of_digit {n : Nat} {c : Char} {xs ys : List Char} (other : c.isDigit = false) :
    digits n ++ xs ≠ c :: ys := by
  intro same
  cases shape : digits n with
  | nil => exact digits_ne_nil n shape
  | cons d rest =>
    have digit : d ∈ digits n := shape ▸ List.mem_cons_self
    rw [shape] at same
    rw [← (List.cons.inj same).1, isDigit_of_mem_digits digit] at other
    simp at other

private theorem same_initial {bound : Nat} {a b : Code} (left : a.Writes bound)
    (right : b.Writes bound) {arg : String} {first : Char} {rest xs ys : List Char}
    (shape : arg.toList = first :: rest)
    (same : (a.applied arg).toList ++ xs = (b.applied arg).toList ++ ys) :
    initial first a = initial first b := by
  obtain ⟨tail, one⟩ := left.head shape
  obtain ⟨tail', two⟩ := right.head shape
  rw [one, two] at same
  exact (List.cons.inj same).1

private theorem after_of_before {a b : Code} {arg : String} {xs ys : List Char}
    (same : (a.applied arg).toList ++ xs = (b.applied arg).toList ++ ys)
    (openings : a.before = b.before) :
    letters a.after ++ xs = letters b.after ++ ys := by
  rw [toList_applied, toList_applied, openings] at same
  simpa only [List.append_assoc, List.append_cancel_left_eq] using same

-- The first letter leaves few candidates on the other side; among those the openings differ, or
-- else what follows the argument does.

private theorem told_identity (bound : Nat) : Told bound .identity := by
  rintro b right arg ⟨first, rest, shape, opens⟩ xs ys same
  have heads := same_initial .identity right shape same
  cases right with
  | identity => exact ⟨rfl, List.append_cancel_left same⟩
  | _ => rcases opens with rfl | rfl <;> simp [initial] at heads

private theorem told_helper {bound index : Nat} (within : index < bound) :
    Told bound (.helper index) := by
  rintro b right arg ⟨first, rest, shape, opens⟩ xs ys same
  have heads := same_initial (.helper within) right shape same
  rw [toList_applied, toList_applied] at same
  cases right with
  | identity => rcases opens with rfl | rfl <;> simp [initial] at heads
  | helper _ =>
    simp [before, after, letters, helperName, decimal] at same
    obtain ⟨rfl, same⟩ := digits_prefix (by decide) same
    simpa using same
  | number =>
    simp [before, after, letters, helperName, decimal, Routine.name] at same
    exact absurd same (letter_of_digit (by decide))
  | _ => simp [initial] at heads

private theorem told_number (bound : Nat) : Told bound (.routine .serializeNumber) := by
  rintro b right arg ⟨first, rest, shape, opens⟩ xs ys same
  have heads := same_initial .number right shape same
  cases right with
  | identity => rcases opens with rfl | rfl <;> simp [initial] at heads
  | helper _ =>
    rw [toList_applied, toList_applied] at same
    simp [before, after, letters, helperName, decimal, Routine.name] at same
    exact absurd same.symm (letter_of_digit (by decide))
  | number => exact ⟨rfl, List.append_cancel_left same⟩
  | _ => simp [initial] at heads

private theorem told_bigintText (bound : Nat) : Told bound .bigintText := by
  rintro b right arg ⟨first, rest, shape, opens⟩ xs ys same
  have heads := same_initial .bigintText right shape same
  cases right with
  | identity => rcases opens with rfl | rfl <;> simp [initial] at heads
  | bigintText => exact ⟨rfl, List.append_cancel_left same⟩
  | dateText =>
    rw [toList_applied, toList_applied, shape] at same
    rcases opens with rfl | rfl <;> simp [before, letters] at same
  | temporalText kind =>
    have rests := after_of_before same rfl
    simp [after, letters] at rests
  | _ => simp [initial] at heads

private theorem told_dateText (bound : Nat) : Told bound .dateText := by
  rintro b right arg ⟨first, rest, shape, opens⟩ xs ys same
  have heads := same_initial .dateText right shape same
  cases right with
  | identity => rcases opens with rfl | rfl <;> simp [initial] at heads
  | dateText => exact ⟨rfl, List.append_cancel_left same⟩
  | bigintText | temporalText kind =>
    rw [toList_applied, toList_applied, shape] at same
    rcases opens with rfl | rfl <;> simp [before, letters] at same
  | _ => simp [initial] at heads

private theorem told_temporalText (bound : Nat) (kind : TemporalKind) :
    Told bound (.temporalText kind) := by
  rintro b right arg ⟨first, rest, shape, opens⟩ xs ys same
  have heads := same_initial (.temporalText kind) right shape same
  cases right with
  | identity => rcases opens with rfl | rfl <;> simp [initial] at heads
  | bigintText =>
    have rests := after_of_before same rfl
    simp [after, letters] at rests
  | dateText =>
    rw [toList_applied, toList_applied, shape] at same
    rcases opens with rfl | rfl <;> simp [before, letters] at same
  | temporalText other =>
    have rests := after_of_before same rfl
    simp [after, letters] at rests
    obtain ⟨rfl, rests⟩ := constant_prefix rests
    simpa using rests
  | _ => simp [initial] at heads

private theorem told_whenPresent {bound : Nat} {inner : Code} (inside : inner.Writes bound)
    (told : Told bound inner) : Told bound (.whenPresent inner) := by
  rintro b right arg ⟨first, rest, shape, opens⟩ xs ys same
  have heads := same_initial (.whenPresent inside) right shape same
  cases right with
  | identity => rcases opens with rfl | rfl <;> simp [initial] at heads
  | whenPresent inside' =>
    have rests := after_of_before same rfl
    simp only [after, letters, List.flatMap_cons, List.flatMap_nil, List.append_assoc,
      List.append_cancel_left_eq] at rests
    obtain ⟨rfl, rests⟩ := told _ inside' "value" isArgument_value _ _ rests
    exact ⟨rfl, by simpa using rests⟩
  | each sparing item =>
    rw [toList_applied, toList_applied] at same
    cases sparing <;> simp [before, letters] at same
  | _ => simp [initial] at heads

private theorem told_each {bound : Nat} (sparing : Bool) {item : Code}
    (inside : item.Writes bound) (told : Told bound item) : Told bound (.each sparing item) := by
  rintro b right arg ⟨first, rest, shape, opens⟩ xs ys same
  have heads := same_initial (.each sparing inside) right shape same
  cases right with
  | identity => rcases opens with rfl | rfl <;> simp [initial] at heads
  | whenPresent _ =>
    rw [toList_applied, toList_applied] at same
    cases sparing <;> simp [before, letters] at same
  | each sparing' inside' =>
    have alike : sparing = sparing' := by
      rw [toList_applied, toList_applied] at same
      cases sparing <;> cases sparing' <;> first | rfl | simp [before, letters] at same
    subst alike
    have rests := after_of_before same rfl
    simp only [after, letters, List.flatMap_cons, List.flatMap_nil, List.append_assoc,
      List.append_cancel_left_eq] at rests
    obtain ⟨rfl, rests⟩ := told _ inside' "item" isArgument_item _ _ rests
    exact ⟨rfl, by simpa using rests⟩
  | _ => simp [initial] at heads

private theorem told_positions {bound : Nat} {codes : List Code}
    (inside : ∀ code ∈ codes, code.Writes bound) (told : ∀ code ∈ codes, Told bound code) :
    Told bound (.positions codes) := by
  rintro b right arg ⟨first, rest, shape, opens⟩ xs ys same
  have heads := same_initial (.positions inside) right shape same
  cases right with
  | identity => rcases opens with rfl | rfl <;> simp [initial] at heads
  | @positions codes' inside' =>
    have rests := after_of_before same rfl
    simp only [after, letters, decimal, String.toList_ofList, List.flatMap_cons,
      List.flatMap_nil, List.append_assoc, List.append_cancel_left_eq] at rests
    obtain ⟨length, rests⟩ := digits_prefix (by decide) rests
    obtain ⟨rfl, rests⟩ := itemExprs_prefix told inside' length (by simpa using rests)
    exact ⟨rfl, by simpa using rests⟩
  | _ => simp [initial] at heads

private theorem Writes.told {bound : Nat} {a : Code} (left : a.Writes bound) : Told bound a := by
  induction left with
  | identity => exact told_identity bound
  | helper within => exact told_helper within
  | number => exact told_number bound
  | bigintText => exact told_bigintText bound
  | dateText => exact told_dateText bound
  | temporalText kind => exact told_temporalText bound kind
  | whenPresent inside ih => exact told_whenPresent inside ih
  | each sparing inside ih => exact told_each sparing inside ih
  | positions inside ih => exact told_positions inside ih

/-- Whatever follows it, the text of an expression tells the expression and where it ends. -/
theorem Writes.applied_prefix {bound : Nat} {a b : Code} (left : a.Writes bound)
    (right : b.Writes bound) {arg : String} (argument : IsArgument arg) {xs ys : List Char}
    (same : (a.applied arg).toList ++ xs = (b.applied arg).toList ++ ys) : a = b ∧ xs = ys :=
  left.told b right arg argument xs ys same

end Code

end WireSchema.Generated
