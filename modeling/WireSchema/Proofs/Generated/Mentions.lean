import WireSchema.Proofs.Generated.Bodies
import WireSchema.Proofs.Text.Words

/-!
The names that generated functions mention. A text that ends between words, or in a word that the
next text does not go on with, mentions what it mentions whatever stands around it, so an expression
mentions what its parts do, and a body what its lines do.
-/

set_option autoImplicit false

namespace WireSchema.Generated

open WireSchema.Text
open WireSchema.Text.Mode (scan)

/-- Words that name nothing outside of a function: those of the language and its prelude, and the
local variables. -/
def ordinary : List String :=
  ["let", "mut", "match", "input", "items", "item", "value", "kind", "other", "copy", "source",
    "output", "Ok", "Err", "None", "vec", "_"]

private def names (found : List (List Char)) : List String :=
  (found.map String.ofList).filter fun word => word ∉ ordinary

def mentions (text : String) : List String :=
  (words text).filter fun word => word ∉ ordinary

/-- A text between words that mentions names. -/
def Opens (text : List Char) (mentioned : List String) : Prop :=
  ∃ found, scan (.gap .free) text = (found, .gap .free) ∧ names found = mentioned

/-- A text that mentions names and may end in a word. -/
def Brings (text : List Char) (mentioned : List String) : Prop :=
  ∃ found last, scan (.gap .free) text = (found, last) ∧
    (last = .gap .free ∨ ∃ tied chars, last = .run tied chars) ∧
    names (found ++ last.pending) = mentioned

/-- Whether a text starts with what goes on with no word. -/
def breaks (text : List Char) : Bool :=
  text.head?.any fun c => !isWordChar c

variable {a b : List Char} {ns ms : List String}

theorem breaks_append (clean : breaks a = true) (b : List Char) : breaks (a ++ b) = true := by
  cases a with
  | nil => simp [breaks] at clean
  | cons c rest => exact clean

private theorem names_append (found more : List (List Char)) :
    names (found ++ more) = names found ++ names more := by
  simp [names]

theorem Opens.brings (opens : Opens a ns) : Brings a ns := by
  obtain ⟨found, scanned, rfl⟩ := opens
  exact ⟨found, _, scanned, Or.inl rfl, by simp [Mode.pending]⟩

theorem Brings.mentions_eq {text : String} (brings : Brings text.toList ns) :
    mentions text = ns := by
  obtain ⟨found, last, scanned, -, rfl⟩ := brings
  simp only [mentions, words, scanned, names]

theorem Opens.append (first : Opens a ns) (second : Opens b ms) : Opens (a ++ b) (ns ++ ms) := by
  obtain ⟨found, scanned, rfl⟩ := first
  obtain ⟨more, scanned', rfl⟩ := second
  refine ⟨found ++ more, ?_, names_append found more⟩
  rw [scan_append_of_eq scanned, scanned']

theorem Opens.bringing (first : Opens a ns) (second : Brings b ms) :
    Brings (a ++ b) (ns ++ ms) := by
  obtain ⟨found, scanned, rfl⟩ := first
  obtain ⟨more, last, scanned', settled, rfl⟩ := second
  refine ⟨found ++ more, last, ?_, settled, ?_⟩
  · rw [scan_append_of_eq scanned, scanned']
  · rw [List.append_assoc, names_append]

-- A run that the next text does not go on with ends as if nothing followed.
private theorem scan_of_breaks {last : Mode}
    (settled : last = .gap .free ∨ ∃ tied chars, last = .run tied chars) (clean : breaks b = true) :
    scan last b = (last.pending ++ (scan (.gap .free) b).1, (scan (.gap .free) b).2) := by
  obtain ⟨c, rest, rfl⟩ : ∃ c rest, b = c :: rest := by
    cases b with
    | nil => simp [breaks] at clean
    | cons c rest => exact ⟨c, rest, rfl⟩
  have apart : ¬isWordChar c = true := by simpa [breaks] using clean
  rcases settled with rfl | ⟨tied, chars, rfl⟩
  · rfl
  · rw [scan_cons, scan_cons, Mode.step, Mode.step, if_neg apart, if_neg apart]
    rfl

theorem Brings.append (first : Brings a ns) (second : Brings b ms) (clean : breaks b = true) :
    Brings (a ++ b) (ns ++ ms) := by
  obtain ⟨found, last, scanned, settled, rfl⟩ := first
  obtain ⟨more, final, scanned', settled', rfl⟩ := second
  refine ⟨found ++ (last.pending ++ more), final, ?_, settled', ?_⟩
  · rw [scan_append_of_eq scanned, scan_of_breaks settled clean, scanned']
  · rw [← names_append]
    simp only [List.append_assoc]

theorem Brings.close (first : Brings a ns) (second : Opens b ms) (clean : breaks b = true) :
    Opens (a ++ b) (ns ++ ms) := by
  obtain ⟨found, last, scanned, settled, rfl⟩ := first
  obtain ⟨more, scanned', rfl⟩ := second
  refine ⟨found ++ (last.pending ++ more), ?_, ?_⟩
  · rw [scan_append_of_eq scanned, scan_of_breaks settled clean, scanned']
  · rw [← names_append, List.append_assoc]

theorem opens_nil : Opens [] [] := ⟨[], rfl, rfl⟩

private theorem names_toList (found : List String) :
    names (found.map String.toList) = found.filter fun word => word ∉ ordinary := by
  simp [names, Function.comp_def]

theorem opens_of_words {text : List Char} (found : List String)
    (scanned : scan (.gap .free) text = (found.map String.toList, .gap .free))
    (kept : (found.filter fun word => word ∉ ordinary) = ns) : Opens text ns :=
  ⟨found.map String.toList, scanned, (names_toList found).trans kept⟩

theorem opens_quoted (s : String) : Opens (quoted s).toList [] :=
  ⟨[], scan_quoted s, rfl⟩

private theorem brings_run {word : String} {c : Char} {cs : List Char}
    (shape : word.toList = c :: cs) (all : word.toList.all isWordChar = true) :
    Brings word.toList (if c.isDigit ∨ word ∈ ordinary then [] else [word]) := by
  have whole : String.ofList (c :: cs) = word := by rw [← shape, String.ofList_toList]
  rw [shape, List.all_cons, Bool.and_eq_true] at all
  have start : Mode.step (.gap .free) c = ([], .run false [c]) := by
    rw [Mode.step, if_pos all.1]
    rfl
  refine ⟨[], .run false (cs.reverse ++ [c]), ?_, Or.inr ⟨false, _, rfl⟩, ?_⟩
  · rw [shape, scan_cons, start, scan_run all.2]
    rfl
  · cases digit : c.isDigit with
    | true => simp [Mode.pending, names, digit]
    | false =>
      have pending : Mode.pending (.run false (cs.reverse ++ [c])) = [c :: cs] := by
        simp [Mode.pending, digit]
      simp only [List.nil_append, pending, names, List.map_cons, List.map_nil, whole]
      by_cases member : word ∈ ordinary <;> simp [member]

theorem silent_of_mem {word : String} (member : word ∈ ordinary)
    (all : word.toList.all isWordChar = true) : Brings word.toList [] := by
  cases shape : word.toList with
  | nil => exact opens_nil.brings
  | cons c cs =>
    have brings := brings_run shape all
    rwa [if_pos (Or.inr member), shape] at brings

private theorem all_isWordChar_digits (n : Nat) : (digits n).all isWordChar = true :=
  List.all_eq_true.mpr fun d member => by
    simp [isWordChar, Char.isAlphanum, isDigit_of_mem_digits member]

theorem brings_digits (n : Nat) : Brings (digits n) [] := by
  have letters : (decimal n).toList = digits n := String.toList_ofList
  cases shape : digits n with
  | nil => exact absurd shape (digits_ne_nil n)
  | cons c rest =>
    have digit : c.isDigit = true := isDigit_of_mem_digits (shape ▸ List.mem_cons_self)
    have brings := brings_run (letters.trans shape) (letters ▸ all_isWordChar_digits n)
    rwa [if_pos (Or.inl digit), letters, shape] at brings

def numbered (name : String) : Bool :=
  "serialize_".toList.isPrefixOf name.toList && (name.toList.drop 10).head?.any Char.isDigit

theorem numbered_helperName (index : Nat) : numbered (helperName index) = true := by
  cases shape : digits index with
  | nil => exact absurd shape (digits_ne_nil index)
  | cons c rest =>
    have digit : c.isDigit = true := isDigit_of_mem_digits (shape ▸ List.mem_cons_self)
    simp [numbered, helperName, decimal, shape, digit]

theorem ne_helperName {name : String} (other : numbered name = false) (index : Nat) :
    name ≠ helperName index := by
  rintro rfl
  simp [numbered_helperName] at other

private theorem ordinary_not_numbered : ∀ word ∈ ordinary, numbered word = false := by
  decide

theorem brings_helperName (index : Nat) : Brings (helperName index).toList [helperName index] := by
  have shape : (helperName index).toList = 's' :: ("erialize_".toList ++ digits index) := by
    simp [helperName, decimal]
  have all : (helperName index).toList.all isWordChar = true := by
    rw [shape, ← List.cons_append, List.all_append, all_isWordChar_digits]
    decide
  have apart : helperName index ∉ ordinary := fun member => by
    simpa [numbered_helperName] using ordinary_not_numbered _ member
  have brings := brings_run shape all
  rwa [if_neg (by simp [apart])] at brings

namespace Code

mutual

def mentioned : Code → List String
  | .identity => []
  | .helper index => [helperName index]
  | .routine r => [r.name]
  | .bigintText => ["Value"]
  | .dateText => ["Value", "to_iso_string"]
  | .temporalText _ => ["Value", "TemporalKind"]
  | .parseTemporal _ => ["parse_temporal", "TemporalKind"]
  | .whenPresent inner => "Value" :: "Value" :: mentioned inner
  | .each sparing item => (if sparing then "map_cow" else "map_array") :: mentioned item
  | .eachChecked item => "map_cow" :: "parse_array" :: mentioned item
  | .positions codes => "parse_length" :: "Value" :: mentionedAll codes
  | .positionsChecked codes => "parse_length" :: "Value" :: mentionedAll codes

def mentionedAll : List Code → List String
  | [] => []
  | code :: rest => mentioned code ++ mentionedAll rest

end

theorem mentionedAll_eq_flatMap (codes : List Code) :
    mentionedAll codes = codes.flatMap mentioned := by
  induction codes with
  | nil => rw [mentionedAll, List.flatMap_nil]
  | cons code rest ih => rw [mentionedAll, ih, List.flatMap_cons]

/-- An expression mentions what the texts before and after its argument mention. -/
private theorem framed (code : Code) {arg : String} {front back : List String}
    (before : Opens (letters code.before) front) (after : Opens (letters code.after) back)
    (clean : breaks (letters code.after) = true) (silent : Brings arg.toList []) :
    Brings (code.applied arg).toList (front ++ back) := by
  rw [toList_applied, List.append_assoc]
  exact (before.append (silent.close after clean)).brings

private theorem opens_call : Opens (letters [")?"]) [] :=
  opens_of_words [] (by decide) (by decide)

private theorem breaks_call : breaks (letters [")?"]) = true := by
  decide

theorem silent_value : Brings "value".toList [] :=
  silent_of_mem (by decide) (by decide)

theorem silent_input : Brings "input".toList [] :=
  silent_of_mem (by decide) (by decide)

theorem silent_item : Brings "item".toList [] :=
  silent_of_mem (by decide) (by decide)

private theorem silent_itemExpr (i : Nat) : Brings (itemExpr i).toList [] := by
  have shape : (itemExpr i).toList = "items[".toList ++ (digits i ++ "].clone()".toList) := by
    simp [itemExpr, decimal]
  have front : Opens "items[".toList [] := opens_of_words ["items"] (by decide) (by decide)
  have back : Opens "].clone()".toList [] := opens_of_words [] (by decide) (by decide)
  rw [shape]
  exact (front.append ((brings_digits i).close back (by decide))).brings

private theorem brings_items {codes : List Code}
    (each : ∀ code ∈ codes, ∀ {arg : String}, Brings arg.toList [] →
      Brings (code.applied arg).toList code.mentioned) (i : Nat) :
    Brings (", ".intercalate (itemExprs i codes)).toList (mentionedAll codes) := by
  induction codes generalizing i with
  | nil =>
    rw [itemExprs, mentionedAll]
    exact opens_nil.brings
  | cons code rest ih =>
    have first := each code List.mem_cons_self (silent_itemExpr i)
    have others := ih (fun code member => each code (List.mem_cons_of_mem _ member)) (i + 1)
    have comma : Opens ", ".toList [] := opens_of_words [] (by decide) (by decide)
    rw [itemExprs, mentionedAll]
    cases rest with
    | nil =>
      rw [itemExprs, String.intercalate_singleton, mentionedAll, List.append_nil]
      exact first
    | cons next more =>
      rw [String.intercalate_cons_of_ne_nil (by simp [itemExprs]), String.toList_append,
        String.toList_append, List.append_assoc]
      exact first.append (comma.bringing others) (by simp [breaks, isWordChar])

/-! One form of expression at a time, given what its parts mention. -/

private theorem brings_helper (index : Nat) {arg : String} (silent : Brings arg.toList []) :
    Brings (applied arg (.helper index)).toList [helperName index] := by
  have paren : Opens "(".toList [] := opens_of_words [] (by decide) (by decide)
  have front : Opens (letters (before (.helper index))) [helperName index] := by
    simpa [before, letters, -String.reduceToList] using
      (brings_helperName index).close paren (by decide)
  exact framed (.helper index) front opens_call breaks_call silent

private theorem brings_routine (r : Routine) {arg : String} (silent : Brings arg.toList []) :
    Brings (applied arg (.routine r)).toList [r.name] := by
  have front : Opens (letters [r.name, "("]) [r.name] :=
    opens_of_words [r.name] (by cases r <;> decide) (by cases r <;> decide)
  exact framed (.routine r) front opens_call breaks_call silent

private theorem opens_value_from : Opens (letters ["Value::from("]) ["Value"] :=
  opens_of_words ["Value"] (by decide) (by decide)

private theorem brings_bigintText {arg : String} (silent : Brings arg.toList []) :
    Brings (applied arg .bigintText).toList ["Value"] := by
  have back : Opens (letters (after .bigintText)) [] := opens_of_words [] (by decide) (by decide)
  exact framed .bigintText opens_value_from back (by decide) silent

private theorem brings_dateText {arg : String} (silent : Brings arg.toList []) :
    Brings (applied arg .dateText).toList ["Value", "to_iso_string"] := by
  have front : Opens (letters (before .dateText)) ["Value", "to_iso_string"] :=
    opens_of_words ["Value", "to_iso_string"] (by decide) (by decide)
  have back : Opens (letters (after .dateText)) [] := opens_of_words [] (by decide) (by decide)
  exact framed .dateText front back (by decide) silent

/-- Two colons tie the name of the kind to what it is a kind of. -/
private theorem brings_constant (kind : TemporalKind) :
    Brings (kindConstant kind).toList ["TemporalKind"] := by
  have start : scan (.gap .free) "TemporalKind::".toList =
      (["TemporalKind".toList], .gap .tied) := by decide
  have named : names ["TemporalKind".toList] = ["TemporalKind"] := by decide
  have all : kind.constantName.toList.all isWordChar = true := by cases kind <;> decide
  rw [toList_kindConstant]
  cases shape : kind.constantName.toList with
  | nil => cases kind <;> simp [TemporalKind.constantName] at shape
  | cons c cs =>
    rw [shape, List.all_cons, Bool.and_eq_true] at all
    have next : Mode.step (.gap .tied) c = ([], .run true [c]) := by
      rw [Mode.step, if_pos all.1]
      rfl
    refine ⟨["TemporalKind".toList], .run true (cs.reverse ++ [c]), ?_, Or.inr ⟨true, _, rfl⟩, ?_⟩
    · rw [scan_append_of_eq start, scan_cons, next, scan_run all.2]
      rfl
    · rw [Mode.pending, Bool.true_or, if_pos rfl, List.append_nil, named]

private theorem brings_temporalText (kind : TemporalKind) {arg : String}
    (silent : Brings arg.toList []) :
    Brings (applied arg (.temporalText kind)).toList ["Value", "TemporalKind"] := by
  have head : Opens ".as_temporal(".toList [] := opens_of_words [] (by decide) (by decide)
  have tail : Opens ")?.to_string())".toList [] := opens_of_words [] (by decide) (by decide)
  have back : Opens (letters (after (.temporalText kind))) ["TemporalKind"] := by
    simpa [after, letters, -String.reduceToList] using
      head.append ((brings_constant kind).close tail (by decide))
  exact framed (.temporalText kind) opens_value_from back
    (by simp [after, letters, breaks, isWordChar]) silent

private theorem brings_parseTemporal (kind : TemporalKind) {arg : String}
    (silent : Brings arg.toList []) :
    Brings (applied arg (.parseTemporal kind)).toList ["parse_temporal", "TemporalKind"] := by
  have head : Opens "parse_temporal(".toList ["parse_temporal"] :=
    opens_of_words ["parse_temporal"] (by decide) (by decide)
  have comma : Opens ", ".toList [] := opens_of_words [] (by decide) (by decide)
  have front : Opens (letters (before (.parseTemporal kind)))
      ["parse_temporal", "TemporalKind"] := by
    simpa [before, letters, -String.reduceToList] using
      head.append ((brings_constant kind).close comma (by decide))
  exact framed (.parseTemporal kind) front opens_call breaks_call silent

private theorem brings_whenPresent {inner : Code} {arg : String}
    (part : Brings (inner.applied "value").toList inner.mentioned)
    (silent : Brings arg.toList []) :
    Brings (applied arg (.whenPresent inner)).toList ("Value" :: "Value" :: inner.mentioned) := by
  have front : Opens (letters ["match "]) [] := opens_of_words ["match"] (by decide) (by decide)
  have head : Opens " \x7b Value::Absent => Value::Absent, value => ".toList ["Value", "Value"] :=
    opens_of_words ["Value", "Value", "value"] (by decide) (by decide)
  have tail : Opens " \x7d".toList [] := opens_of_words [] (by decide) (by decide)
  have back : Opens (letters (after (.whenPresent inner)))
      ("Value" :: "Value" :: inner.mentioned) := by
    simpa [after, letters, -String.reduceToList] using head.append (part.close tail (by decide))
  exact framed (.whenPresent inner) front back (by simp [after, letters, breaks, isWordChar]) silent

private theorem opens_closure_end : Opens "))?".toList [] :=
  opens_of_words [] (by decide) (by decide)

private theorem brings_each (sparing : Bool) {item : Code} {arg : String}
    (part : Brings (item.applied "item").toList item.mentioned) (silent : Brings arg.toList []) :
    Brings (applied arg (.each sparing item)).toList
      ((if sparing then "map_cow" else "map_array") :: item.mentioned) := by
  have cow : Opens (letters ["map_cow("]) ["map_cow"] :=
    opens_of_words ["map_cow"] (by decide) (by decide)
  have array : Opens (letters ["map_array("]) ["map_array"] :=
    opens_of_words ["map_array"] (by decide) (by decide)
  have front : Opens (letters (before (.each sparing item)))
      [if sparing then "map_cow" else "map_array"] := by
    cases sparing with
    | true => exact cow
    | false => exact array
  have head : Opens ", |item| Ok(".toList [] :=
    opens_of_words ["item", "Ok"] (by decide) (by decide)
  have back : Opens (letters (after (.each sparing item))) item.mentioned := by
    simpa [after, letters, -String.reduceToList] using
      head.append (part.close opens_closure_end (by decide))
  exact framed (.each sparing item) front back (by simp [after, letters, breaks, isWordChar]) silent

private theorem brings_eachChecked {item : Code} {arg : String}
    (part : Brings (item.applied "item").toList item.mentioned) (silent : Brings arg.toList []) :
    Brings (applied arg (.eachChecked item)).toList
      ("map_cow" :: "parse_array" :: item.mentioned) := by
  have front : Opens (letters ["map_cow(parse_array("]) ["map_cow", "parse_array"] :=
    opens_of_words ["map_cow", "parse_array"] (by decide) (by decide)
  have head : Opens ")?, |item| Ok(".toList [] :=
    opens_of_words ["item", "Ok"] (by decide) (by decide)
  have back : Opens (letters (after (.eachChecked item))) item.mentioned := by
    simpa [after, letters, -String.reduceToList] using
      head.append (part.close opens_closure_end (by decide))
  exact framed (.eachChecked item) front back (by simp [after, letters, breaks, isWordChar]) silent

private theorem brings_positions {codes : List Code} {arg : String}
    (parts : Brings (", ".intercalate (itemExprs 0 codes)).toList (mentionedAll codes))
    (silent : Brings arg.toList []) :
    Brings (applied arg (.positions codes)).toList
      ("parse_length" :: "Value" :: mentionedAll codes) := by
  have front : Opens (letters ["\x7b let items = parse_length("]) ["parse_length"] :=
    opens_of_words ["let", "items", "parse_length"] (by decide) (by decide)
  have comma : Opens ", ".toList [] := opens_of_words [] (by decide) (by decide)
  have head : Opens ")?; Value::array(vec![".toList ["Value"] :=
    opens_of_words ["Value", "vec"] (by decide) (by decide)
  have tail : Opens "]) \x7d".toList [] := opens_of_words [] (by decide) (by decide)
  have back : Opens (letters (after (.positions codes))) ("Value" :: mentionedAll codes) := by
    simpa [after, letters, decimal, -String.reduceToList] using comma.append
      ((brings_digits codes.length).close (head.append (parts.close tail (by decide)))
        (breaks_append (by decide) _))
  exact framed (.positions codes) front back (by simp [after, letters, breaks, isWordChar]) silent

private theorem brings_positionsChecked {codes : List Code} {arg : String}
    (parts : Brings (", ".intercalate (itemExprs 0 codes)).toList (mentionedAll codes))
    (silent : Brings arg.toList []) :
    Brings (applied arg (.positionsChecked codes)).toList
      ("parse_length" :: "Value" :: mentionedAll codes) := by
  have paren : Opens "(".toList [] := opens_of_words [] (by decide) (by decide)
  have start : Opens
      "|input: ::typekind::Value| -> ::typekind::Result<::typekind::Value> \x7b ".toList [] :=
    opens_of_words ["input"] (by decide) (by decide)
  have count : Opens "let items = parse_length(input, ".toList ["parse_length"] :=
    opens_of_words ["let", "items", "parse_length", "input"] (by decide) (by decide)
  have head : Opens ")?; Ok(Value::array(vec![".toList ["Value"] :=
    opens_of_words ["Ok", "Value", "vec"] (by decide) (by decide)
  have tail : Opens "])) \x7d".toList [] := opens_of_words [] (by decide) (by decide)
  have call : Opens ")(".toList [] := opens_of_words [] (by decide) (by decide)
  have items := parts.close (tail.append call) (by decide)
  have front : Opens (letters (before (.positionsChecked codes)))
      ("parse_length" :: "Value" :: mentionedAll codes) := by
    simpa [before, letters, decimal, -String.reduceToList] using paren.append (start.append
      (count.append ((brings_digits codes.length).close (head.append items)
        (breaks_append (by decide) _))))
  have whole := framed (.positionsChecked codes) front opens_call breaks_call silent
  rwa [List.append_nil] at whole

/-- An expression mentions the same names whatever it is applied to, if that mentions none. -/
theorem brings_applied (code : Code) {arg : String} (silent : Brings arg.toList []) :
    Brings (code.applied arg).toList code.mentioned := by
  induction code using byParts generalizing arg with
  | identity => simpa [toList_applied, before, after, letters, mentioned] using silent
  | helper index => exact brings_helper index silent
  | routine r => exact brings_routine r silent
  | bigintText => exact brings_bigintText silent
  | dateText => exact brings_dateText silent
  | temporalText kind => exact brings_temporalText kind silent
  | parseTemporal kind => exact brings_parseTemporal kind silent
  | whenPresent inner ih => exact brings_whenPresent (ih silent_value) silent
  | each sparing item ih => exact brings_each sparing (ih silent_item) silent
  | eachChecked item ih => exact brings_eachChecked (ih silent_item) silent
  | positions codes ih =>
    exact brings_positions (brings_items (fun code member _ => ih code member) 0) silent
  | positionsChecked codes ih =>
    exact brings_positionsChecked (brings_items (fun code member _ => ih code member) 0) silent

end Code

inductive Lines : List String → List String → Prop where
  | nil : Lines [] []
  | cons {line : String} {lines ns ms : List String} : Plain line.toList → Opens line.toList ns →
      Lines lines ms → Lines (line :: lines) (ns ++ ms)

namespace Lines

variable {lines more ns ms : List String}

theorem append (first : Lines lines ns) (second : Lines more ms) :
    Lines (lines ++ more) (ns ++ ms) := by
  induction first with
  | nil => exact second
  | cons plain opens _ ih =>
    rw [List.cons_append, List.append_assoc]
    exact .cons plain opens ih

theorem singleton {line : String} (plain : Plain line.toList) (opens : Opens line.toList ns) :
    Lines [line] ns := by
  simpa using Lines.cons plain opens .nil

theorem map {α : Type} {entries : List α} {line : α → String} {mentioned : α → List String}
    (each : ∀ entry, Plain (line entry).toList ∧ Opens (line entry).toList (mentioned entry)) :
    Lines (entries.map line) (entries.flatMap mentioned) := by
  induction entries with
  | nil => exact .nil
  | cons entry rest ih => exact .cons (each entry).1 (each entry).2 ih

theorem plain (lines' : Lines lines ns) : ∀ line ∈ lines, Plain line.toList := by
  induction lines' with
  | nil => simp
  | cons plain _ _ ih => simpa using ⟨plain, ih⟩

theorem indented (lines' : Lines lines ns) : Lines (lines.map ("    " ++ ·)) ns := by
  induction lines' with
  | nil => exact .nil
  | @cons line _ _ _ plain opens _ ih =>
    have blank : Opens "    ".toList [] := opens_of_words [] (by decide) (by decide)
    refine .cons ⟨by simp, ?_, ?_⟩ ?_ ih
    · simpa using plain.2.1
    · simpa using plain.2.2
    · simpa using blank.append opens

theorem opens (lines' : Lines lines ns) : Opens ("\n".intercalate lines).toList ns := by
  have feed : Opens "\n".toList [] := opens_of_words [] (by decide) (by decide)
  induction lines' with
  | nil => exact opens_nil
  | @cons line lines _ _ _ opens others ih =>
    cases lines with
    | nil =>
      cases others
      rwa [String.intercalate_singleton, List.append_nil]
    | cons next rest =>
      rw [String.intercalate_cons_of_ne_nil (by simp), String.toList_append,
        String.toList_append, List.append_assoc]
      exact opens.append (feed.append ih)

end Lines

def functionText (body : String) : String :=
  signature ++ " \x7b\n" ++ indent body ++ "\n\x7d\n"

theorem Lines.functionText {lines ns : List String} (lines' : Lines lines ns) (some : lines ≠ []) :
    mentions (functionText ("\n".intercalate lines)) = ns := by
  have front : Opens (signature ++ " \x7b\n").toList [] :=
    opens_of_words ["input"] (by decide) (by decide)
  have back : Opens "\n\x7d\n".toList [] := opens_of_words [] (by decide) (by decide)
  have whole := front.append (lines'.indented.opens.append back)
  refine Brings.mentions_eq ?_
  rw [Generated.functionText, indent_intercalate some lines'.plain, String.toList_append,
    String.toList_append, List.append_assoc]
  simpa using whole.brings

private theorem plain_text {text : String} (full : text ≠ "")
    (ink : text.toList.all Code.isInk = true) : Plain text.toList :=
  plain_of_breakless (by simpa using full) (breakless_of_ink ink)

private theorem opens_success (code : Code) :
    Opens ("Ok(" ++ code.applied "input" ++ ")").toList code.mentioned := by
  have front : Opens "Ok(".toList [] := opens_of_words ["Ok"] (by decide) (by decide)
  have back : Opens ")".toList [] := opens_of_words [] (by decide) (by decide)
  simpa using front.append ((Code.brings_applied code Code.silent_input).close back (by decide))

theorem mentions_offered (code : Code) :
    mentions (functionText ("Ok(" ++ code.applied "input" ++ ")")) = code.mentioned := by
  have ink : ("Ok(" ++ code.applied "input" ++ ")").toList.all Code.isInk = true :=
    (Arm.whole code).text_ink
  have line := Lines.singleton (plain_text (by simp) ink) (opens_success code)
  simpa using line.functionText (by simp)

def Arm.mentioned : Arm → List String
  | .keep => []
  | .whole code => code.mentioned
  | .payload code => "map_payload" :: code.mentioned

def Body.mentioned : Body → List String
  | .text content => mentions (functionText content)
  | .copying fields =>
    "shallow_copy" :: fields.flatMap (fun field => "map_field" :: field.2.mentioned) ++ ["Value"]
  | .sparing fields =>
    fields.flatMap (fun field => "set_cow_property" :: field.2.mentioned) ++ ["finish_cow"]
  | .dispatch arms lenient =>
    "discriminant" :: arms.flatMap (fun arm => arm.2.mentioned) ++
      [if lenient then "Value" else "Error"]

theorem opens_closure (code : Code) :
    Opens (", |value| Ok(" ++ code.applied "value" ++ "))?;").toList code.mentioned := by
  have closure : Opens ", |value| Ok(".toList [] :=
    opens_of_words ["value", "Ok"] (by decide) (by decide)
  have last : Opens "))?;".toList [] := opens_of_words [] (by decide) (by decide)
  simpa using closure.append ((Code.brings_applied code Code.silent_value).close last (by decide))

private theorem opens_fieldLine {start name : String} (before : Opens start.toList [name])
    (field : String × Code) :
    Opens (fieldLine start field).toList (name :: field.2.mentioned) := by
  simpa [fieldLine_eq] using before.append ((opens_quoted field.1).append (opens_closure field.2))

private theorem plain_fieldLine {start : String} (ink : start.toList.all Code.isInk = true)
    (field : String × Code) : Plain (fieldLine start field).toList := by
  rw [fieldLine_eq]
  refine plain_of_breakless (by simp) fun c member => ?_
  simp only [String.toList_append, List.mem_append] at member
  rcases member with (((member | member) | member) | member) | member
  · exact breakless_of_ink ink c member
  · exact quoted_plain member
  · exact breakless_of_ink (by simp [Code.isInk]) c member
  · exact breakless_of_ink (Code.applied_ink _ (by simp [Code.isInk])) c member
  · exact breakless_of_ink (by simp [Code.isInk]) c member

private theorem lines_fields {start name : String} (ink : start.toList.all Code.isInk = true)
    (before : Opens start.toList [name]) (fields : List (String × Code)) :
    Lines (fields.map (fieldLine start)) (fields.flatMap fun field => name :: field.2.mentioned) :=
  .map fun field => ⟨plain_fieldLine ink field, opens_fieldLine before field⟩

private theorem mentions_copying (fields : List (String × Code)) :
    mentions (functionText (Body.copying fields).render) = (Body.copying fields).mentioned := by
  have start : Lines ["let mut copy = shallow_copy(&input)?;"] ["shallow_copy"] :=
    .singleton (plain_text (by simp) (by simp [Code.isInk]))
      (opens_of_words ["let", "mut", "copy", "shallow_copy", "input"] (by decide) (by decide))
  have each := lines_fields (by simp [Code.isInk])
    (opens_of_words ["map_field", "mut", "copy"] (by decide) (by decide) :
      Opens "map_field(&mut copy, ".toList ["map_field"]) fields
  have last : Lines ["Ok(Value::object(copy))"] ["Value"] :=
    .singleton (plain_text (by simp) (by simp [Code.isInk]))
      (opens_of_words ["Ok", "Value", "copy"] (by decide) (by decide))
  rw [render_copying]
  exact (start.append (each.append last)).functionText (by simp)

private theorem mentions_sparing (fields : List (String × Code)) :
    mentions (functionText (Body.sparing fields).render) = (Body.sparing fields).mentioned := by
  have source : Lines ["let source = input.as_object()?;"] [] :=
    .singleton (plain_text (by simp) (by simp [Code.isInk]))
      (opens_of_words ["let", "source", "input"] (by decide) (by decide))
  have output : Lines ["let mut output = None;"] [] :=
    .singleton (plain_text (by simp) (by simp [Code.isInk]))
      (opens_of_words ["let", "mut", "output", "None"] (by decide) (by decide))
  have each := lines_fields (by simp [Code.isInk])
    (opens_of_words ["set_cow_property", "source", "mut", "output"] (by decide) (by decide) :
      Opens "set_cow_property(source, &mut output, ".toList ["set_cow_property"]) fields
  have last : Lines ["Ok(finish_cow(input, output))"] ["finish_cow"] :=
    .singleton (plain_text (by simp) (by simp [Code.isInk]))
      (opens_of_words ["Ok", "finish_cow", "input", "output"] (by decide) (by decide))
  rw [render_sparing]
  exact (source.append (output.append (each.append last))).functionText (by simp)

theorem opens_armText (arm : Arm) : Opens arm.text.toList arm.mentioned := by
  cases arm with
  | keep =>
    rw [text_keep]
    exact opens_success .identity
  | whole code =>
    rw [text_whole]
    exact opens_success code
  | payload code =>
    have front : Opens "map_payload(input, &kind, |value| Ok(".toList ["map_payload"] :=
      opens_of_words ["map_payload", "input", "kind", "value", "Ok"] (by decide) (by decide)
    have back : Opens "))".toList [] := opens_of_words [] (by decide) (by decide)
    simpa [text_payload, Arm.mentioned] using
      front.append ((Code.brings_applied code Code.silent_value).close back (by decide))

private theorem opens_armLine (arm : String × Arm) :
    Opens (Body.armLine arm).toList arm.2.mentioned := by
  have arrow : Opens " => ".toList [] := opens_of_words [] (by decide) (by decide)
  have comma : Opens ",".toList [] := opens_of_words [] (by decide) (by decide)
  simpa [armLine_eq] using
    (opens_quoted arm.1).append (arrow.append ((opens_armText arm.2).append comma))

theorem opens_otherLine (lenient : Bool) :
    Opens (Body.otherLine lenient).toList [if lenient then "Value" else "Error"] := by
  rw [otherLine_eq]
  cases lenient with
  | true => exact opens_of_words ["_", "Ok", "Value"] (by decide) (by decide)
  | false => exact opens_of_words ["other", "Err", "Error", "other"] (by decide) (by decide)

private theorem intercalate_concat {lines : List String} (some : lines ≠ []) (last : String) :
    "\n".intercalate (lines ++ [last]) = "\n".intercalate lines ++ "\n" ++ last := by
  induction lines with
  | nil => exact absurd rfl some
  | cons line rest ih =>
    cases rest with
    | nil => simp [String.intercalate_cons_cons]
    | cons next more =>
      rw [List.cons_append, String.intercalate_cons_of_ne_nil (by simp), ih (by simp),
        String.intercalate_cons_cons]
      simp only [String.append_assoc]

private theorem dispatch_eq {lines : List String} (some : lines ≠ []) :
    "let kind = discriminant(&input)?;\nmatch kind.as_str() \x7b\n" ++ "\n".intercalate lines ++
        "\n\x7d" =
      "\n".intercalate ("let kind = discriminant(&input)?;" :: "match kind.as_str() \x7b" ::
        (lines ++ ["\x7d"])) := by
  rw [String.intercalate_cons_of_ne_nil (by simp), String.intercalate_cons_of_ne_nil (by simp),
    intercalate_concat some, ← String.toList_inj]
  simp

private theorem mentions_dispatch (arms : List (String × Arm)) (lenient : Bool) :
    mentions (functionText (Body.dispatch arms lenient).render) =
      (Body.dispatch arms lenient).mentioned := by
  have kind : Lines ["let kind = discriminant(&input)?;"] ["discriminant"] :=
    .singleton (plain_text (by simp) (by simp [Code.isInk]))
      (opens_of_words ["let", "kind", "discriminant", "input"] (by decide) (by decide))
  have choice : Lines ["match kind.as_str() \x7b"] [] :=
    .singleton (plain_text (by simp) (by simp [Code.isInk]))
      (opens_of_words ["match", "kind"] (by decide) (by decide))
  have each : Lines (arms.map Body.armLine) (arms.flatMap fun arm => arm.2.mentioned) :=
    .map fun arm => ⟨armLine_plain arm, opens_armLine arm⟩
  have other : Lines [Body.otherLine lenient] [if lenient then "Value" else "Error"] :=
    .singleton (otherLine_plain lenient) (opens_otherLine lenient)
  have last : Lines ["\x7d"] [] :=
    .singleton (plain_text (by simp) (by simp [Code.isInk]))
      (opens_of_words [] (by decide) (by decide))
  have whole := kind.append (choice.append ((each.append other).indented.append last))
  rw [render_dispatch, indent_intercalate (by simp) (arms_plain arms lenient),
    dispatch_eq (by simp)]
  simpa [Body.mentioned] using whole.functionText (by simp)

theorem mentions_helper (body : Body) : mentions (functionText body.render) = body.mentioned := by
  cases body with
  | text content => rfl
  | copying fields => exact mentions_copying fields
  | sparing fields => exact mentions_sparing fields
  | dispatch arms lenient => exact mentions_dispatch arms lenient

end WireSchema.Generated
