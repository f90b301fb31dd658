import WireSchema.Proofs.Text.Digits
import WireSchema.Proofs.Text.Quoted

/-!
The words of a program text: runs of letters, digits and underscores outside of quotes. A run that a
dot or two colons tie to what stands before it names a part of that, and a run that starts with a
digit is a number; neither is a word.
-/

set_option autoImplicit false

namespace WireSchema.Text

inductive Tie where
  | free
  | colon
  | tied
deriving DecidableEq

inductive Mode where
  /-- Between runs. -/
  | gap (tie : Tie)
  /-- In a run, whose characters so far are kept with the last one in front. -/
  | run (tied : Bool) (chars : List Char)
  | quoted
  /-- Between quotes, right after a backslash. -/
  | escaped
deriving DecidableEq

def isWordChar (c : Char) : Bool :=
  c.isAlphanum || c == '_'

def Tie.after (tie : Tie) (c : Char) : Mode :=
  if c = '"' then .quoted
  else if c = '.' then .gap .tied
  else if c = ':' then .gap (if tie = .colon then .tied else .colon)
  else .gap .free

namespace Mode

def pending : Mode → List (List Char)
  | .run tied chars =>
    if tied || chars.getLast?.any Char.isDigit then [] else [chars.reverse]
  | _ => []

def step : Mode → Char → List (List Char) × Mode
  | .gap tie, c => ([], if isWordChar c then .run (tie = .tied) [c] else tie.after c)
  | .run tied chars, c =>
    if isWordChar c then ([], .run tied (c :: chars))
    else (pending (.run tied chars), Tie.free.after c)
  | .quoted, c => ([], if c = '\\' then .escaped else if c = '"' then .gap .free else .quoted)
  | .escaped, _ => ([], .quoted)

/-- The words that end within a text, and where the scan stands after it. -/
def scan : Mode → List Char → List (List Char) × Mode
  | mode, [] => ([], mode)
  | mode, c :: rest =>
    let (found, next) := mode.step c
    let (more, last) := scan next rest
    (found ++ more, last)

end Mode

open Mode (scan step)

def words (text : String) : List String :=
  let (found, last) := scan (.gap .free) text.toList
  (found ++ last.pending).map String.ofList

theorem scan_cons (mode : Mode) (c : Char) (rest : List Char) :
    scan mode (c :: rest) =
      ((step mode c).1 ++ (scan (step mode c).2 rest).1, (scan (step mode c).2 rest).2) := rfl

theorem scan_append (mode : Mode) (front back : List Char) :
    scan mode (front ++ back) =
      ((scan mode front).1 ++ (scan (scan mode front).2 back).1,
        (scan (scan mode front).2 back).2) := by
  induction front generalizing mode with
  | nil => rfl
  | cons c rest ih => rw [List.cons_append, scan_cons, ih, scan_cons, List.append_assoc]

theorem scan_append_of_eq {mode next : Mode} {front : List Char} {found : List (List Char)}
    (first : scan mode front = (found, next)) (back : List Char) :
    scan mode (front ++ back) = (found ++ (scan next back).1, (scan next back).2) := by
  rw [scan_append, first]

private theorem scan_quoted_of_plain {cs : List Char} (plain : ∀ c ∈ cs, c ≠ '"' ∧ c ≠ '\\') :
    scan .quoted cs = ([], .quoted) := by
  induction cs with
  | nil => rfl
  | cons c rest ih =>
    obtain ⟨quote, slash⟩ := plain c List.mem_cons_self
    have stay : step .quoted c = ([], .quoted) := by simp [step, quote, slash]
    rw [scan_cons, stay, ih fun c member => plain c (List.mem_cons_of_mem _ member)]
    rfl

private theorem digitChar_unquoted :
    ∀ d < 16, Nat.digitChar d ≠ '"' ∧ Nat.digitChar d ≠ '\\' := by
  decide

private theorem scan_quotedChar (c : Char) : scan .quoted (quotedChar c) = ([], .quoted) := by
  unfold quotedChar
  split_ifs with tab feed line nul quote slash shown
  iterate 6 rfl
  · exact scan_quoted_of_plain fun d member => by
      rw [List.mem_singleton.mp member]
      exact ⟨quote, slash⟩
  · have number : scan .quoted (hexDigits c.toNat) = ([], .quoted) := by
      refine scan_quoted_of_plain fun d member => ?_
      obtain ⟨n, small, rfl⟩ := exists_digit_of_mem_hexDigits member
      exact digitChar_unquoted n small
    have start : scan .quoted ['\\', 'u', '\x7b'] = ([], .quoted) := by decide
    have front := scan_append_of_eq start (hexDigits c.toNat)
    rw [number] at front
    rw [scan_append_of_eq front]
    decide

private theorem scan_quotedChars (cs : List Char) :
    scan .quoted (cs.flatMap quotedChar) = ([], .quoted) := by
  induction cs with
  | nil => rfl
  | cons c rest ih => rw [List.flatMap_cons, scan_append_of_eq (scan_quotedChar c), ih]; rfl

theorem scan_quoted (s : String) :
    scan (.gap .free) (quoted s).toList = ([], .gap .free) := by
  rw [quoted, String.toList_ofList, List.cons_append, scan_cons]
  have inside : (step (.gap .free) '"').2 = .quoted := by decide
  rw [inside, scan_append_of_eq (scan_quotedChars _)]
  decide

example : words "let kind = other::part(&input, \"let Value\", 3)?.part;" =
    ["let", "kind", "other", "input"] := by decide

theorem scan_run {tied : Bool} {chars cs : List Char} (all : cs.all isWordChar = true) :
    scan (.run tied chars) cs = ([], .run tied (cs.reverse ++ chars)) := by
  induction cs generalizing chars with
  | nil => rfl
  | cons c rest ih =>
    rw [List.all_cons, Bool.and_eq_true] at all
    have stay : step (.run tied chars) c = ([], .run tied (c :: chars)) := by
      rw [step, if_pos all.1]
    rw [scan_cons, stay, ih all.2]
    simp

end WireSchema.Text
