import WireSchema.Text.Digits

/-!
Patterns of paths. In a name `?` stands for any character, `*` for any run of them, `[abc]` or
`[a-c]` for one of some characters and `[!abc]` for one of the others; `**`, alone between
strokes, stands for any number of folders.
-/

set_option autoImplicit false

namespace WireSchema.Files

open WireSchema.Text

inductive PatternCause where
  | tooManyStars
  | mixedFolders
  | openClass
deriving DecidableEq

/-- A cause, and the number of characters in front of where it shows. -/
structure PatternFault where
  cause : PatternCause
  position : Nat
deriving DecidableEq

def PatternCause.message : PatternCause → String
  | .tooManyStars => "wildcards are either regular `*` or recursive `**`"
  | .mixedFolders => "recursive wildcards must form a single path component"
  | .openClass => "invalid range pattern"

def PatternFault.message (fault : PatternFault) : String :=
  "Pattern syntax error near position " ++ decimal fault.position ++ ": " ++ fault.cause.message

inductive Token where
  | one (c : Char)
  | any
  | run
  | folders
  | within (ranges : List (Char × Char))
  | except (ranges : List (Char × Char))
deriving DecidableEq

/-- The ranges that the inside of a class stands for, passing over `skip` characters first. -/
def rangesFrom : Nat → List Char → List (Char × Char)
  | _, [] => []
  | skip + 1, _ :: rest => rangesFrom skip rest
  | 0, c :: rest =>
    match rest with
    | '-' :: last :: _ => (c, last) :: rangesFrom 2 rest
    | _ => (c, c) :: rangesFrom 0 rest

/-- The inside of a class: at least one character, up to the next closing bracket. -/
def classInside? : List Char → Option (List Char)
  | [] => none
  | first :: rest =>
    if rest.contains ']' then some (first :: rest.takeWhile (· != ']')) else none

/-- The class that a text behind an opening bracket begins with, and how many characters it and
its brackets are. -/
def class? : List Char → Option (Token × Nat)
  | '!' :: rest => (classInside? rest).map fun inside =>
    (.except (rangesFrom 0 inside), inside.length + 3)
  | rest => (classInside? rest).map fun inside =>
    (.within (rangesFrom 0 inside), inside.length + 2)

def stars (position : Nat) (before : Option Char) (cs : List Char) :
    Except PatternFault (Token × Nat) :=
  match (cs.takeWhile (· == '*')).length with
  | 1 => .ok (.run, 1)
  | 2 =>
    if before = none ∨ before = some '/' then
      match cs.drop 2 with
      | [] => .ok (.folders, 2)
      | next :: _ =>
        if next = '/' then .ok (.folders, 3) else .error ⟨.mixedFolders, position + 2⟩
    else .error ⟨.mixedFolders, position - 1⟩
  | _ => .error ⟨.tooManyStars, position + 2⟩

def firstToken (position : Nat) (before : Option Char) (c : Char) (rest : List Char) :
    Except PatternFault (Token × Nat) :=
  if c = '?' then .ok (.any, 1)
  else if c = '*' then stars position before (c :: rest)
  else if c = '[' then
    match class? rest with
    | some found => .ok found
    | none => .error ⟨.openClass, position⟩
  else .ok (.one c, 1)

def tokensFrom : Nat → Nat → Option Char → List Char → Except PatternFault (List Token)
  | _, _, _, [] => .ok []
  | skip + 1, position, _, c :: rest => tokensFrom skip (position + 1) (some c) rest
  | 0, position, before, c :: rest => do
    let (token, length) ← firstToken position before c rest
    let more ← tokensFrom (length - 1) (position + 1) (some c) rest
    return token :: more

def tokens (pattern : List Char) : Except PatternFault (List Token) :=
  tokensFrom 0 0 none pattern

def inRange (c : Char) (ranges : List (Char × Char)) : Bool :=
  ranges.any fun range => range.1 ≤ c && c ≤ range.2

def someEnd (accepts : List Char → Bool) : List Char → Bool
  | [] => accepts []
  | c :: rest => accepts (c :: rest) || someEnd accepts rest

def accepts : List Token → List Char → Bool
  | [], name => name.isEmpty
  | .one c :: more, name =>
    match name with
    | [] => false
    | d :: rest => d == c && accepts more rest
  | .any :: more, name =>
    match name with
    | [] => false
    | _ :: rest => accepts more rest
  | .within ranges :: more, name =>
    match name with
    | [] => false
    | d :: rest => inRange d ranges && accepts more rest
  | .except ranges :: more, name =>
    match name with
    | [] => false
    | d :: rest => !inRange d ranges && accepts more rest
  | .run :: more, name => someEnd (accepts more) name
  | .folders :: more, name => someEnd (accepts more) name

/-- The name that the parts spell, if they all stand for themselves. -/
def literal? : List Token → Option String
  | [] => some ""
  | .one c :: more => (literal? more).map fun rest => String.ofList (c :: rest.toList)
  | _ :: _ => none

end WireSchema.Files
