import WireSchema.Json.Mark
import WireSchema.Binary64.Arithmetic

/-!
Words, numbers and strings as they stand in a document. A value that only has to be passed over is
held to less than one that is read: its numbers may be out of range and its escapes may name half
of a character.
-/

set_option autoImplicit false

namespace WireSchema.Json

open WireSchema.Text

inductive Scalar where
  | null
  | bool (b : Bool)
  | integer (n : Int)
  | double (x : Binary64)
  | string (s : String)
deriving DecidableEq

inductive ScalarRead where
  /-- A value, and what follows it. -/
  | found (value : Scalar) (next : Cursor)
  /-- Something that can be passed over but not read. -/
  | flawed (problem : Problem) (next : Cursor)
  /-- Something that cannot be read, for the first reason, nor passed over, for the second. -/
  | broken (reading passing : Problem)

/-- The same reason for both ways of looking at a value. -/
def ScalarRead.stop (cause : SyntaxCause) (mark : Mark) : ScalarRead :=
  .broken ⟨cause, mark⟩ ⟨cause, mark⟩

def readWord (value : Scalar) : List Char → Mark → List Char → ScalarRead
  | [], mark, rest => .found value ⟨rest, mark⟩
  | _ :: _, mark, [] => .stop .endInValue mark
  | w :: word, mark, c :: rest =>
    if w = c then readWord value word (mark.past c) rest
    else .stop .expectedWord (mark.pastByte (c :: rest))

def spanDigitsAt (c : Cursor) : List Char × Cursor :=
  let (ds, rest) := spanDigits c.rest
  (ds, ⟨rest, ⟨c.mark.line, c.mark.column + ds.length⟩⟩)

def Cursor.bump (c : Cursor) : Cursor :=
  ⟨c.rest.drop 1, ⟨c.mark.line, c.mark.column + 1⟩⟩

def exponentBound : Nat := 2147483648

/-- How many digits of an exponent it takes to reach `exponentBound`; `none` if it stays below. -/
def overflowAfter (ds : List Char) : Option Nat :=
  (List.range (ds.length + 1)).find? fun n => exponentBound ≤ ofDigits (ds.take n)

/-- The digits in front that keep the number below `2 ^ 64`, read on from `n`, and the others. -/
def takeDigits : Nat → List Char → Nat × List Char
  | n, [] => (n, [])
  | n, d :: ds =>
    let more := n * 10 + (d.toNat - '0'.toNat)
    if more < 18446744073709551616 then takeDigits more ds else (n, d :: ds)

/-- A significand of 64 bits and a power of ten. Digits that the significand has no room for are
dropped; where they stand in front of the point, digits behind it may still find room. -/
def decimalOf (whole part : List Char) : Nat × Int :=
  let (n, dropped) := takeDigits 0 whole
  let (n, left) := takeDigits n part
  (n, dropped.length - (part.length - left.length : Nat))

def doubleOf (negative : Bool) (x : Binary64) (next : Cursor) : ScalarRead :=
  if x.isFinite then .found (.double (if negative then x.neg else x)) next
  else .flawed ⟨.numberOutOfRange, next.mark⟩ next

/-- An integer of 64 bits; one that the sign leaves no room for becomes a double. -/
def integerOf (negative : Bool) (n : Nat) (next : Cursor) : ScalarRead :=
  if !negative then .found (.integer n) next
  else if 0 < n ∧ n ≤ 9223372036854775808 then .found (.integer (-(n : Int))) next
  else doubleOf true (.ofInt n) next

/-- What the digits in front of the point, the digits behind it and an exponent amount to. Only
digits without point and exponent are an integer. -/
def numberOf (negative : Bool) (whole : List Char) (part : Option (List Char))
    (exponent : Option (Bool × List Char × Mark)) (next : Cursor) : ScalarRead :=
  let (n, e) := decimalOf whole (part.getD [])
  match part, exponent with
  | none, none =>
    if (takeDigits 0 whole).2.isEmpty then integerOf negative n next
    else doubleOf negative ((Binary64.ofInt n).timesPowerOfTen e) next
  | some _, none => doubleOf negative ((Binary64.ofInt n).timesPowerOfTen e) next
  | _, some (minus, ds, mark) =>
    match overflowAfter ds with
    | some count =>
      if 0 < n ∧ !minus then .flawed ⟨.numberOutOfRange, ⟨mark.line, mark.column + count⟩⟩ next
      else doubleOf negative (.zero false) next
    | none =>
      let e : Int := if minus then e - ofDigits ds else e + ofDigits ds
      doubleOf negative ((Binary64.ofInt n).timesPowerOfTen e) next

def readNumberExponent (negative : Bool) (whole : List Char) (part : Option (List Char))
    (c : Cursor) : ScalarRead :=
  let c := c.bump
  let (minus, c) : Bool × Cursor :=
    match c.rest with
    | '-' :: _ => (true, c.bump)
    | '+' :: _ => (false, c.bump)
    | _ => (false, c)
  match spanDigitsAt c with
  | ([], _) =>
    if c.rest = [] then .broken ⟨.endInValue, c.mark⟩ ⟨.invalidNumber, c.mark⟩
    else .stop .invalidNumber c.peeked
  | (ds, next) => numberOf negative whole part (some (minus, ds, c.mark)) next

def readNumberTail (negative : Bool) (whole : List Char) (c : Cursor) : ScalarRead :=
  match c.rest with
  | '.' :: _ =>
    let point := c.bump
    match spanDigitsAt point with
    | ([], _) =>
      if point.rest = [] then .broken ⟨.endInValue, point.mark⟩ ⟨.invalidNumber, point.mark⟩
      else .stop .invalidNumber point.peeked
    | (ds, next) =>
      match next.rest with
      | 'e' :: _ | 'E' :: _ => readNumberExponent negative whole (some ds) next
      | _ => numberOf negative whole (some ds) none next
  | 'e' :: _ | 'E' :: _ => readNumberExponent negative whole none c
  | _ => numberOf negative whole none none c

def readNumber (negative : Bool) (c : Cursor) : ScalarRead :=
  match spanDigitsAt c with
  | ([], _) =>
    if c.rest = [] then .broken ⟨.endInValue, c.mark⟩ ⟨.invalidNumber, c.mark⟩
    else .stop .invalidNumber c.peeked
  | ('0' :: _ :: _, _) => .stop .invalidNumber ⟨c.mark.line, c.mark.column + 2⟩
  | (whole, next) => readNumberTail negative whole next

def hexValue? (c : Char) : Option Nat :=
  if '0' ≤ c ∧ c ≤ '9' then some (c.toNat - 48)
  else if 'a' ≤ c ∧ c ≤ 'f' then some (c.toNat - 87)
  else if 'A' ≤ c ∧ c ≤ 'F' then some (c.toNat - 55)
  else none

def hexQuad? (a b c d : Char) : Option Nat := do
  let a ← hexValue? a
  let b ← hexValue? b
  let c ← hexValue? c
  let d ← hexValue? d
  return ((a * 16 + b) * 16 + c) * 16 + d

def simpleEscape? (c : Char) : Option Char :=
  if c = '"' ∨ c = '\\' ∨ c = '/' then some c
  else if c = 'b' then some '\x08'
  else if c = 'f' then some '\x0c'
  else if c = 'n' then some '\n'
  else if c = 'r' then some '\r'
  else if c = 't' then some '\t'
  else none

/-- What has been read of a string: its characters so far, last one first, the first half of a
character that waits for the second, and the first thing about it that cannot be read. -/
structure StringState where
  chars : List Char
  half : Option Nat
  flaw : Option Problem

namespace StringState

def refuse (s : StringState) (cause : SyntaxCause) (mark : Mark) : StringState :=
  { s with half := none, flaw := s.flaw.or (some ⟨cause, mark⟩) }

/-- Anything but an escape leaves a waiting half alone, which is a flaw. -/
def settle (s : StringState) (mark : Mark) : StringState :=
  if s.half.isSome then s.refuse .unfinishedSurrogate mark else s

def push (s : StringState) (c : Char) : StringState :=
  { s with chars := c :: s.chars }

/-- One more number given by hexadecimal digits that end at `mark`: a character or a half of
one. -/
def pushUnit (s : StringState) (n : Nat) (mark : Mark) : StringState :=
  let low := 0xDC00 ≤ n && n ≤ 0xDFFF
  match s.half with
  | some high =>
    if low then
      { s with chars := Char.ofNat (0x10000 + (high - 0xD800) * 0x400 + (n - 0xDC00)) :: s.chars,
               half := none }
    else s.refuse .loneSurrogate mark
  | none =>
    if low then s.refuse .loneSurrogate mark
    else if 0xD800 ≤ n && n ≤ 0xDBFF then { s with half := some n }
    else s.push (Char.ofNat n)

end StringState

/-- The string cannot be read on; what is wrong with it already comes first. -/
def StringState.stop (s : StringState) (cause : SyntaxCause) (mark : Mark) : ScalarRead :=
  .broken (s.flaw.getD ⟨cause, mark⟩) ⟨cause, mark⟩

/-- The text is too short for four hexadecimal digits, or four bytes of it are not such digits. -/
def StringState.badHex (s : StringState) (mark : Mark) (rest : List Char) : ScalarRead :=
  if (String.ofList (rest.take 4)).utf8ByteSize < 4 then s.stop .endInString (mark.pastBytes 4 rest)
  else s.stop .invalidEscape (mark.pastBytes 4 rest)

def readString (s : StringState) (mark : Mark) : List Char → ScalarRead
  | [] => s.stop .endInString mark
  | ['\\'] => s.stop .endInString ⟨mark.line, mark.column + 1⟩
  | '"' :: rest =>
    let next : Cursor := ⟨rest, ⟨mark.line, mark.column + 1⟩⟩
    match (s.settle next.mark).flaw with
    | some problem => .flawed problem next
    | none => .found (.string (String.ofList s.chars.reverse)) next
  | '\\' :: 'u' :: a :: b :: c :: d :: rest =>
    let after : Mark := ⟨mark.line, mark.column + 2⟩
    match hexQuad? a b c d with
    | some n =>
      let done : Mark := ⟨after.line, after.column + 4⟩
      readString (s.pushUnit n done) done rest
    | none => s.badHex after (a :: b :: c :: d :: rest)
  | '\\' :: e :: rest =>
    let after : Mark := ⟨mark.line, mark.column + 1⟩
    if e = 'u' then s.badHex ⟨after.line, after.column + 1⟩ rest
    else
      let s := s.settle (after.pastByte (e :: rest))
      match simpleEscape? e with
      | some c => readString (s.push c) ⟨after.line, after.column + 1⟩ rest
      | none => s.stop .invalidEscape (after.pastByte (e :: rest))
  | c :: rest =>
    let s := s.settle (mark.pastByte (c :: rest))
    if c.toNat < 0x20 then
      .broken (s.flaw.getD ⟨.controlCharacter, mark.pastByte (c :: rest)⟩)
        ⟨.controlCharacter, mark⟩
    else readString (s.push c) (mark.past c) rest

end WireSchema.Json
