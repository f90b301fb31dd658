import WireSchema.Text.Digits

/-!
Places in a text, as messages give them: the line, counted from one, and the number of bytes since
the line began. A cursor is a place together with the text that follows it.
-/

set_option autoImplicit false

namespace WireSchema.Json

open WireSchema.Text

structure Mark where
  line : Nat
  column : Nat
deriving DecidableEq

namespace Mark

def start : Mark := ⟨1, 0⟩

def past (m : Mark) (c : Char) : Mark :=
  if c = '\n' then ⟨m.line + 1, 0⟩ else ⟨m.line, m.column + c.utf8Size⟩

/-- The place after the first byte of what follows; at the end of the text the place itself. -/
def pastByte (m : Mark) : List Char → Mark
  | [] => m
  | c :: _ => if c = '\n' then ⟨m.line + 1, 0⟩ else ⟨m.line, m.column + 1⟩

/-- The place after the given number of bytes of what follows, or its end. -/
def pastBytes (count : Nat) (m : Mark) : List Char → Mark
  | [] => m
  | c :: rest =>
    if count = 0 then m
    else if c.utf8Size ≤ count then pastBytes (count - c.utf8Size) (m.past c) rest
    else ⟨m.line, m.column + count⟩

def text (m : Mark) : String :=
  " at line " ++ decimal m.line ++ " column " ++ decimal m.column

end Mark

structure Cursor where
  rest : List Char
  mark : Mark

namespace Cursor

def peeked (c : Cursor) : Mark :=
  c.mark.pastByte c.rest

/-- The blanks of documents: space, line feed, tab and carriage return. -/
def isBlank (c : Char) : Bool :=
  c == ' ' || c == '\n' || c == '\t' || c == '\r'

def skipFrom (mark : Mark) : List Char → Cursor
  | [] => ⟨[], mark⟩
  | c :: rest => if isBlank c then skipFrom (mark.past c) rest else ⟨c :: rest, mark⟩

def skipBlanks (c : Cursor) : Cursor :=
  skipFrom c.mark c.rest

end Cursor

inductive SyntaxCause where
  | endInValue
  | endInString
  | endInList
  | endInObject
  | expectedValue
  | expectedWord
  | expectedColon
  | expectedListCommaOrEnd
  | expectedObjectCommaOrEnd
  | keyNotString
  | trailingComma
  | trailingCharacters
  | invalidNumber
  | numberOutOfRange
  | invalidEscape
  | controlCharacter
  | loneSurrogate
  | unfinishedSurrogate
  | recursionLimit
deriving DecidableEq

def SyntaxCause.message : SyntaxCause → String
  | .endInValue => "EOF while parsing a value"
  | .endInString => "EOF while parsing a string"
  | .endInList => "EOF while parsing a list"
  | .endInObject => "EOF while parsing an object"
  | .expectedValue => "expected value"
  | .expectedWord => "expected ident"
  | .expectedColon => "expected `:`"
  | .expectedListCommaOrEnd => "expected `,` or `]`"
  | .expectedObjectCommaOrEnd => "expected `,` or `\x7d`"
  | .keyNotString => "key must be a string"
  | .trailingComma => "trailing comma"
  | .trailingCharacters => "trailing characters"
  | .invalidNumber => "invalid number"
  | .numberOutOfRange => "number out of range"
  | .invalidEscape => "invalid escape"
  | .controlCharacter => "control character (\\u0000-\\u001F) found while parsing a string"
  | .loneSurrogate => "lone leading surrogate in hex escape"
  | .unfinishedSurrogate => "unexpected end of hex escape"
  | .recursionLimit => "recursion limit exceeded"

structure Problem where
  cause : SyntaxCause
  mark : Mark
deriving DecidableEq

end WireSchema.Json
