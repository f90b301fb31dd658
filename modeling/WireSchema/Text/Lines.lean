/-!
Texts cut at a character, lines, indentation, and the replacement of a marker by another text.
-/

set_option autoImplicit false

namespace WireSchema.Text

/-- The pieces of a text between separators; there is always at least one. -/
def pieces (separator : Char) : List Char → List (List Char)
  | [] => [[]]
  | c :: rest =>
    if c = separator then [] :: pieces separator rest
    else
      match pieces separator rest with
      | [] => [[c]]
      | piece :: more => (c :: piece) :: more

def withoutReturn (line : List Char) : List Char :=
  if line.getLast? = some '\r' then line.dropLast else line

/-- The lines of the pieces of a text: the last piece is a line only if it is not empty, and
keeps a carriage return at its end. -/
def linesOfPieces : List (List Char) → List (List Char)
  | [] => []
  | [last] => if last.isEmpty then [] else [last]
  | piece :: rest => withoutReturn piece :: linesOfPieces rest

def lines (cs : List Char) : List (List Char) :=
  linesOfPieces (pieces '\n' cs)

/-- Every line that is not empty is moved right by four blanks. -/
def indent (text : String) : String :=
  "\n".intercalate ((lines text.toList).map fun line =>
    if line.isEmpty then "" else "    " ++ String.ofList line)

/-- Puts `replacement` in the place of every occurrence of the marker, from left to right. `skip` counts
the characters of an occurrence that are still to be passed over. -/
def substituteFrom (marker replacement : List Char) : Nat → List Char → List Char
  | _, [] => []
  | skip + 1, _ :: rest => substituteFrom marker replacement skip rest
  | 0, c :: rest =>
    if marker.isPrefixOf (c :: rest) then
      replacement ++ substituteFrom marker replacement (marker.length - 1) rest
    else c :: substituteFrom marker replacement 0 rest

def substitute (marker replacement : String) (text : String) : String :=
  String.ofList (substituteFrom marker.toList replacement.toList 0 text.toList)

end WireSchema.Text
