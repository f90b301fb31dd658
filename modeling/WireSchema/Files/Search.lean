import WireSchema.Files.Access
import WireSchema.Files.Pattern

/-!
The paths that a pattern stands for, in ascending order. A pattern is followed folder by folder;
parts that spell a name are looked up, all others are held against the names of the entries.
-/

set_option autoImplicit false

namespace WireSchema.Files

open WireSchema.Text

inductive Component where
  | folders
  | name (tokens : List Token)
deriving DecidableEq

def Component.ofText (text : List Char) : Except PatternFault Component :=
  (tokens text).map fun
    | [.folders] => .folders
    | tokens => .name tokens

structure Pattern where
  /-- The path of the folder from which it is followed. -/
  start : String
  components : List Component
  /-- It ends in a stroke, so that it stands for folders only. -/
  foldersOnly : Bool

/-- The texts between the strokes; a stroke at the end ends nothing. -/
def componentTexts (text : List Char) : List (List Char) :=
  let texts := pieces '/' text
  if texts.getLast? = some [] then texts.dropLast else texts

def Pattern.ofText (text : String) : Except PatternFault Pattern := do
  let cs := text.toList
  let _ ← tokens cs
  let (start, relative) := if cs.head? = some '/' then ("/", cs.drop 1) else (".", cs)
  let components ← (componentTexts relative).mapM Component.ofText
  return ⟨start, components, cs.getLast? == some '/'⟩

def isPattern (text : String) : Bool :=
  text.toList.any fun c => c == '*' || c == '?' || c == '[' || c == '\x7b'

structure SearchFault where
  folder : String
  fault : FileFault
deriving DecidableEq

def SearchFault.message (fault : SearchFault) : String :=
  "attempting to read `" ++ fault.folder ++ "` resulted in an error: " ++ fault.fault.message

/-- A search ends at the first folder that cannot be read. -/
abbrev Search (m : Type → Type) := ExceptT SearchFault m

section

variable {m : Type → Type} [Monad m] [Readable m]

def isFolder (path : String) : Search m Bool :=
  (isDirectory path : m Bool)

def isThere (path : String) : Search m Bool :=
  (Option.isSome <$> Readable.kind? path : m Bool)

def namesIn (folder : String) : Search m (List String) :=
  .mk do return (← Readable.names folder).mapError (⟨folder, ·⟩)

/-- A path that a whole pattern stands for, unless it has to be a folder and is none. -/
def arrived (foldersOnly : Bool) (path : String) : Search m (List String) := do
  return if !foldersOnly || (← isFolder path) then [path] else []

/-- A path that a pattern stands for as far as followed: the rest is followed from there. -/
def onwards (follow : List Component → String → Search m (List String)) (foldersOnly : Bool)
    (rest : List Component) (path : String) : Search m (List String) :=
  if rest.isEmpty then arrived foldersOnly path else follow rest path

def held (follow : List Component → String → Search m (List String)) (foldersOnly : Bool)
    (name path : String) : List Component → Search m (List String)
  | .name tokens :: rest =>
    if accepts tokens name.toList then onwards follow foldersOnly rest path else pure []
  | _ => pure []

/-- An entry of a folder, where any number of folders may stand in front of the next parts. -/
def heldAnywhere (follow : List Component → String → Search m (List String)) (foldersOnly : Bool)
    (name path : String) (rest : List Component) : Search m (List String) := do
  let inFolder ← isFolder path
  let here ← if rest.isEmpty then pure (if inFolder then [path] else [])
    else held follow foldersOnly name path rest
  let deeper ← if inFolder then follow (.folders :: rest) path else pure []
  return here ++ deeper

/-- Whether a part may stand for the folder itself or the folder above: only if it begins with a
point. -/
def pointed (tokens : List Token) (name : String) : Bool :=
  tokens.head? == some (.one '.') && accepts tokens name.toList

/-- The paths that the parts of a pattern stand for, followed from a folder, through at most
`depth` folders. -/
def follow (foldersOnly : Bool) : Nat → List Component → String → Search m (List String)
  | 0, _, _ => pure []
  | _, [], _ => pure []
  | depth + 1, .folders :: more, folder => do
    let rest := more.dropWhile (· == .folders)
    if ← isFolder folder then
      let found ← (← namesIn folder).mapM fun name =>
        heldAnywhere (follow foldersOnly depth) foldersOnly name (entry folder name) rest
      return found.flatten
    else return []
  | depth + 1, .name tokens :: rest, folder => do
    match literal? tokens with
    | some name =>
      let path := entry folder name
      let there ← if name = "." ∨ name = ".." then isFolder folder else isThere path
      if there then onwards (follow foldersOnly depth) foldersOnly rest path else return []
    | none =>
      if ← isFolder folder then
        let names ← namesIn folder
        let around ← ([".", ".."].filter (pointed tokens)).reverse.mapM fun name =>
          onwards (follow foldersOnly depth) foldersOnly rest (below folder name)
        let found ← names.mapM fun name =>
          held (follow foldersOnly depth) foldersOnly name (entry folder name)
            (.name tokens :: rest)
        return (around ++ found).flatten
      else return []

def longestPath : Nat := 4096

def Pattern.paths (pattern : Pattern) : Search m (List String) :=
  follow pattern.foldersOnly (longestPath + pattern.components.length) pattern.components
    pattern.start

end

end WireSchema.Files
