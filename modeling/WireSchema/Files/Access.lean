import WireSchema.Files.Path

/-!
What a program can ask of files and folders, whatever holds them, and how the folders on the way
to a file come into being.
-/

set_option autoImplicit false

namespace WireSchema.Files

inductive FileFault where
  | notFound
  | exists
  | notDirectory
  | isDirectory
  | other (message : String)
deriving DecidableEq

def FileFault.message : FileFault → String
  | .notFound => "No such file or directory (os error 2)"
  | .exists => "File exists (os error 17)"
  | .notDirectory => "Not a directory (os error 20)"
  | .isDirectory => "Is a directory (os error 21)"
  | .other message => message

inductive EntryKind where
  | file
  | directory
deriving DecidableEq

class Readable (m : Type → Type) where
  readText : String → m (Except FileFault String)
  /-- What stands at a path, if anything does. A link that leads nowhere counts as a file. -/
  kind? : String → m (Option EntryKind)
  /-- The names of the entries of a folder, in ascending order. -/
  names : String → m (Except FileFault (List String))

class Writable (m : Type → Type) where
  makeDirectory : String → m (Except FileFault Unit)
  /-- Makes a file, or gives it another content. -/
  writeText : String → String → m (Except FileFault Unit)

variable {m : Type → Type} [Monad m] [Readable m] [Writable m]

def isDirectory (path : String) : m Bool := do
  return (← Readable.kind? path) == some .directory

def ensureDirectory (path : String) : m (Except FileFault Unit) := do
  match ← Writable.makeDirectory path with
  | .ok () => return .ok ()
  | .error fault => return if ← isDirectory path then .ok () else .error fault

/-- Makes a folder and, where they are missing, up to `height` folders that it lies in. -/
def ensureDirectories : Nat → String → m (Except FileFault Unit)
  | 0, path => ensureDirectory path
  | height + 1, path => do
    match ← ensureDirectory path with
    | .error .notFound =>
      match parent? path with
      | none => return .error .notFound
      | some above =>
        match ← ensureDirectories height above with
        | .ok () => ensureDirectory path
        | .error fault => return .error fault
    | other => return other

end WireSchema.Files
