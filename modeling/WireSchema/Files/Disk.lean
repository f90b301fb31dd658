import WireSchema.Files.Access
import WireSchema.Files.Tree

/-!
A disk in memory: a tree of files and folders, and the folder in which paths begin that do not
begin with a stroke. Every request can be answered without looking at anything else.
-/

set_option autoImplicit false

namespace WireSchema.Files

structure Disk where
  root : Tree
  working : List String

namespace Disk

def workingTree (disk : Disk) : Tree :=
  (disk.root.get? disk.working).getD (.directory [])

/-- The names that lead from the root to where some steps from a place lead. Above the root is the
root. -/
def locateFrom (root : Tree) : List String → List String → Except FileFault (List String)
  | place, [] => .ok place
  | place, step :: rest =>
    match root.get? place with
    | some (.directory entries) =>
      if isIdle step then locateFrom root place rest
      else if step = ".." then locateFrom root place.dropLast rest
      else if (Entries.get? step entries).isSome then locateFrom root (place ++ [step]) rest
      else .error .notFound
    | some (.file _) => .error .notDirectory
    | none => .error .notFound

def locate (disk : Disk) : List String → Except FileFault (List String)
  | [] => .ok disk.working
  | "" :: rest => locateFrom disk.root [] rest
  | steps => locateFrom disk.root disk.working steps

def find (disk : Disk) (path : String) : Except FileFault Tree := do
  let place ← if path = "" then .error .notFound else disk.locate (steps path)
  match disk.root.get? place with
  | some tree => return tree
  | none => .error .notFound

def readText (disk : Disk) (path : String) : Except FileFault String := do
  match ← disk.find path with
  | .file content => return content
  | .directory _ => .error .isDirectory

def kind? (disk : Disk) (path : String) : Option EntryKind :=
  match disk.find path with
  | .ok (.file _) => some .file
  | .ok (.directory _) => some .directory
  | .error _ => none

def names (disk : Disk) (path : String) : Except FileFault (List String) := do
  match ← disk.find path with
  | .file _ => .error .notDirectory
  | .directory entries => return (Entries.names entries).mergeSort fun a b => !decide (b < a)

/-- The folder in which something is to be put, and the name it is to have there. Strokes at the
end of the path do not count. -/
def locateEntry (disk : Disk) (path : String) : Except FileFault (List String × String) :=
  match (steps path).reverse.dropWhile (· == "") with
  | [] => .error .notFound
  | name :: before => do
    let folder ← disk.locate before.reverse
    match disk.root.get? folder with
    | some (.directory _) => return (folder, name)
    | some (.file _) => .error .notDirectory
    | none => .error .notFound

def isReserved (step : String) : Bool :=
  isIdle step || step == ".."

def makeDirectory (disk : Disk) (path : String) : Except FileFault Disk := do
  let (folder, name) ← disk.locateEntry path
  let place := folder ++ [name]
  if isReserved name || (disk.root.get? place).isSome then .error .exists
  else return { disk with root := disk.root.put place (.directory []) }

def writeText (disk : Disk) (path content : String) : Except FileFault Disk := do
  let (folder, name) ← disk.locateEntry path
  let place := folder ++ [name]
  if isReserved name || path.toList.getLast? == some '/' then .error .isDirectory
  else
    match disk.root.get? place with
    | some (.directory _) => .error .isDirectory
    | _ => return { disk with root := disk.root.put place (.file content) }

def asking {α : Type} (answer : Disk → α) : StateM Disk α :=
  fun disk => (answer disk, disk)

def changing (change : Disk → Except FileFault Disk) : StateM Disk (Except FileFault Unit) :=
  fun disk =>
    match change disk with
    | .ok new => (.ok (), new)
    | .error fault => (.error fault, disk)

instance : Readable (StateM Disk) where
  readText path := asking fun disk => disk.readText path
  kind? path := asking fun disk => disk.kind? path
  names path := asking fun disk => disk.names path

instance : Writable (StateM Disk) where
  makeDirectory path := changing fun disk => disk.makeDirectory path
  writeText path content := changing fun disk => disk.writeText path content

end Disk

end WireSchema.Files
