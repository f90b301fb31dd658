import WireSchema.Entries
import WireSchema.Files.Path

/-!
Files and folders as a tree in memory.
-/

set_option autoImplicit false

namespace WireSchema.Files

inductive Tree where
  | file (content : String)
  | directory (entries : List (String × Tree))

namespace Tree

def entries : Tree → List (String × Tree)
  | .file _ => []
  | .directory entries => entries

def get? : List String → Tree → Option Tree
  | [], tree => some tree
  | name :: rest, tree =>
    match Entries.get? name tree.entries with
    | some child => get? rest child
    | none => none

/-- Puts something where the names lead, in folders that come into being where there is nothing;
below a file nothing changes. -/
def put : Tree → List String → Tree → Tree
  | _, [], new => new
  | .file content, _ :: _, _ => .file content
  | .directory entries, name :: rest, new =>
    .directory (Entries.set name
      (put ((Entries.get? name entries).getD (.directory [])) rest new) entries)

def ofFiles (files : List (String × String)) : Tree :=
  files.foldl (fun tree file => tree.put (steps file.1) (.file file.2)) (.directory [])

mutual

def filesAt (path : String) : Tree → List (String × String)
  | .file content => [(path, content)]
  | .directory entries => filesBelow path entries

def filesBelow (path : String) : List (String × Tree) → List (String × String)
  | [] => []
  | (name, tree) :: rest => filesAt (entry path name) tree ++ filesBelow path rest

end

def files (tree : Tree) : List (String × String) :=
  (filesAt "." tree).mergeSort fun a b => !decide (b.1 < a.1)

def changes (before after : Tree) : List (String × String) :=
  after.files.filter fun file => !before.files.contains file

end Tree

end WireSchema.Files
