import WireSchema.Command.Run

/-!
The program. Files and folders are those of the surrounding system.
-/

set_option autoImplicit false

namespace WireSchema

open WireSchema.Files

/-- The number of an error of the system, which is also given as its complement to `2 ^ 32`. -/
def errorNumber (code : UInt32) : Nat :=
  min code.toNat (4294967296 - code.toNat)

def faultOfError : IO.Error → FileFault
  | .noFileOrDirectory _ _ _ => .notFound
  | .alreadyExists _ _ _ => .exists
  | .inappropriateType file code details =>
    match errorNumber code with
    | 20 => .notDirectory
    | 21 => .isDirectory
    | _ => .other (toString (IO.Error.inappropriateType file code details))
  | error => .other (toString error)

def attempted {α : Type} (action : IO α) : IO (Except FileFault α) := do
  match ← action.toBaseIO with
  | .ok a => return .ok a
  | .error error => return .error (faultOfError error)

instance : Readable IO where
  readText path := attempted (IO.FS.readFile path)
  kind? path := do
    let here ← IO.currentDir
    if path.isEmpty then return none
    if ← (here / path).isDir then return some .directory
    match ← attempted (here / path).symlinkMetadata with
    | .ok _ => return some .file
    | .error _ => return none
  names path := do
    let here ← IO.currentDir
    let entries ← attempted (here / path).readDir
    return entries.map fun entries =>
      (entries.toList.map (·.fileName)).mergeSort fun a b => !decide (b < a)

instance : Writable IO where
  makeDirectory path := attempted (IO.FS.createDir path)
  writeText path content := attempted (IO.FS.writeFile path content)

end WireSchema

def main (arguments : List String) : IO UInt32 := do
  let outcome ← WireSchema.runArguments arguments
  IO.print outcome.output
  IO.eprint outcome.complaint
  return outcome.code.toUInt32
