import WireSchema.Text.Lines

/-!
Paths as they are written: names with strokes between them. A step that is empty, or a single
point, stays where it is, and two points lead to the folder above.
-/

set_option autoImplicit false

namespace WireSchema.Files

open WireSchema.Text

def steps (path : String) : List String :=
  (pieces '/' path.toList).map String.ofList

def isIdle (step : String) : Bool :=
  step == "" || step == "."

/-- A path, written backwards, without the idle steps at its end; the first step always stays. -/
def withoutIdleEnd : List String → List String
  | [] => []
  | [first] => [first]
  | step :: before => if isIdle step then withoutIdleEnd before else step :: before

/-- The path of the folder that an entry lies in; the empty path and the topmost folder lie in none. -/
def parent? (path : String) : Option String :=
  match withoutIdleEnd (steps path).reverse with
  | [] => none
  | [""] => none
  | _ :: before =>
    match withoutIdleEnd before with
    | [""] => some "/"
    | above => some ("/".intercalate above.reverse)

def below (folder name : String) : String :=
  if folder.toList.getLast? = some '/' then folder ++ name else folder ++ "/" ++ name

/-- The path of an entry of a folder, where the entries of the working folder are called by name. -/
def entry (folder name : String) : String :=
  if folder = "." then name else below folder name

end WireSchema.Files
