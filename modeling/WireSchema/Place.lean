import WireSchema.Text.Digits

/-!
Places inside a compound value: steps into a property or to an element, and paths of such steps.
-/

set_option autoImplicit false

namespace WireSchema

open WireSchema.Text

inductive Step where
  | key (name : String)
  | index (i : Nat)
deriving DecidableEq

abbrev Path := List Step

def Step.text : Step → String
  | .key name => "." ++ name
  | .index i => "[" ++ decimal i ++ "]"

def Path.text (path : Path) : String :=
  path.foldl (fun text step => text ++ step.text) "$"

/-- Where a container or big integer came into being: the pass that made it and the place inside
what that pass made, innermost step first. Two of them are the very same one exactly when their
origins are equal. -/
structure Origin where
  pass : Nat
  place : List Step
deriving DecidableEq

namespace Origin

def root (pass : Nat) : Origin := ⟨pass, []⟩

def enter (o : Origin) (step : Step) : Origin := { o with place := step :: o.place }

end Origin

end WireSchema
