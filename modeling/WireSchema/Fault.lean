import WireSchema.Place
import WireSchema.Schema.Kind
import WireSchema.Text.Quoted

/-!
What can go wrong with a value, and where. A fault is raised at the innermost value without a
location; every container around it puts its own step in front.
-/

set_option autoImplicit false

namespace WireSchema

open WireSchema.Text

inductive Cause where
  | invalidType (expected found : String)
  | invalidFormat (kind text : String)
  | outOfRange (kind value : String)
  | invalidLength (expected found : Nat)
  | missingProperty (key : String)
  | unexpectedProperty (variant property : String)
  | unknownVariant (variant : String)
  | unsupportedKind (kind : Kind)
  | notImplemented (what : String)
deriving DecidableEq

def Cause.message : Cause → String
  | .invalidType expected found => "invalid type: expected " ++ expected ++ ", found " ++ found
  | .invalidFormat kind text => "invalid " ++ kind ++ ": " ++ quoted text
  | .outOfRange kind value => value ++ " is out of range for " ++ kind
  | .invalidLength expected found =>
    "invalid length: expected " ++ decimal expected ++ " elements, found " ++ decimal found
  | .missingProperty key => "missing property " ++ quoted key
  | .unexpectedProperty variant property =>
    "unexpected property " ++ quoted property ++ " on variant " ++ quoted variant
  | .unknownVariant variant => "unknown variant " ++ quoted variant
  | .unsupportedKind kind => "unsupported schema kind \"" ++ kind.name ++ "\""
  | .notImplemented what => "not implemented: " ++ what

/-- A cause at a place; the empty path says that the place is not known. -/
structure Fault where
  cause : Cause
  path : Path
deriving DecidableEq

namespace Fault

def of (cause : Cause) : Fault := ⟨cause, []⟩

/-- The fault as seen from the container around it. -/
def inside (step : Step) (fault : Fault) : Fault :=
  { fault with path := step :: fault.path }

def message (fault : Fault) : String :=
  if fault.path = [] then fault.cause.message
  else "at " ++ fault.path.text ++ ": " ++ fault.cause.message

end Fault

/-- A result whose fault, if it is one, is seen from the container around it. -/
def located {α : Type} (step : Step) : Except Fault α → Except Fault α
  | .ok a => .ok a
  | .error fault => .error (fault.inside step)

end WireSchema
