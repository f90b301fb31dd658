import WireSchema.Binary64.Text
import WireSchema.Entries

/-!
Document trees: what a JSON text holds once its numbers are told apart into integers of at most
64 bits and binary floating-point numbers. Members keep their order.
-/

set_option autoImplicit false

namespace WireSchema

open WireSchema.Text

inductive Json where
  | null
  | bool (b : Bool)
  | integer (n : Int)
  | double (x : Binary64)
  | string (s : String)
  | array (items : List Json)
  | object (members : List (String × Json))
deriving Inhabited

namespace Json

mutual

/-- The same tree in which every member name stands once, at its first position and with its
last value. -/
def distinct : Json → Json
  | .array items => .array (distinctItems items)
  | .object members => .object (Entries.ofList (distinctMembers members))
  | scalar => scalar

def distinctItems : List Json → List Json
  | [] => []
  | item :: rest => distinct item :: distinctItems rest

def distinctMembers : List (String × Json) → List (String × Json)
  | [] => []
  | (name, value) :: rest => (name, distinct value) :: distinctMembers rest

end

end Json

end WireSchema
