import WireSchema.Value.Basic

/-!
Checks of shape: what passes is the value itself.
-/

set_option autoImplicit false

namespace WireSchema.Leaf

def readBool : Value → Except Fault Value
  | .bool b => .ok (.bool b)
  | other => other.mistyped "boolean"

def readString : Value → Except Fault Value
  | .string s => .ok (.string s)
  | other => other.mistyped "string"

def readArray : Value → Except Fault Value
  | .array origin items => .ok (.array origin items)
  | other => other.mistyped "array"

def readObject : Value → Except Fault Value
  | .object origin entries => .ok (.object origin entries)
  | other => other.mistyped "object"

def readItems (length : Nat) (v : Value) : Except Fault (List Value) := do
  let (_, items) ← v.asArray
  if items.length = length then return items
  else .error (.of (.invalidLength length items.length))

end WireSchema.Leaf
