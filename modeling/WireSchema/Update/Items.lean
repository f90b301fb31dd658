import WireSchema.Value.Sameness

/-!
Arrays updated item by item. The copying update always makes a new array; the sparing one hands
back the array itself if every item comes back the very same, and keeps the items before the
first that does not.
-/

set_option autoImplicit false

namespace WireSchema.Update

variable {ε : Type}

def mapItems (f : Nat → Value → Except ε Value) : Nat → List Value → Except ε (List Value)
  | _, [] => .ok []
  | i, item :: rest => do
    let mapped ← f i item
    let more ← mapItems f (i + 1) rest
    return mapped :: more

def changedItems (f : Nat → Value → Except ε Value) :
    Nat → List Value → Except ε (Option (List Value))
  | _, [] => .ok none
  | i, item :: rest => do
    let mapped ← f i item
    if mapped.same item then
      let more ← changedItems f (i + 1) rest
      return more.map (item :: ·)
    else
      let more ← mapItems f (i + 1) rest
      return some (mapped :: more)

/-- The array with what the function changes: itself if nothing is changed, else a new one that
comes into being at `fresh`. -/
def items (fresh : Origin) (f : Nat → Value → Except ε Value) (origin : Origin)
    (values : List Value) : Except ε Value := do
  match ← changedItems f 0 values with
  | none => return .array origin values
  | some changed => return .array fresh changed

def copiedItems (fresh : Origin) (f : Nat → Value → Except ε Value) (values : List Value) :
    Except ε Value := do
  let mapped ← mapItems f 0 values
  return .array fresh mapped

end WireSchema.Update
