import WireSchema.Value.Sameness

/-!
Objects updated property by property. A property whose result is absent is taken out; one that was
missing and has a result comes last. The copying update always makes a new object; the sparing one
hands back the object itself if every result is the very same as what was there.
-/

set_option autoImplicit false

namespace WireSchema.Update

variable {ε : Type}

def property (key : String) (entries : List (String × Value)) : Value :=
  (Entries.get? key entries).getD .absent

/-- Stores a value under a key; an absent value takes the key out. -/
def setProperty (key : String) (value : Value) (entries : List (String × Value)) :
    List (String × Value) :=
  if value.isAbsent then Entries.erase key entries else Entries.set key value entries

def copiedProperty (f : Value → Except ε Value) (key : String) (entries : List (String × Value)) :
    Except ε (List (String × Value)) := do
  let mapped ← f (property key entries)
  return setProperty key mapped entries

def changedProperty (source : List (String × Value)) (f : Value → Except ε Value) (key : String)
    (copy : Option (List (String × Value))) : Except ε (Option (List (String × Value))) := do
  let value := property key source
  let mapped ← f value
  match copy with
  | some entries => return some (setProperty key mapped entries)
  | none =>
    if mapped.same value then return none
    else return some (setProperty key mapped source)

def changedProperties (source : List (String × Value)) :
    List (String × (Value → Except ε Value)) → Option (List (String × Value)) →
      Except ε (Option (List (String × Value)))
  | [], copy => .ok copy
  | (key, f) :: rest, copy => do
    let copy ← changedProperty source f key copy
    changedProperties source rest copy

def copiedProperties :
    List (String × (Value → Except ε Value)) → List (String × Value) →
      Except ε (List (String × Value))
  | [], entries => .ok entries
  | (key, f) :: rest, entries => do
    let entries ← copiedProperty f key entries
    copiedProperties rest entries

def finish (fresh : Origin) (input : Value) (copy : Option (List (String × Value))) : Value :=
  match copy with
  | some entries => .object fresh entries
  | none => input

/-- The object with what the functions change: itself if nothing is changed, else a new one that
comes into being at `fresh`. -/
def properties (fresh : Origin) (fs : List (String × (Value → Except ε Value))) (origin : Origin)
    (source : List (String × Value)) : Except ε Value := do
  let copy ← changedProperties source fs none
  return finish fresh (.object origin source) copy

end WireSchema.Update
