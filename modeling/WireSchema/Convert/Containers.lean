import WireSchema.Leaf.Conversion
import WireSchema.Update.Choice
import WireSchema.Update.Items

/-!
Conversions of containers out of conversions of their parts. A container is copied only if a part
of it changes, and a fault in a part is given the step to it.
-/

set_option autoImplicit false

namespace WireSchema.Convert

def convertEach (item : Conversion Fault) : Conversion Fault := fun fresh v => do
  let (origin, values) ← v.asArray
  Update.items fresh (fun i x => located (.index i) (item (fresh.enter (.index i)) x))
    origin values

def convertPositions (elems : List (Conversion Fault)) : Conversion Fault := fun fresh v => do
  let (origin, values) ← v.asArray
  if values.length = elems.length then
    Update.items fresh
      (fun i x =>
        match elems[i]? with
        | some elem => located (.index i) (elem (fresh.enter (.index i)) x)
        | none => .ok x)
      origin values
  else .error (.of (.invalidLength elems.length values.length))

/-- Conversions of properties, told where what they make comes into being and where they are. -/
def placedFields (fresh : Origin) (fields : List (String × Conversion Fault)) :
    List (String × (Value → Except Fault Value)) :=
  fields.map fun (key, field) => (key, field (fresh.enter (.key key)))

/-- Converts the declared properties of an object; the others stay. -/
def convertProperties (fields : List (String × Conversion Fault)) : Conversion Fault :=
  fun fresh v => do
    let (origin, entries) ← v.asObject
    Update.properties fresh (placedFields fresh fields) origin entries

end WireSchema.Convert
