import WireSchema.Update.Properties

/-!
Values of a choice: objects whose property `kind` names the variant. The payload of a variant is
either spread over the other properties or held by the property `value`.
-/

set_option autoImplicit false

namespace WireSchema.Update

def kindKey : String := "kind"

/-- The property that holds a payload that is not spread. -/
def valueKey : String := "value"

def discriminant (v : Value) : Except Fault String := do
  let (_, entries) ← v.asObject
  match Entries.get? kindKey entries with
  | none | some .absent => .error (.of (.missingProperty kindKey))
  | some (.string kind) => return kind
  | some other => located (.key kindKey) (other.mistyped "string")

def payload (v : Value) : Value :=
  v.get valueKey

def variantValue (fresh : Origin) (kind : String) (value : Value) : Value :=
  .object fresh (setProperty valueKey value [(kindKey, .string kind)])

/-- A value of a choice with its payload updated; the value itself if the payload comes back the
very same. -/
def mappedPayload {ε : Type} (fresh : Origin) (kind : String) (f : Value → Except ε Value)
    (v : Value) : Except ε Value := do
  let mapped ← f (payload v)
  if mapped.same (payload v) then return v
  else return variantValue fresh kind mapped

/-- How the payload of a variant is converted: there is none, it is spread over properties, or it is
held by a property of its own. -/
inductive Payload (γ : Type) where
  | none
  | spread (fields : List (String × γ))
  | held (conversion : γ)

end WireSchema.Update
