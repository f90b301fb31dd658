import WireSchema.Convert.Read
import WireSchema.Convert.Write
import WireSchema.Value.Document

/-!
The normal form of a document under a schema: what comes back when it is read and written again.
-/

set_option autoImplicit false

namespace WireSchema

inductive Refusal where
  | unread (fault : Fault)
  | unwritten (fault : Fault)
deriving DecidableEq

def Value.ofDocument (json : Json) : Value :=
  .ofJson (.root 0) json

namespace Schema

def validate (schema : Schema) (json : Json) : Except Fault Unit :=
  (schema.read (.ofDocument json)).map fun _ => ()

def normalForm (schema : Schema) (options : WriteOptions) (json : Json) : Except Refusal Json := do
  let native ← (schema.read (.ofDocument json)).mapError .unread
  let wire ← (Schema.write options schema native).mapError .unwritten
  wire.toJson.mapError .unwritten

end Schema

end WireSchema
