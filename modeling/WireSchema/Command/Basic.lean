import WireSchema.WriteOptions

/-!
What the program can be asked to do.
-/

set_option autoImplicit false

namespace WireSchema

structure OptionSource where
  file : Option String
  switches : WriteOptions

structure DocumentSource where
  inputs : List String
  linewise : Bool

inductive Command where
  | compile (schema : String) (options : OptionSource) (name : String) (deserializer : Bool)
      (out : Option String)
  | check (schema : String) (documents : DocumentSource)
  | normalize (schema : String) (options : OptionSource) (documents : DocumentSource)
      (out : Option String)

end WireSchema
