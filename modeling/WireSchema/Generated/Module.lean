import WireSchema.Generated.Deserializer
import WireSchema.Generated.Serializer

/-!
Whole generated modules: the program that a schema needs, and the function it offers.
-/

set_option autoImplicit false

namespace WireSchema.Generated

/-- Whether a text is a name: letters, digits and underscores, no digit in front. -/
def isName : List Char → Bool
  | [] => false
  | first :: rest =>
    (first.isAlpha || first == '_') && rest.all fun c => c.isAlphanum || c == '_'

def checkName (name : String) : Except Fault Unit :=
  if isName name.toList then .ok ()
  else .error (.of (.invalidFormat "identifier" name))

def serializerModule (name : String) (schema : Schema) (options : WriteOptions) :
    Except Fault String := do
  checkName name
  let (code, program) := Program.writer options schema Program.empty
  return program.render ++ Program.exported ("serialize_fast_" ++ name) code

def deserializerModule (name : String) (schema : Schema) : Except Fault String := do
  checkName name
  match Program.reader schema Program.empty with
  | (.ok code, program) => return program.render ++ Program.exported ("deserialize_" ++ name) code
  | (.error fault, _) => .error fault

end WireSchema.Generated
