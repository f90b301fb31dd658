import WireSchema.Convert.Containers
import WireSchema.Schema.Basic

/-!
From wire values to native values, everything checked on the way. Containers are copied only if
something in them changes.
-/

set_option autoImplicit false

namespace WireSchema.Schema

open WireSchema.Convert
open WireSchema.Update (Payload kindKey valueKey discriminant)

/-- Reads one declared property. Only an option may be missing. -/
def readProperty (key : String) (optional : Bool) (field : Conversion Fault) :
    Conversion Fault := fun fresh v =>
  if v.isAbsent && !optional then .error (.of (.missingProperty key))
  else located (.key key) (field fresh v)

def unexpectedKey? (expected : List String) (entries : List (String × Value)) : Option String :=
  (Entries.names entries).find? fun key => !expected.contains key

def expectKeys (kind : String) (expected : List String) (entries : List (String × Value)) :
    Except Fault Unit :=
  match unexpectedKey? expected entries with
  | some key => .error (.of (.unexpectedProperty kind key))
  | none => .ok ()

def readVariant (variants : List (String × Payload (Conversion Fault))) : Conversion Fault :=
  fun fresh v => do
    let (_, entries) ← v.asObject
    let kind ← discriminant v
    match Entries.get? kind variants with
    | none => .error (.of (.unknownVariant kind))
    | some .none => do
      expectKeys kind [kindKey] entries
      return v
    | some (.spread fields) => convertProperties fields fresh v
    | some (.held payload) => do
      expectKeys kind [kindKey, valueKey] entries
      if (v.get valueKey).isAbsent then .error (.of (.missingProperty valueKey))
      else
        Update.mappedPayload fresh kind
          (fun x => located (.key valueKey) (payload (fresh.enter (.key valueKey)) x)) v

mutual

def reader : Schema → Conversion Fault
  | .leaf l => l.read
  | .option inner => fun fresh v => if v.isAbsent then .ok .absent else reader inner fresh v
  | .array item => convertEach (reader item)
  | .tuple elems => convertPositions (elemReaders elems)
  | .object fields => convertProperties (fieldReaders fields)
  | .choice variants => readVariant (variantReaders variants)

def elemReaders : List Schema → List (Conversion Fault)
  | [] => []
  | elem :: rest => reader elem :: elemReaders rest

def fieldReaders : List (String × Schema) → List (String × Conversion Fault)
  | [] => []
  | (key, field) :: rest =>
    (key, readProperty key field.isOption (reader field)) :: fieldReaders rest

def variantReaders : List (String × Option Schema) → List (String × Payload (Conversion Fault))
  | [] => []
  | (kind, none) :: rest => (kind, .none) :: variantReaders rest
  | (kind, some (.object fields)) :: rest =>
    (kind, .spread (fieldReaders fields)) :: variantReaders rest
  | (kind, some payload) :: rest => (kind, .held (reader payload)) :: variantReaders rest

end

def read (schema : Schema) (input : Value) : Except Fault Value :=
  schema.reader input.freshOrigin input

end WireSchema.Schema
