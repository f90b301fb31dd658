import WireSchema.Convert.Containers
import WireSchema.Schema.Basic

/-!
From native values to wire values. Containers are copied only if something in them changes.
-/

set_option autoImplicit false

namespace WireSchema.Schema

open WireSchema.Convert
open WireSchema.Update (Payload valueKey discriminant)

def writeVariant (options : WriteOptions) (variants : List (String × Payload (Conversion Fault))) :
    Conversion Fault := fun fresh v => do
  let kind ← discriminant v
  match Entries.get? kind variants with
  | none =>
    if options.choiceFallthrough then return .absent else .error (.of (.unknownVariant kind))
  | some .none => return v
  | some (.spread fields) => convertProperties fields fresh v
  | some (.held payload) =>
    Update.mappedPayload fresh kind
      (fun x => located (.key valueKey) (payload (fresh.enter (.key valueKey)) x)) v

mutual

def writer (options : WriteOptions) : Schema → Conversion Fault
  | .leaf l => fun _ v => l.write options v
  | .option inner => fun fresh v =>
    if v.isAbsent then .ok .absent else writer options inner fresh v
  | .array item => convertEach (writer options item)
  | .tuple elems => convertPositions (elemWriters options elems)
  | .object fields => convertProperties (fieldWriters options fields)
  | .choice variants => writeVariant options (variantWriters options variants)

def elemWriters (options : WriteOptions) : List Schema → List (Conversion Fault)
  | [] => []
  | elem :: rest => writer options elem :: elemWriters options rest

def fieldWriters (options : WriteOptions) :
    List (String × Schema) → List (String × Conversion Fault)
  | [] => []
  | (key, field) :: rest =>
    (key, fun fresh v => located (.key key) (writer options field fresh v)) ::
      fieldWriters options rest

def variantWriters (options : WriteOptions) :
    List (String × Option Schema) → List (String × Payload (Conversion Fault))
  | [] => []
  | (kind, none) :: rest => (kind, .none) :: variantWriters options rest
  | (kind, some (.object fields)) :: rest =>
    (kind, .spread (fieldWriters options fields)) :: variantWriters options rest
  | (kind, some payload) :: rest =>
    (kind, .held (writer options payload)) :: variantWriters options rest

end

def write (options : WriteOptions) (schema : Schema) (input : Value) : Except Fault Value :=
  schema.writer options input.freshOrigin input

end WireSchema.Schema
