import WireSchema.Convert.Containers
import WireSchema.Generated.Program

/-!
What generated code does when it runs. An expression is a conversion, given those of the helpers; a
helper may call those before it.
-/

set_option autoImplicit false

namespace WireSchema.Generated

open WireSchema.Convert (convertEach)
open WireSchema.Update (valueKey discriminant)

def Routine.run : Routine → Conversion Fault
  | .serializeNumber => fun _ => Leaf.writeNumber
  | .parseBoolean => Leaf.read .bool
  | .parseString => Leaf.read .string
  | .parseInteger => Leaf.read .int
  | .parseU32 => Leaf.read .u32
  | .parseI32 => Leaf.read .i32
  | .parseNumber => Leaf.read .number
  | .parseBigint => Leaf.read .bigint
  | .parseU64 => Leaf.read .u64
  | .parseI64 => Leaf.read .i64
  | .parseDate => Leaf.read .date
  | .parseArray => fun _ => Leaf.readArray

def copyEach (item : Conversion Fault) : Conversion Fault := fun fresh v => do
  let (_, values) ← v.asArray
  Update.copiedItems fresh
    (fun i x => located (.index i) (item (fresh.enter (.index i)) x)) values

/-- A new array of the items converted position by position. Faults stay without a location. -/
def copyPositions (elems : List (Conversion Fault)) : Conversion Fault := fun fresh v => do
  let values ← Leaf.readItems elems.length v
  Update.copiedItems fresh
    (fun i x =>
      match elems[i]? with
      | some elem => elem (fresh.enter (.index i)) x
      | none => .ok x)
    values

namespace Code

mutual

def run (helpers : Nat → Conversion Fault) : Code → Conversion Fault
  | .identity => fun _ v => .ok v
  | .helper index => helpers index
  | .routine r => r.run
  | .bigintText => fun _ => Leaf.writeBigint
  | .dateText => fun _ => Leaf.writeDate
  | .temporalText kind => fun _ => Leaf.writeTemporal kind
  | .parseTemporal kind => fun _ => Leaf.readTemporal kind
  | .whenPresent inner => fun fresh v =>
    if v.isAbsent then .ok .absent else run helpers inner fresh v
  | .each sparing item =>
    if sparing then convertEach (run helpers item) else copyEach (run helpers item)
  | .eachChecked item => fun fresh v => do
    let v ← Leaf.readArray v
    convertEach (run helpers item) fresh v
  | .positions codes => copyPositions (runs helpers codes)
  | .positionsChecked codes => copyPositions (runs helpers codes)

def runs (helpers : Nat → Conversion Fault) : List Code → List (Conversion Fault)
  | [] => []
  | code :: rest => run helpers code :: runs helpers rest

end

end Code

/-- Conversions of properties as generated code makes them, each with its location. -/
def fieldRuns (helpers : Nat → Conversion Fault) (fresh : Origin)
    (fields : List (String × Code)) : List (String × (Value → Except Fault Value)) :=
  fields.map fun (key, code) =>
    (key, fun v => located (.key key) (code.run helpers (fresh.enter (.key key)) v))

/-- The conversion that a helper makes. One of which only the text is known makes none. -/
def Body.run (helpers : Nat → Conversion Fault) : Body → Conversion Fault
  | .text _ => fun _ _ => .error (.of (.notImplemented "a helper of which only the text is known"))
  | .copying fields => fun fresh v => do
    let (_, entries) ← v.asObject
    let entries ← Update.copiedProperties (fieldRuns helpers fresh fields) entries
    return .object fresh entries
  | .sparing fields => fun fresh v => do
    let (_, entries) ← v.asObject
    let copy ← Update.changedProperties entries (fieldRuns helpers fresh fields) none
    return Update.finish fresh v copy
  | .dispatch arms lenient => fun fresh v => do
    let kind ← discriminant v
    match Entries.get? kind arms with
    | none =>
      if lenient then return .absent else .error (.of (.unknownVariant kind))
    | some .keep => return v
    | some (.whole code) => code.run helpers fresh v
    | some (.payload code) =>
      Update.mappedPayload fresh kind
        (fun x => located (.key valueKey) (code.run helpers (fresh.enter (.key valueKey)) x)) v

def lookup (runs : List (Conversion Fault)) (index : Nat) : Conversion Fault :=
  runs[index]?.getD fun _ _ => .error (.of (.notImplemented "a helper that is not defined"))

/-- The conversions of helpers, each of which may call those before it. -/
def helperRuns (helpers : List Body) : List (Conversion Fault) :=
  helpers.foldl (fun runs body => runs ++ [body.run (lookup runs)]) []

def Program.run (program : Program) (code : Code) : Conversion Fault :=
  code.run (lookup (helperRuns program.helpers))

end WireSchema.Generated
