import WireSchema.Generated.Program
import WireSchema.Schema.Basic
import WireSchema.WriteOptions

/-!
Code that writes values under a schema. What nothing has to be done for is left out: a container
whose parts are all left alone is left alone too.
-/

set_option autoImplicit false

namespace WireSchema.Generated

namespace Program

def leafWriter (options : WriteOptions) (l : Leaf) (program : Program) : Code × Program :=
  match l with
  | .bool | .string | .int | .u32 | .i32 | .json => (.identity, program)
  | .number =>
    if options.numberPassthrough then (.identity, program) else program.calling .serializeNumber
  | .bigint | .u64 | .i64 => (.bigintText, program.importing rootPath "Value")
  | .date =>
    if options.dateTimePassthrough then (.identity, program)
    else
      (.dateText, (program.importing rootPath "Value").importing datePath "to_iso_string")
  | .temporal kind =>
    if options.dateTimePassthrough then (.identity, program)
    else
      (.temporalText kind,
        (program.importing rootPath "Value").importing rootPath "TemporalKind")

def eachWriter (sparing : Bool) (item : Code) (program : Program) : Code × Program :=
  if item.isIdentity then (.identity, program)
  else
    (.each sparing item,
      program.importing cowPath (if sparing then "map_cow" else "map_array"))

def positionsWriter (codes : List Code) (program : Program) : Code × Program :=
  if codes.all Code.isIdentity then (.identity, program)
  else
    (.positions codes, (program.importing rootPath "Value").importing jsonPath "parse_length")

def objectWriter (sparing : Bool) (fields : List (String × Code)) (program : Program) :
    Code × Program :=
  let changed := fields.filter fun field => !field.2.isIdentity
  if changed.isEmpty then (.identity, program)
  else if sparing then
    let program := (program.importing cowPath "set_cow_property").importing cowPath "finish_cow"
    let (index, program) := program.define (.sparing changed)
    (.helper index, program)
  else
    let program := ((program.importing rootPath "Value").importing accessPath
      "shallow_copy").importing accessPath "map_field"
    let (index, program) := program.define (.copying changed)
    (.helper index, program)

/-- What a choice does with a variant, given whether the payload is spread and the code for it. -/
def armOf (spread : Bool) (code : Code) : Arm :=
  if code.isIdentity then .keep else if spread then .whole code else .payload code

def importingArms : List (String × Arm) → Program → Program
  | [], program => program
  | (_, .payload _) :: rest, program =>
    importingArms rest (program.importing accessPath "map_payload")
  | _ :: rest, program => importingArms rest program

def choiceWriter (lenient : Bool) (arms : List (String × Arm)) (program : Program) :
    Code × Program :=
  let idle := arms.all fun arm =>
    match arm.2 with
    | .keep => true
    | _ => false
  if idle then (.identity, program)
  else
    let program := importingArms arms (program.importing accessPath "discriminant")
    let program := program.importing rootPath (if lenient then "Value" else "Error")
    let (index, program) := program.define (.dispatch arms lenient)
    (.helper index, program)

mutual

def writer (options : WriteOptions) : Schema → Program → Code × Program
  | .leaf l, program => program.leafWriter options l
  | .option inner, program =>
    let (inner, program) := writer options inner program
    program.optional inner
  | .array item, program =>
    let (code, program) := writer options item program
    program.eachWriter (options.cow && !item.alwaysCopies) code
  | .tuple elems, program =>
    let (codes, program) := elemWriters options elems program
    program.positionsWriter codes
  | .object fields, program =>
    let (codes, program) := fieldWriters options fields program
    program.objectWriter (options.cow && !Schema.allFieldsCopy fields) codes
  | .choice variants, program =>
    let (arms, program) := variantWriters options variants program
    program.choiceWriter options.choiceFallthrough arms

def elemWriters (options : WriteOptions) : List Schema → Program → List Code × Program
  | [], program => ([], program)
  | elem :: rest, program =>
    let (code, program) := writer options elem program
    let (codes, program) := elemWriters options rest program
    (code :: codes, program)

def fieldWriters (options : WriteOptions) :
    List (String × Schema) → Program → List (String × Code) × Program
  | [], program => ([], program)
  | (key, field) :: rest, program =>
    let (code, program) := writer options field program
    let (codes, program) := fieldWriters options rest program
    ((key, code) :: codes, program)

def variantWriters (options : WriteOptions) :
    List (String × Option Schema) → Program → List (String × Arm) × Program
  | [], program => ([], program)
  | (kind, none) :: rest, program =>
    let (arms, program) := variantWriters options rest program
    ((kind, .keep) :: arms, program)
  | (kind, some payload) :: rest, program =>
    let (code, program) := writer options payload program
    let (arms, program) := variantWriters options rest program
    ((kind, armOf (payload.kind = .object) code) :: arms, program)

end

end Program

end WireSchema.Generated
