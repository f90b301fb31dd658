import WireSchema.Fault
import WireSchema.Generated.Program
import WireSchema.Schema.Basic

/-!
Code that reads values under a schema, everything checked. Objects and choices have no such code;
what was added to the program before one is met stays in it.
-/

set_option autoImplicit false

namespace WireSchema.Generated

namespace Program

def leafReader (l : Leaf) (program : Program) : Code × Program :=
  match l with
  | .bool => program.calling .parseBoolean
  | .string => program.calling .parseString
  | .int => program.calling .parseInteger
  | .u32 => program.calling .parseU32
  | .i32 => program.calling .parseI32
  | .json => (.identity, program)
  | .number => program.calling .parseNumber
  | .bigint => program.calling .parseBigint
  | .u64 => program.calling .parseU64
  | .i64 => program.calling .parseI64
  | .date => program.calling .parseDate
  | .temporal kind =>
    (.parseTemporal kind,
      (program.importing rootPath "TemporalKind").importing temporalPath "parse_temporal")

def eachReader (item : Code) (program : Program) : Code × Program :=
  let (whole, program) := program.calling .parseArray
  if item.isIdentity then (whole, program)
  else (.eachChecked item, program.importing cowPath "map_cow")

def positionsReader (codes : List Code) (program : Program) : Code × Program :=
  (.positionsChecked codes,
    (program.importing rootPath "Value").importing jsonPath "parse_length")

mutual

def reader : Schema → Program → Except Fault Code × Program
  | .leaf l, program =>
    let (code, program) := program.leafReader l
    (.ok code, program)
  | .option inner, program =>
    match reader inner program with
    | (.ok inner, program) =>
      let (code, program) := program.optional inner
      (.ok code, program)
    | (.error fault, program) => (.error fault, program)
  | .array item, program =>
    match reader item program with
    | (.ok item, program) =>
      let (code, program) := program.eachReader item
      (.ok code, program)
    | (.error fault, program) => (.error fault, program)
  | .tuple elems, program =>
    match elemReaders elems program with
    | (.ok codes, program) =>
      let (code, program) := program.positionsReader codes
      (.ok code, program)
    | (.error fault, program) => (.error fault, program)
  | .object _, program =>
    (.error (.of (.notImplemented "compiling object deserializers")), program)
  | .choice _, program => (.error (.of (.unsupportedKind .choice)), program)

def elemReaders : List Schema → Program → Except Fault (List Code) × Program
  | [], program => (.ok [], program)
  | elem :: rest, program =>
    match reader elem program with
    | (.ok code, program) =>
      match elemReaders rest program with
      | (.ok codes, program) => (.ok (code :: codes), program)
      | (.error fault, program) => (.error fault, program)
    | (.error fault, program) => (.error fault, program)

end

end Program

end WireSchema.Generated
