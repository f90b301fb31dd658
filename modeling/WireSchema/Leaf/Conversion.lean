import WireSchema.Leaf.BigInteger
import WireSchema.Leaf.Shape
import WireSchema.Leaf.Time
import WireSchema.WriteOptions

/-!
How the values of each leaf schema are read, trusted and written. A conversion is told where what it
makes comes into being.
-/

set_option autoImplicit false

namespace WireSchema

abbrev Conversion (ε : Type) := Origin → Value → Except ε Value

namespace Leaf

def read (l : Leaf) (origin : Origin) (v : Value) : Except Fault Value :=
  match l with
  | .bool => readBool v
  | .string => readString v
  | .int => readInteger safeIntegers v
  | .u32 => readInteger natural32 v
  | .i32 => readInteger signed32 v
  | .json => .ok v
  | .number => readNumber v
  | .bigint => readBigint origin v
  | .u64 => readBigintIn natural64 origin v
  | .i64 => readBigintIn signed64 origin v
  | .date => readDate v
  | .temporal kind => readTemporal kind v

/-- From the wire, without any check; what cannot be converted is handed back. -/
def trust (l : Leaf) (origin : Origin) (v : Value) : Value :=
  match l with
  | .bool | .string | .int | .u32 | .i32 | .json => v
  | .number => trustNumber v
  | .bigint | .u64 | .i64 => trustBigint origin v
  | .date => trustDate v
  | .temporal kind => trustTemporal kind v

def converts (options : WriteOptions) : Leaf → Bool
  | .bool | .string | .int | .u32 | .i32 | .json => false
  | .number => !options.numberPassthrough
  | .bigint | .u64 | .i64 => true
  | .date | .temporal _ => !options.dateTimePassthrough

def write (options : WriteOptions) (l : Leaf) (v : Value) : Except Fault Value :=
  match l with
  | .bool | .string | .int | .u32 | .i32 | .json => .ok v
  | .number => if options.numberPassthrough then .ok v else writeNumber v
  | .bigint | .u64 | .i64 => writeBigint v
  | .date => if options.dateTimePassthrough then .ok v else writeDate v
  | .temporal kind => if options.dateTimePassthrough then .ok v else writeTemporal kind v

end Leaf

end WireSchema
