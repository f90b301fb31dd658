/-!
The kinds of schema, by name: nineteen leaves, eight of them for dates and times, and five
compounds.
-/

set_option autoImplicit false

namespace WireSchema

inductive TemporalKind where
  | duration
  | instant
  | plainDateTime
  | plainDate
  | plainMonthDay
  | plainTime
  | plainYearMonth
  | zonedDateTime
deriving DecidableEq

namespace TemporalKind

def name : TemporalKind → String
  | .duration => "duration"
  | .instant => "instant"
  | .plainDateTime => "plainDateTime"
  | .plainDate => "plainDate"
  | .plainMonthDay => "plainMonthDay"
  | .plainTime => "plainTime"
  | .plainYearMonth => "plainYearMonth"
  | .zonedDateTime => "zonedDateTime"

def constantName : TemporalKind → String
  | .duration => "Duration"
  | .instant => "Instant"
  | .plainDateTime => "PlainDateTime"
  | .plainDate => "PlainDate"
  | .plainMonthDay => "PlainMonthDay"
  | .plainTime => "PlainTime"
  | .plainYearMonth => "PlainYearMonth"
  | .zonedDateTime => "ZonedDateTime"

end TemporalKind

/-- The kinds of schema without parts. `int` is a safe integer, of at most 53 bits; `json` lets
everything through. -/
inductive Leaf where
  | bool
  | string
  | int
  | u32
  | i32
  | json
  | number
  | bigint
  | u64
  | i64
  | date
  | temporal (kind : TemporalKind)
deriving DecidableEq

def Leaf.name : Leaf → String
  | .bool => "bool"
  | .string => "string"
  | .int => "int"
  | .u32 => "u32"
  | .i32 => "i32"
  | .json => "json"
  | .number => "number"
  | .bigint => "bigint"
  | .u64 => "u64"
  | .i64 => "i64"
  | .date => "date"
  | .temporal kind => kind.name

inductive Kind where
  | leaf (leaf : Leaf)
  | option
  | array
  | tuple
  | object
  | choice
deriving DecidableEq

namespace Kind

def name : Kind → String
  | .leaf l => l.name
  | .option => "option"
  | .array => "array"
  | .tuple => "tuple"
  | .object => "object"
  | .choice => "choice"

def all : List Kind :=
  [.leaf .bool, .leaf .string, .leaf .int, .leaf .u32, .leaf .i32, .leaf .json, .leaf .number,
    .leaf .bigint, .leaf .u64, .leaf .i64, .leaf .date, .leaf (.temporal .duration),
    .leaf (.temporal .instant), .leaf (.temporal .plainDateTime), .leaf (.temporal .plainDate),
    .leaf (.temporal .plainMonthDay), .leaf (.temporal .plainTime),
    .leaf (.temporal .plainYearMonth), .leaf (.temporal .zonedDateTime), .option, .array, .tuple,
    .object, .choice]

def ofName? (name : String) : Option Kind :=
  all.find? fun kind => kind.name = name

end Kind

end WireSchema
