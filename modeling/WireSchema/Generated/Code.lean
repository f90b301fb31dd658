import WireSchema.Generated.Fragment
import WireSchema.Schema.Kind
import WireSchema.Text.Digits
import WireSchema.Text.Quoted

/-!
Generated code as trees, and its text. An expression transforms one input; a body is that of a
helper function, whose input is named `input`.
-/

set_option autoImplicit false

namespace WireSchema.Generated

open WireSchema.Text

/-- The functions of the runtime that generated code calls by name on one input. -/
inductive Routine where
  | serializeNumber
  | parseBoolean
  | parseString
  | parseInteger
  | parseU32
  | parseI32
  | parseNumber
  | parseBigint
  | parseU64
  | parseI64
  | parseDate
  | parseArray
deriving DecidableEq

def Routine.name : Routine → String
  | .serializeNumber => "serialize_number"
  | .parseBoolean => "parse_boolean"
  | .parseString => "parse_string"
  | .parseInteger => "parse_integer"
  | .parseU32 => "parse_u32"
  | .parseI32 => "parse_i32"
  | .parseNumber => "parse_number"
  | .parseBigint => "parse_bigint"
  | .parseU64 => "parse_u64"
  | .parseI64 => "parse_i64"
  | .parseDate => "parse_date"
  | .parseArray => "parse_array"

inductive Code where
  | identity
  | helper (index : Nat)
  | routine (routine : Routine)
  | bigintText
  | dateText
  | temporalText (kind : TemporalKind)
  | parseTemporal (kind : TemporalKind)
  /-- Applied unless the input is absent. -/
  | whenPresent (inner : Code)
  /-- Applied to every item of an array, which is copied only on a change if `sparing`. -/
  | each (sparing : Bool) (item : Code)
  /-- Applied to every item of what must be an array. -/
  | eachChecked (item : Code)
  /-- Applied position by position to an array of as many items, as an expression. -/
  | positions (codes : List Code)
  /-- Applied position by position to an array of as many items, as a function in place. -/
  | positionsChecked (codes : List Code)

def helperName (index : Nat) : String :=
  "serialize_" ++ decimal index

def signature : String :=
  "(input: ::typekind::Value) -> ::typekind::Result<::typekind::Value>"

def kindConstant (kind : TemporalKind) : String :=
  "TemporalKind::" ++ kind.constantName

def itemExpr (i : Nat) : String :=
  "items[" ++ decimal i ++ "].clone()"

namespace Code

def isIdentity : Code → Bool
  | .identity => true
  | _ => false

mutual

def fragment : Code → Fragment
  | .identity => .identity
  | .helper index => .defined (helperName index)
  | .routine r => .imported r.name
  | .bigintText => .template "Value::from($input.as_bigint()?.to_string())"
  | .dateText => .template "Value::from(to_iso_string($input.as_date()?))"
  | .temporalText kind =>
    .template ("Value::from($input.as_temporal(" ++ kindConstant kind ++ ")?.to_string())")
  | .parseTemporal kind => .template ("parse_temporal(" ++ kindConstant kind ++ ", $input)?")
  | .whenPresent inner =>
    .template ("match $input \x7b Value::Absent => Value::Absent, value => " ++
      (fragment inner).resolve "value" ++ " \x7d")
  | .each sparing item =>
    .template ((if sparing then "map_cow" else "map_array") ++ "($input, |item| Ok(" ++
      (fragment item).resolve "item" ++ "))?")
  | .eachChecked item =>
    .template ("map_cow(parse_array($input)?, |item| Ok(" ++
      (fragment item).resolve "item" ++ "))?")
  | .positions codes =>
    .template ("\x7b let items = parse_length($input, " ++ decimal codes.length ++
      ")?; Value::array(vec![" ++ ", ".intercalate (itemExprs 0 codes) ++ "]) \x7d")
  | .positionsChecked codes =>
    .inlined ("|input: ::typekind::Value| -> ::typekind::Result<::typekind::Value> \x7b " ++
      "let items = parse_length(input, " ++ decimal codes.length ++
      ")?; Ok(Value::array(vec![" ++ ", ".intercalate (itemExprs 0 codes) ++ "])) \x7d")

def itemExprs : Nat → List Code → List String
  | _, [] => []
  | i, code :: rest => (fragment code).resolve (itemExpr i) :: itemExprs (i + 1) rest

end

def applied (arg : String) (code : Code) : String :=
  code.fragment.resolve arg

end Code

inductive Arm where
  | keep
  /-- The whole object is transformed. -/
  | whole (code : Code)
  /-- The payload held by a property of its own is transformed. -/
  | payload (code : Code)

def Arm.text : Arm → String
  | .keep => "Ok(input)"
  | .whole code => "Ok(" ++ code.applied "input" ++ ")"
  | .payload code => "map_payload(input, &kind, |value| Ok(" ++ code.applied "value" ++ "))"

inductive Body where
  /-- A body of which nothing but the text is known. -/
  | text (content : String)
  /-- Properties of a copy are transformed. -/
  | copying (fields : List (String × Code))
  /-- Properties are transformed, and a copy is made at the first change. -/
  | sparing (fields : List (String × Code))
  /-- A choice by variant; an unknown one yields nothing if `lenient`, else a fault. -/
  | dispatch (arms : List (String × Arm)) (lenient : Bool)

namespace Body

def copyingLine (field : String × Code) : String :=
  "map_field(&mut copy, " ++ quoted field.1 ++ ", |value| Ok(" ++ field.2.applied "value" ++ "))?;"

def sparingLine (field : String × Code) : String :=
  "set_cow_property(source, &mut output, " ++ quoted field.1 ++ ", |value| Ok(" ++
    field.2.applied "value" ++ "))?;"

def armLine (arm : String × Arm) : String :=
  quoted arm.1 ++ " => " ++ arm.2.text ++ ","

def otherLine (lenient : Bool) : String :=
  if lenient then "_ => Ok(Value::Absent),"
  else "other => Err(Error::UnknownVariant(other.to_owned())),"

def render : Body → String
  | .text content => content
  | .copying fields =>
    "\n".intercalate ("let mut copy = shallow_copy(&input)?;" ::
      fields.map copyingLine ++ ["Ok(Value::object(copy))"])
  | .sparing fields =>
    "\n".intercalate ("let source = input.as_object()?;" :: "let mut output = None;" ::
      fields.map sparingLine ++ ["Ok(finish_cow(input, output))"])
  | .dispatch arms lenient =>
    "let kind = discriminant(&input)?;\nmatch kind.as_str() \x7b\n" ++
      indent ("\n".intercalate (arms.map armLine ++ [otherLine lenient])) ++ "\n\x7d"

end Body

end WireSchema.Generated
