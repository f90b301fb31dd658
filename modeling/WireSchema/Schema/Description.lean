import WireSchema.Schema.Basic
import WireSchema.Json.Document

/-!
Schema descriptions: `kind` names the kind, `spec` holds the parts. In an object the two may come in
either order, and the kind may also be written as an object whose one member is named for it and
holds nothing. A description may also be a list of the two, and there the kind may be given by
its number. A payload of `null` is no payload.
-/

set_option autoImplicit false

namespace WireSchema.Schema

open WireSchema.Json (DocumentCause)

mutual

def describe : Schema → Json
  | .leaf l => .object [("kind", .string l.name)]
  | .option inner => .object [("kind", .string "option"), ("spec", describe inner)]
  | .array item => .object [("kind", .string "array"), ("spec", describe item)]
  | .tuple elems => .object [("kind", .string "tuple"), ("spec", .array (describeElems elems))]
  | .object fields =>
    .object [("kind", .string "object"), ("spec", .object (describeFields fields))]
  | .choice variants =>
    .object [("kind", .string "choice"), ("spec", .object (describeVariants variants))]

def describeElems : List Schema → List Json
  | [] => []
  | elem :: rest => describe elem :: describeElems rest

def describeFields : List (String × Schema) → List (String × Json)
  | [] => []
  | (name, field) :: rest => (name, describe field) :: describeFields rest

def describeVariants : List (String × Option Schema) → List (String × Json)
  | [] => []
  | (name, none) :: rest => (name, .null) :: describeVariants rest
  | (name, some payload) :: rest => (name, describe payload) :: describeVariants rest

end

def expectedDescription : String := "adjacently tagged enum Schema"

def expectedNoParts (l : Leaf) : String :=
  "unit variant Schema::" ++
    match l with
    | .bool => "Bool"
    | .string => "String"
    | .int => "Int"
    | .u32 => "U32"
    | .i32 => "I32"
    | .json => "Json"
    | .number => "Number"
    | .bigint => "BigInt"
    | .u64 => "U64"
    | .i64 => "I64"
    | .date => "Date"
    | .temporal kind => kind.constantName

def kindNames : List String := Kind.all.map Kind.name

def kindNamed (name : String) : Except DocumentCause Kind :=
  match Kind.ofName? name with
  | some kind => .ok kind
  | none => .error (.unknownVariant name kindNames)

def described : Json → String
  | .null => (Json.Scalar.null).described
  | .bool b => (Json.Scalar.bool b).described
  | .integer n => (Json.Scalar.integer n).described
  | .double x => (Json.Scalar.double x).described
  | .string s => (Json.Scalar.string s).described
  | .array _ => "sequence"
  | .object _ => "map"

def kindOfScalar : Json → Except DocumentCause Kind
  | .string name => kindNamed name
  | other => .error (.invalidType (described other) "string or map")

def expectedNumber : String := "variant index 0 <= i < " ++ Text.decimal Kind.all.length

def kindOrNumber : Json → Except DocumentCause Kind
  | .string name => kindNamed name
  | .integer (.ofNat n) =>
    match Kind.all[n]? with
    | some kind => .ok kind
    | none => .error (.invalidValue (described (.integer n)) expectedNumber)
  | other => .error (.invalidType (described other) "variant identifier")

def leafParts (json : Json) (l : Leaf) : Except DocumentCause Schema :=
  match json with
  | .null => .ok (.leaf l)
  | other => .error (.invalidType (described other) (expectedNoParts l))

def scalarPayload : Json → Except DocumentCause (Option Schema)
  | .null => .ok none
  | other => .error (.invalidType (described other) expectedDescription)

/-- How much of a description has been seen. The parts wait for their kind. -/
inductive Progress where
  | nothing
  | kind (kind : Kind)
  | parts (parts : Kind → Except DocumentCause Schema)
  | both (schema : Schema)

def ofKindAlone : Kind → Except DocumentCause Schema
  | .leaf l => .ok (.leaf l)
  | _ => .error (.missingField "spec")

def Progress.finish : Progress → Except DocumentCause Schema
  | .nothing => .error (.missingField "kind")
  | .kind k => ofKindAlone k
  | .parts _ => .error (.missingField "kind")
  | .both schema => .ok schema

/-- What a tree means as a kind, as a description, as the parts of a given kind, and as a payload,
which may be missing. -/
structure Reading where
  shown : String
  /-- Whether it stands for nothing, as `null` and the empty object do. -/
  isNothing : Bool
  kind : Except DocumentCause Kind
  /-- The kind that it is as the first item of a list. -/
  firstItem : Except DocumentCause Kind
  description : Except DocumentCause Schema
  parts : Kind → Except DocumentCause Schema
  payload : Except DocumentCause (Option Schema)

def Reading.ofScalar (json : Json) : Reading where
  shown := described json
  isNothing :=
    match json with
    | .null => true
    | _ => false
  kind := kindOfScalar json
  firstItem := kindOrNumber json
  description := .error (.invalidType (described json) expectedDescription)
  parts
    | .leaf l => leafParts json l
    | .option | .array => .error (.invalidType (described json) expectedDescription)
    | .tuple => .error (.invalidType (described json) "a sequence")
    | .object | .choice => .error (.invalidType (described json) "a map")
  payload := scalarPayload json

def fieldsOf : List (String × Reading) → Except DocumentCause (List (String × Schema))
  | [] => .ok []
  | (name, reading) :: rest => do
    let schema ← reading.description
    let more ← fieldsOf rest
    return (name, schema) :: more

def variantsOf : List (String × Reading) → Except DocumentCause (List (String × Option Schema))
  | [] => .ok []
  | (name, reading) :: rest => do
    let payload ← reading.payload
    let more ← variantsOf rest
    return (name, payload) :: more

def elemsOf : List Reading → Except DocumentCause (List Schema)
  | [] => .ok []
  | reading :: rest => do
    let schema ← reading.description
    let more ← elemsOf rest
    return schema :: more

def memberDescription : Progress → List (String × Reading) → Except DocumentCause Schema
  | progress, [] => progress.finish
  | progress, (name, reading) :: rest =>
    if name = "kind" then
      match progress with
      | .nothing => do
        let kind ← reading.kind
        memberDescription (.kind kind) rest
      | .parts parts => do
        let kind ← reading.kind
        let schema ← parts kind
        memberDescription (.both schema) rest
      | _ => .error (.duplicateField "kind")
    else if name = "spec" then
      match progress with
      | .nothing => memberDescription (.parts reading.parts) rest
      | .kind k => do
        let schema ← reading.parts k
        memberDescription (.both schema) rest
      | _ => .error (.duplicateField "spec")
    else memberDescription progress rest

def Reading.ofMembers (members : List (String × Reading)) : Reading :=
  let description := memberDescription .nothing members
  { shown := "map"
    isNothing := members.isEmpty
    kind :=
      match members with
      | [(name, content)] => do
        let kind ← kindNamed name
        if content.isNothing then return kind
        else .error (.invalidType content.shown "unit")
      | _ => .error (.invalidValue "map" "map with a single key")
    firstItem := .error (.invalidType "map" "variant identifier")
    description := description
    parts
      | .leaf l => .error (.invalidType "map" (expectedNoParts l))
      | .option => description.map .option
      | .array => description.map .array
      | .tuple => .error (.invalidType "map" "a sequence")
      | .object => (fieldsOf members).map ofFields
      | .choice => (variantsOf members).map ofVariants
    payload := description.map some }

/-- What a list says as a description: its kind and its parts, and nothing more. -/
def itemDescription : List Reading → Except DocumentCause Schema
  | [] => .error (.invalidLength 0 expectedDescription)
  | [first] => do
    let _ ← first.firstItem
    .error (.invalidLength 1 expectedDescription)
  | first :: second :: rest => do
    let kind ← first.firstItem
    let schema ← second.parts kind
    if rest.isEmpty then return schema
    else .error (.invalidLength (rest.length + 2) "2 elements in sequence")

def Reading.ofItems (items : List Reading) : Reading :=
  let description := itemDescription items
  { shown := "sequence"
    isNothing := false
    kind := .error (.invalidType "sequence" "string or map")
    firstItem := .error (.invalidType "sequence" "variant identifier")
    description := description
    parts
      | .leaf l => .error (.invalidType "sequence" (expectedNoParts l))
      | .option => description.map .option
      | .array => description.map .array
      | .tuple => (elemsOf items).map .tuple
      | .object | .choice => .error (.invalidType "sequence" "a map")
    payload := description.map some }

mutual

def reading : Json → Reading
  | .array items => .ofItems (itemReadings items)
  | .object members => .ofMembers (memberReadings members)
  | scalar => .ofScalar scalar

def itemReadings : List Json → List Reading
  | [] => []
  | item :: rest => reading item :: itemReadings rest

def memberReadings : List (String × Json) → List (String × Reading)
  | [] => []
  | (name, value) :: rest => (name, reading value) :: memberReadings rest

end

def ofJson (json : Json) : Except DocumentCause Schema :=
  (reading json).description

end WireSchema.Schema
