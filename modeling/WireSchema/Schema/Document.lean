import WireSchema.Schema.Description

/-!
Schema descriptions read from a text. What cannot be read is reported with its path and place, in
the order of the text: a wrong kind before a syntax error that follows it. Parts that stand
before their kind are kept until the kind is known; what is wrong with them is then reported at
the description. Only such parts may hold kinds given by their numbers.
-/

set_option autoImplicit false

namespace WireSchema.Schema

open WireSchema.Json (Node Member Mark Ending Problem DocumentCause DocumentFault DocumentStep
  SyntaxCause descend withinKey withinIndex nameFault surplusAt)

def placing {α : Type} (mark : Mark) : Except DocumentCause α → Except DocumentFault α
  | .ok a => .ok a
  | .error cause => .error (.placed cause mark)

/-- The fault of something that can be nothing of what is asked for, seen at its first byte. -/
def unexpectedAt {α : Type} (start : Mark) : Except DocumentFault α :=
  .error (.placed (.badSyntax .expectedValue) ⟨start.line, start.column + 1⟩)

/-- What a value in a text means as a kind, as a description, as the parts of a given kind, and as a
payload, at a depth that is left. -/
structure PlacedReading where
  start : Mark
  /-- The same, but past a comma and the blanks after it if there is a comma instead of a value. -/
  pastComma : Mark
  kind : Nat → Except DocumentFault Kind
  /-- The kind that the value is as the first item of a list. -/
  firstItem : Except DocumentFault Kind
  description : Nat → Except DocumentFault Schema
  parts : Kind → Nat → Except DocumentFault Schema
  payload : Nat → Except DocumentFault (Option Schema)

namespace PlacedReading

/-- A value that cannot be read; as a kind it is looked at only if it is a string. -/
def failing (start pastComma : Mark) (isString : Bool) (problem : Problem) : PlacedReading where
  start := start
  pastComma := pastComma
  kind _ := if isString then .error problem.fault else unexpectedAt start
  firstItem := .error problem.fault
  description _ := .error problem.fault
  parts _ _ := .error problem.fault
  payload _ := .error problem.fault

def ofScalar (start finish : Mark) (value : Json.Scalar) : PlacedReading :=
  let reading := Reading.ofScalar value.json
  { start := start
    pastComma := start
    kind _ :=
      match value with
      | .string name => placing finish (kindNamed name)
      | _ => unexpectedAt start
    firstItem := placing finish
      (match value with
      | .string name => kindNamed name
      | other => .error (.invalidType other.described "variant identifier"))
    description _ := placing finish reading.description
    parts kind _ := placing finish (reading.parts kind)
    payload _ := placing finish reading.payload }

/-- The place where a list or object stops being looked at when nothing in it is wanted: at its
first part, or past its bracket if it is empty. -/
def innerMark (first : Option Mark) : Ending → Mark
  | .closed finish => first.getD finish
  | .cut problem =>
    let mark := problem.mark
    first.getD
      (if problem.cause = .keyNotString then ⟨mark.line, mark.column - 1⟩ else mark)

def endOfItems (rest : List PlacedReading) (ending : Ending) : Except DocumentFault Unit :=
  match rest, ending with
  | next :: _, _ => surplusAt next.start
  | [], .closed _ => .ok ()
  | [], .cut problem => .error problem.surplus.fault

def tooShort {α : Type} (length : Nat) : Ending → Except DocumentFault α
  | .closed finish => .error (.placed (.invalidLength length expectedDescription) finish)
  | .cut problem => .error problem.fault

def itemDescription (items : List PlacedReading) (ending : Ending) (depth : Nat) :
    Except DocumentFault Schema :=
  match items with
  | [] => tooShort 0 ending
  | [first] => do
    let _ ← withinIndex 0 first.firstItem
    tooShort 1 ending
  | first :: second :: rest => do
    let kind ← withinIndex 0 first.firstItem
    let schema ← withinIndex 1 (second.parts kind depth)
    endOfItems rest ending
    return schema

def elemsOf (ending : Ending) (depth : Nat) :
    Nat → List PlacedReading → Except DocumentFault (List Schema)
  | _, [] =>
    match ending with
    | .closed _ => .ok []
    | .cut problem => .error problem.fault
  | i, item :: rest => do
    let schema ← withinIndex i (item.description depth)
    let more ← elemsOf ending depth (i + 1) rest
    return schema :: more

def ofItems (start : Mark) (items : List PlacedReading) (ending : Ending) : PlacedReading :=
  let description depth := do
    let depth ← descend depth start
    itemDescription items ending depth
  { start := start
    pastComma := start
    kind _ := unexpectedAt start
    firstItem := .error (.placed (.invalidType "sequence" "variant identifier") start)
    description := description
    parts kind depth :=
      match kind with
      | .leaf l => do
        let _ ← descend depth start
        .error (.placed (.invalidType "sequence" (expectedNoParts l))
          (innerMark (items.head?.map (·.pastComma)) ending))
      | .option => (description depth).map .option
      | .array => (description depth).map .array
      | .tuple => do
        let depth ← descend depth start
        (elemsOf ending depth 0 items).map .tuple
      | .object | .choice => .error (.placed (.invalidType "sequence" "a map") start)
    payload depth := (description depth).map some }

structure PlacedMember where
  member : Member
  value : Node
  reading : PlacedReading

/-- The name of a member. A name that cannot be read and a missing colon are faults of the object;
the latter only once the name has been looked at. -/
def PlacedMember.name (m : PlacedMember) : Except DocumentFault String :=
  match m.member.name with
  | .ok name => .ok name
  | .error problem => nameFault problem

def PlacedMember.colon (m : PlacedMember) : Except DocumentFault Unit :=
  match m.value with
  | .withheld problem => .error problem.fault
  | _ => .ok ()

def endOfMembers {α : Type} (finish : Mark → Except DocumentFault α) :
    Ending → Except DocumentFault α
  | .closed mark => finish mark
  | .cut problem => nameFault problem

def memberDescription (ending : Ending) (depth : Nat) :
    Progress → List PlacedMember → Except DocumentFault Schema
  | progress, [] => endOfMembers (fun mark => placing mark progress.finish) ending
  | progress, m :: rest => do
    let name ← m.name
    if name = "kind" then
      match progress with
      | .nothing => do
        m.colon
        let kind ← withinKey name (m.reading.kind depth)
        memberDescription ending depth (.kind kind) rest
      | .parts parts => do
        m.colon
        let kind ← withinKey name (m.reading.kind depth)
        let schema ← placing m.member.afterValue (parts kind)
        memberDescription ending depth (.both schema) rest
      | _ => .error (.placed (.duplicateField name) m.member.afterName)
    else if name = "spec" then
      match progress with
      | .nothing => do
        m.colon
        let content ← withinKey name (m.value.read depth)
        memberDescription ending depth (.parts (Schema.reading content).parts) rest
      | .kind k => do
        m.colon
        let schema ← withinKey name (m.reading.parts k depth)
        memberDescription ending depth (.both schema) rest
      | _ => .error (.placed (.duplicateField name) m.member.afterName)
    else do
      m.colon
      withinKey name m.value.pass
      memberDescription ending depth progress rest

def fieldsOf (ending : Ending) (depth : Nat) :
    List PlacedMember → Except DocumentFault (List (String × Schema))
  | [] => endOfMembers (fun _ => .ok []) ending
  | m :: rest => do
    let name ← m.name
    m.colon
    let schema ← withinKey name (m.reading.description depth)
    let more ← fieldsOf ending depth rest
    return (name, schema) :: more

def variantsOf (ending : Ending) (depth : Nat) :
    List PlacedMember → Except DocumentFault (List (String × Option Schema))
  | [] => endOfMembers (fun _ => .ok []) ending
  | m :: rest => do
    let name ← m.name
    m.colon
    let payload ← withinKey name (m.reading.payload depth)
    let more ← variantsOf ending depth rest
    return (name, payload) :: more

/-- What an object says as a kind: its one member is named for the kind and holds nothing. -/
def memberKind (ending : Ending) (depth : Nat) : List PlacedMember → Except DocumentFault Kind
  | [] =>
    match ending with
    | .closed finish => .error (.placed (.badSyntax .keyNotString) finish)
    | .cut problem => .error problem.fault
  | m :: rest => do
    let name ←
      match m.member.name with
      | .ok name => .ok name
      | .error problem => .error problem.fault
    let kind ← placing m.member.endOfName (kindNamed name)
    m.colon
    match m.value with
    | .scalar _ finish value =>
      if value = .null then .ok ()
      else withinKey name (.error (.placed (.invalidType value.described "unit") finish))
    | .list start _ _ =>
      withinKey name (.error (.placed (.invalidType "sequence" "unit") start))
    | .object start _ _ => withinKey name (.error (.placed (.invalidType "map" "unit") start))
    | _ => withinKey name ((m.value.read depth).map fun _ => ())
    match rest, ending with
    | [], .closed _ => return kind
    | [], .cut problem =>
      if problem.cause = .endInObject then .error problem.fault
      else .error (.placed (.badSyntax .expectedValue) m.member.afterValue)
    | _, _ => .error (.placed (.badSyntax .expectedValue) m.member.afterValue)

def ofMembers (start : Mark) (members : List PlacedMember) (ending : Ending) : PlacedReading :=
  let description depth := do
    let depth ← descend depth start
    memberDescription ending depth .nothing members
  { start := start
    pastComma := start
    kind depth := do
      let depth ← descend depth start
      memberKind ending depth members
    firstItem := .error (.placed (.invalidType "map" "variant identifier") start)
    description := description
    parts kind depth :=
      match kind with
      | .leaf l => do
        let _ ← descend depth start
        .error (.placed (.invalidType "map" (expectedNoParts l))
          (innerMark (members.head?.map (·.member.start)) ending))
      | .option => (description depth).map .option
      | .array => (description depth).map .array
      | .tuple => .error (.placed (.invalidType "map" "a sequence") start)
      | .object => do
        let depth ← descend depth start
        (fieldsOf ending depth members).map ofFields
      | .choice => do
        let depth ← descend depth start
        (variantsOf ending depth members).map ofVariants
    payload depth := (description depth).map some }

mutual

def ofNode : Node → PlacedReading
  | .scalar start finish value => ofScalar start finish value
  | .flawed start _ first problem => failing start start (first == '"') problem
  | .broken start past first reading _ =>
    failing start (if first = some ',' then past else start)
      (first == some '"' || first.isNone) reading
  | .withheld problem => failing problem.mark problem.mark true problem
  | .list start items ending => ofItems start (ofNodes items) ending
  | .object start members ending => ofMembers start (ofMemberNodes members) ending

def ofNodes : List Node → List PlacedReading
  | [] => []
  | item :: rest => ofNode item :: ofNodes rest

def ofMemberNodes : List (Member × Node) → List PlacedMember
  | [] => []
  | (member, value) :: rest => ⟨member, value, ofNode value⟩ :: ofMemberNodes rest

end

end PlacedReading

/-- The schema that the first value of a text describes; what follows it is not looked at. -/
def ofText (text : String) : Except DocumentFault Schema :=
  (PlacedReading.ofNode (Json.readText text.toList).node).description Json.depthLimit

end WireSchema.Schema
