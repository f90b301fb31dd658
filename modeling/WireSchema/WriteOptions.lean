import WireSchema.Json.Document

/-!
The options of writing, and how they are read from a document: an object with the names of the
options, or a list of them in order. An option that is not given is off.
-/

set_option autoImplicit false

namespace WireSchema

open WireSchema.Json (Node Member Ending DocumentFault withinKey withinIndex nameFault surplusAt
  descend)

structure WriteOptions where
  /-- Numbers that are not finite stay numbers instead of becoming text. -/
  numberPassthrough : Bool
  /-- Dates and times stay as they are instead of becoming text. -/
  dateTimePassthrough : Bool
  /-- An unknown variant of a choice yields nothing instead of a fault. -/
  choiceFallthrough : Bool
  /-- Generated programs copy a container only when something in it changes. -/
  cow : Bool
deriving DecidableEq

namespace WriteOptions

def off : WriteOptions := ⟨false, false, false, false⟩

def merge (a b : WriteOptions) : WriteOptions where
  numberPassthrough := a.numberPassthrough || b.numberPassthrough
  dateTimePassthrough := a.dateTimePassthrough || b.dateTimePassthrough
  choiceFallthrough := a.choiceFallthrough || b.choiceFallthrough
  cow := a.cow || b.cow

def describe (options : WriteOptions) : Json :=
  .object [("numberPassthrough", .bool options.numberPassthrough),
    ("dateTimePassthrough", .bool options.dateTimePassthrough),
    ("choiceFallthrough", .bool options.choiceFallthrough), ("cow", .bool options.cow)]

def names : List String :=
  ["numberPassthrough", "dateTimePassthrough", "choiceFallthrough", "cow"]

def ofOn (on : List String) : WriteOptions where
  numberPassthrough := on.contains "numberPassthrough"
  dateTimePassthrough := on.contains "dateTimePassthrough"
  choiceFallthrough := on.contains "choiceFallthrough"
  cow := on.contains "cow"

def readSwitch (node : Node) (depth : Nat) : Except DocumentFault Bool :=
  let expected := "a boolean"
  match node with
  | .scalar _ _ (.bool b) => .ok b
  | .scalar _ finish value => .error (.placed (.invalidType value.described expected) finish)
  | .list start _ _ => .error (.placed (.invalidType "sequence" expected) start)
  | .object start _ _ => .error (.placed (.invalidType "map" expected) start)
  | other => (other.read depth).map fun _ => false

/-- The names of the options that are on among members. `seen` holds the options met before. -/
def readMembers (ending : Ending) (depth : Nat) :
    List String → List (Member × Node) → Except DocumentFault (List String)
  | _, [] =>
    match ending with
    | .closed _ => .ok []
    | .cut problem => nameFault problem
  | seen, (member, value) :: rest =>
    match member.name with
    | .error problem => nameFault problem
    | .ok name =>
      if seen.contains name then
        .error (.placed (.duplicateField name) member.afterName)
      else
        match value with
        | .withheld problem => .error problem.fault
        | value =>
          if names.contains name then do
            let b ← withinKey name (readSwitch value depth)
            let more ← readMembers ending depth (name :: seen) rest
            return if b then name :: more else more
          else do
            withinKey name value.pass
            readMembers ending depth seen rest

def readItems (ending : Ending) (depth : Nat) :
    Nat → List String → List Node → Except DocumentFault (List String)
  | _, more, [] =>
    match ending with
    | .closed _ => .ok []
    | .cut problem => .error (if more.isEmpty then problem.surplus else problem).fault
  | _, [], item :: _ => surplusAt item.start
  | i, name :: more, item :: rest => do
    let b ← withinIndex i (readSwitch item depth)
    let on ← readItems ending depth (i + 1) more rest
    return if b then name :: on else on

def ofNode (node : Node) (depth : Nat) : Except DocumentFault WriteOptions :=
  let expected := "struct SerializeOptions"
  match node with
  | .object start members ending => do
    let depth ← descend depth start
    (readMembers ending depth [] members).map ofOn
  | .list start items ending => do
    let depth ← descend depth start
    (readItems ending depth 0 names items).map ofOn
  | .scalar _ finish value => .error (.placed (.invalidType value.described expected) finish)
  | other => (other.read depth).map fun _ => off

def ofText (text : String) : Except DocumentFault WriteOptions :=
  ofNode (Json.readText text.toList).node Json.depthLimit

end WriteOptions

end WireSchema
