import WireSchema.Schema.Kind
import WireSchema.Entries

/-!
Schemas: descriptions of the shape of values. The field names of an object and the variant names
of a choice are distinct and in the order of their declaration.
-/

set_option autoImplicit false

namespace WireSchema

/-- The shape of a value. A variant of a choice may have a payload. -/
inductive Schema where
  | leaf (leaf : Leaf)
  | option (inner : Schema)
  | array (item : Schema)
  | tuple (elems : List Schema)
  | object (fields : List (String × Schema))
  | choice (variants : List (String × Option Schema))

namespace Schema

def kind : Schema → Kind
  | .leaf l => .leaf l
  | .option _ => .option
  | .array _ => .array
  | .tuple _ => .tuple
  | .object _ => .object
  | .choice _ => .choice

def isOption : Schema → Bool
  | .option _ => true
  | _ => false

def temporalKind? : Schema → Option TemporalKind
  | .leaf (.temporal kind) => some kind
  | _ => none

/-- An object with the given fields; of fields of one name the last counts. -/
def ofFields (fields : List (String × Schema)) : Schema :=
  .object (Entries.ofList fields)

def ofVariants (variants : List (String × Option Schema)) : Schema :=
  .choice (Entries.ofList variants)

mutual

/-- Equality up to the order of fields and of variants. -/
def equal : Schema → Schema → Bool
  | .leaf a, .leaf b => a == b
  | .option a, .option b => equal a b
  | .array a, .array b => equal a b
  | .tuple as, .tuple bs => equalElems as bs
  | .object as, .object bs => as.length == bs.length && equalFields as bs
  | .choice as, .choice bs => as.length == bs.length && equalVariants as bs
  | _, _ => false

def equalElems : List Schema → List Schema → Bool
  | [], [] => true
  | a :: as, b :: bs => equal a b && equalElems as bs
  | _, _ => false

def equalFields : List (String × Schema) → List (String × Schema) → Bool
  | [], _ => true
  | (name, a) :: as, bs =>
    (match Entries.get? name bs with
      | some b => equal a b
      | none => false) && equalFields as bs

def equalVariants :
    List (String × Option Schema) → List (String × Option Schema) → Bool
  | [], _ => true
  | (name, none) :: as, bs =>
    (match Entries.get? name bs with
      | some none => true
      | _ => false) && equalVariants as bs
  | (name, some a) :: as, bs =>
    (match Entries.get? name bs with
      | some (some b) => equal a b
      | _ => false) && equalVariants as bs

end

mutual

/-- Whether writing under the schema never hands its input back, whatever the input: all leaves
that are met become texts, and nothing on the way may be absent. -/
def alwaysCopies : Schema → Bool
  | .leaf .bool | .leaf .string | .leaf .int | .leaf .u32 | .leaf .i32 | .leaf .json
  | .leaf .number => false
  | .leaf .bigint | .leaf .u64 | .leaf .i64 | .leaf .date | .leaf (.temporal _) => true
  | .option _ => false
  | .array item => alwaysCopies item
  | .tuple elems => allElemsCopy elems
  | .object fields => allFieldsCopy fields
  | .choice variants => allVariantsCopy variants

def allElemsCopy : List Schema → Bool
  | [] => true
  | elem :: rest => alwaysCopies elem && allElemsCopy rest

def allFieldsCopy : List (String × Schema) → Bool
  | [] => true
  | (_, field) :: rest => alwaysCopies field && allFieldsCopy rest

def allVariantsCopy : List (String × Option Schema) → Bool
  | [] => true
  | (_, none) :: _ => false
  | (_, some payload) :: rest => alwaysCopies payload && allVariantsCopy rest

end

end Schema

end WireSchema
