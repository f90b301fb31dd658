import WireSchema.Value.Basic

/-!
Two ways in which values can be told apart. `same` asks whether a value is the very same one:
containers and big integers by their origin, numbers by their bits, everything else by content.
`equal` compares contents throughout and does not look at the order of keys.
-/

set_option autoImplicit false

namespace WireSchema.Value

def same : Value → Value → Bool
  | .absent, .absent => true
  | .null, .null => true
  | .bool a, .bool b => a == b
  | .number a, .number b => a == b
  | .string a, .string b => a == b
  | .bigint a _, .bigint b _ => a == b
  | .date a, .date b => a == b
  | .temporal a, .temporal b => a.equal b
  | .array a _, .array b _ => a == b
  | .object a _, .object b _ => a == b
  | _, _ => false

def sharesHandle : Value → Value → Bool
  | .bigint a _, .bigint b _ => a == b
  | .array a _, .array b _ => a == b
  | .object a _, .object b _ => a == b
  | _, _ => false

mutual

/-- Equality of contents, numbers being compared by `numbers`. -/
def equalBy (numbers : Binary64 → Binary64 → Bool) : Value → Value → Bool
  | .absent, .absent => true
  | .null, .null => true
  | .bool a, .bool b => a == b
  | .number a, .number b => numbers a b
  | .string a, .string b => a == b
  | .bigint _ a, .bigint _ b => a == b
  | .date a, .date b => a == b
  | .temporal a, .temporal b => a.equal b
  | .array _ as, .array _ bs => equalItemsBy numbers as bs
  | .object _ as, .object _ bs => as.length == bs.length && equalEntriesBy numbers as bs
  | _, _ => false

def equalItemsBy (numbers : Binary64 → Binary64 → Bool) : List Value → List Value → Bool
  | [], [] => true
  | a :: as, b :: bs => equalBy numbers a b && equalItemsBy numbers as bs
  | _, _ => false

def equalEntriesBy (numbers : Binary64 → Binary64 → Bool) :
    List (String × Value) → List (String × Value) → Bool
  | [], _ => true
  | (key, a) :: as, bs =>
    (match Entries.get? key bs with
      | some b => equalBy numbers a b
      | none => false) && equalEntriesBy numbers as bs

end

def equal (a b : Value) : Bool :=
  equalBy Binary64.equal a b

def alikeNumbers (x y : Binary64) : Bool :=
  x.equal y || (x.isNaN && y.isNaN)

/-- Equality of contents; NaN is equal to NaN. -/
def alike (a b : Value) : Bool :=
  equalBy alikeNumbers a b

mutual

/-- The places, depth first, where a result holds the very same container or big integer as the
input at the same place. Nothing below such a place is listed. -/
def sharedPlaces (input : Value) : Value → List Path
  | .array origin items =>
    match input with
    | .array before inputs =>
      if origin = before then [[]] else sharedItems 0 inputs items
    | _ => []
  | .object origin entries =>
    match input with
    | .object before inputs =>
      if origin = before then [[]] else sharedEntries inputs entries
    | _ => []
  | other => if sharesHandle other input then [[]] else []

def sharedItems (i : Nat) (inputs : List Value) : List Value → List Path
  | [] => []
  | item :: rest =>
    match inputs with
    | [] => []
    | input :: more =>
      (sharedPlaces input item).map (.index i :: ·) ++ sharedItems (i + 1) more rest

def sharedEntries (inputs : List (String × Value)) : List (String × Value) → List Path
  | [] => []
  | (key, value) :: rest =>
    (match Entries.get? key inputs with
      | some input => (sharedPlaces input value).map (.key key :: ·)
      | none => []) ++ sharedEntries inputs rest

end

end WireSchema.Value
