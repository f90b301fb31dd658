/-!
Lists of named entries in the order of their first insertion. Setting a name that is there
keeps its position, erasing closes the gap, and equality does not look at the order.
-/

set_option autoImplicit false

namespace WireSchema.Entries

variable {α : Type} {β : Type}

def names (entries : List (String × α)) : List String :=
  entries.map Prod.fst

def Distinct (entries : List (String × α)) : Prop :=
  (names entries).Nodup

def get? (name : String) : List (String × α) → Option α
  | [] => none
  | (n, a) :: rest => if n = name then some a else get? name rest

/-- Gives a name a value: in its place if the name is there, else at the end. -/
def set (name : String) (value : α) : List (String × α) → List (String × α)
  | [] => [(name, value)]
  | (n, a) :: rest => if n = name then (n, value) :: rest else (n, a) :: set name value rest

def erase (name : String) : List (String × α) → List (String × α)
  | [] => []
  | (n, a) :: rest => if n = name then rest else (n, a) :: erase name rest

/-- The entries of a list in which names may repeat: a name has its first position and its last
value. -/
def ofList (pairs : List (String × α)) : List (String × α) :=
  pairs.foldl (fun entries pair => set pair.1 pair.2 entries) []

end WireSchema.Entries
