import WireSchema.Convert.Containers
import WireSchema.Schema.Basic

/-!
From wire values that are known to conform to native values. Nothing is checked; where a conversion
cannot be made the input is handed back.
-/

set_option autoImplicit false

namespace WireSchema.Schema

open WireSchema.Update (Payload kindKey valueKey)

abbrev Trust := Origin → Value → Value

def certain {α : Type} : Except Empty α → α
  | .ok a => a

def trustEach (item : Trust) : Trust := fun fresh v =>
  match v with
  | .array origin values =>
    certain (Update.items fresh (fun i x => .ok (item (fresh.enter (.index i)) x)) origin values)
  | other => other

/-- Converts the items of an array position by position, as far as there are conversions. -/
def trustPositions (elems : List Trust) : Trust := fun fresh v =>
  match v with
  | .array origin values =>
    certain (Update.items fresh
      (fun i x =>
        match elems[i]? with
        | some elem => .ok (elem (fresh.enter (.index i)) x)
        | none => .ok x)
      origin values)
  | other => other

def trustProperties (fields : List (String × Trust)) : Trust := fun fresh v =>
  match v with
  | .object origin entries =>
    certain (Update.properties fresh
      (fields.map fun (key, field) => (key, fun x => .ok (field (fresh.enter (.key key)) x)))
      origin entries)
  | other => other

def trustVariant (variants : List (String × Payload Trust)) : Trust := fun fresh v =>
  match v with
  | .object _ _ =>
    match v.get kindKey with
    | .string kind =>
      match Entries.get? kind variants with
      | none | some .none => v
      | some (.spread fields) => trustProperties fields fresh v
      | some (.held payload) =>
        certain (Update.mappedPayload fresh kind
          (fun x => .ok (payload (fresh.enter (.key valueKey)) x)) v)
    | _ => v
  | other => other

mutual

def truster : Schema → Trust
  | .leaf l => l.trust
  | .option inner => fun fresh v => if v.isAbsent then .absent else truster inner fresh v
  | .array item => trustEach (truster item)
  | .tuple elems => trustPositions (elemTrusters elems)
  | .object fields => trustProperties (fieldTrusters fields)
  | .choice variants => trustVariant (variantTrusters variants)

def elemTrusters : List Schema → List Trust
  | [] => []
  | elem :: rest => truster elem :: elemTrusters rest

def fieldTrusters : List (String × Schema) → List (String × Trust)
  | [] => []
  | (key, field) :: rest => (key, truster field) :: fieldTrusters rest

def variantTrusters : List (String × Option Schema) → List (String × Payload Trust)
  | [] => []
  | (kind, none) :: rest => (kind, .none) :: variantTrusters rest
  | (kind, some (.object fields)) :: rest =>
    (kind, .spread (fieldTrusters fields)) :: variantTrusters rest
  | (kind, some payload) :: rest => (kind, .held (truster payload)) :: variantTrusters rest

end

def trust (schema : Schema) (input : Value) : Value :=
  schema.truster input.freshOrigin input

end WireSchema.Schema
