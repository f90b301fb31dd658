import WireSchema.Convert.Read
import WireSchema.Convert.Trust
import WireSchema.Convert.Write
import WireSchema.Proofs.Convert.Engines

/-!
The places that a conversion visits. They depend on the schema and the value alone; the engines
differ in what they do with leaves and with variants that are not declared.
-/

set_option autoImplicit false

namespace WireSchema

def Origin.walk : Path → Origin → Origin
  | [], o => o
  | step :: rest, o => walk rest (o.enter step)

theorem Origin.walk_append (p q : Path) (o : Origin) : o.walk (p ++ q) = (o.walk p).walk q := by
  induction p generalizing o with
  | nil => rfl
  | cons step rest ih => exact ih (o.enter step)

namespace Value

open WireSchema.Update (property)

def part : Step → Value → Value
  | .key name, v => v.get name
  | .index i, .array _ items => items[i]?.getD .absent
  | .index _, _ => .absent

/-- What stands at a path into a value; absent if nothing does. -/
def walk : Path → Value → Value
  | [], v => v
  | step :: rest, v => walk rest (v.part step)

theorem part_index {i : Nat} {x : Value} {items : List Value} (found : items[i]? = some x)
    (origin : Origin) : (Value.array origin items).part (.index i) = x := by
  simp [part, found]

theorem part_cases (v : Value) (step : Step) :
    v.part step = .absent ∨ (∃ origin items, v = .array origin items ∧ v.part step ∈ items) ∨
      ∃ origin entries key, v = .object origin entries ∧ (key, v.part step) ∈ entries := by
  cases v with
  | object origin entries =>
    cases step with
    | key name =>
      rcases property_mem name entries with gone | member
      · exact Or.inl gone
      · exact Or.inr (Or.inr ⟨origin, entries, name, rfl, member⟩)
    | index i => exact Or.inl rfl
  | array origin items =>
    cases step with
    | key name => exact Or.inl rfl
    | index i =>
      cases found : items[i]? with
      | none => exact Or.inl (by simp [part, found])
      | some x =>
        have member : (array origin items).part (.index i) ∈ items := by
          rw [part_index found]
          exact List.mem_of_getElem? found
        exact Or.inr (Or.inl ⟨origin, items, rfl, member⟩)
  | _ => cases step <;> exact Or.inl rfl

theorem Predates.part {v : Value} {fresh : Origin} (old : v.Predates fresh) (step : Step) :
    (v.part step).Predates fresh := by
  rcases v.part_cases step with gone | ⟨origin, items, rfl, member⟩ | ⟨origin, es, key, rfl, member⟩
  · rw [gone]
    exact predates_absent fresh
  · exact old.item member
  · exact old.entry member

theorem Predates.walk {v : Value} {fresh : Origin} (old : v.Predates fresh) (p : Path) :
    (v.walk p).Predates fresh := by
  induction p generalizing v with
  | nil => exact old
  | cons step rest ih => exact ih (old.part step)

theorem Predates.below {v : Value} {fresh : Origin} (old : v.Predates fresh) (p : Path) :
    v.Predates (fresh.walk p) := by
  induction p generalizing fresh with
  | nil => exact old
  | cons step rest ih => exact ih (old.enter step)

def MadeAt (fresh : Origin) (v : Value) : Prop :=
  (∃ items, v = .array fresh items) ∨ ∃ entries, v = .object fresh entries

theorem MadeAt.sharesHandle_eq_false {fresh : Origin} {v x : Value} (made : MadeAt fresh v)
    (old : x.Predates fresh) : v.sharesHandle x = false := by
  rcases made with ⟨items, rfl⟩ | ⟨entries, rfl⟩
  · cases x with
    | array origin others => simpa [sharesHandle] using old.array_origin_ne
    | _ => rfl
  · cases x with
    | object origin others => simpa [sharesHandle] using old.object_origin_ne
    | _ => rfl

theorem MadeAt.isContainer {fresh : Origin} {v : Value} (made : MadeAt fresh v) :
    v.isContainer = true := by
  rcases made with ⟨items, rfl⟩ | ⟨entries, rfl⟩ <;> rfl

end Value

namespace Schema

open WireSchema.Update (property kindKey valueKey)

/-- The ways of converting values under a schema. -/
inductive Engine where
  | read
  | trust
  | write (options : WriteOptions)

namespace Engine

def convert : Engine → Schema → Conversion Fault
  | .read, schema => schema.reader
  | .trust, schema => fun fresh v => .ok (schema.truster fresh v)
  | .write options, schema => schema.writer options

def run : Engine → Schema → Value → Except Fault Value
  | .read, schema, input => schema.read input
  | .trust, schema, input => .ok (schema.trust input)
  | .write options, schema, input => schema.write options input

theorem run_eq (engine : Engine) (schema : Schema) (input : Value) :
    engine.run schema input = engine.convert schema input.freshOrigin input := by
  cases engine <;> rfl

def leaf : Engine → Leaf → Conversion Fault
  | .read, l => l.read
  | .trust, l => fun fresh v => .ok (l.trust fresh v)
  | .write options, l => fun _ v => l.write options v

/-- Whether nothing is put in the place of a value whose variant is not declared. -/
def drops : Engine → Bool
  | .write options => options.choiceFallthrough
  | _ => false

end Engine

/-- A conversion enters the part of a value that a step leads to, under a schema of its own. -/
inductive Enters : Schema → Value → Step → Schema → Value → Prop where
  | item {item : Schema} {origin : Origin} {values : List Value} {i : Nat} {x : Value} :
      values[i]? = some x → Enters (.array item) (.array origin values) (.index i) item x
  | elem {elems : List Schema} {origin : Origin} {values : List Value} {i : Nat} {elem : Schema}
      {x : Value} : elems[i]? = some elem → values[i]? = some x →
      Enters (.tuple elems) (.array origin values) (.index i) elem x
  | field {fields : List (String × Schema)} {origin : Origin} {entries : List (String × Value)}
      {key : String} {field : Schema} : (key, field) ∈ fields →
      Enters (.object fields) (.object origin entries) (.key key) field (property key entries)
  | spread {variants : List (String × Option Schema)} {fields : List (String × Schema)}
      {origin : Origin} {entries : List (String × Value)} {kind key : String} {field : Schema} :
      property kindKey entries = .string kind →
      Entries.get? kind variants = some (some (.object fields)) → (key, field) ∈ fields →
      Enters (.choice variants) (.object origin entries) (.key key) field (property key entries)
  | held {variants : List (String × Option Schema)} {payload : Schema} {origin : Origin}
      {entries : List (String × Value)} {kind : String} :
      property kindKey entries = .string kind →
      Entries.get? kind variants = some (some payload) → payload.isObject = false →
      Enters (.choice variants) (.object origin entries) (.key valueKey) payload
        (property valueKey entries)

/-- Induction along what is entered: a compound has a hypothesis for whatever is entered under it. -/
theorem byEntered {P : Schema → Prop} (leaf : ∀ l, P (.leaf l))
    (option : ∀ inner, P inner → P (.option inner))
    (compound : ∀ schema, (∀ l, schema ≠ .leaf l) → (∀ inner, schema ≠ .option inner) →
      (∀ v step part y, Enters schema v step part y → P part) → P schema) (schema : Schema) :
    P schema := by
  induction schema using byLayout with
  | leaf l => exact leaf l
  | option inner ih => exact option inner ih
  | array item ih =>
    refine compound _ (by simp) (by simp) fun v step part y enters => ?_
    cases enters with
    | item _ => exact ih
  | tuple elems ih =>
    refine compound _ (by simp) (by simp) fun v step part y enters => ?_
    cases enters with
    | elem here _ => exact ih _ (List.mem_of_getElem? here)
  | object fields ih =>
    refine compound _ (by simp) (by simp) fun v step part y enters => ?_
    cases enters with
    | field member => exact ih _ _ member
  | choice variants held spread =>
    refine compound _ (by simp) (by simp) fun v step part y enters => ?_
    cases enters with
    | spread _ declared member => exact spread _ _ (Entries.mem_of_get? declared) _ _ member
    | held _ declared _ => exact held _ _ (Entries.mem_of_get? declared)

/-- A conversion visits what stands at a path, under a schema of its own. An option stands where
its value does. -/
inductive Visits : Schema → Value → Path → Schema → Value → Prop where
  | here {schema : Schema} {v : Value} : Visits schema v [] schema v
  | option {inner : Schema} {v : Value} {p : Path} {s : Schema} {x : Value} : v ≠ .absent →
      Visits inner v p s x → Visits (.option inner) v p s x
  | enter {schema : Schema} {v : Value} {step : Step} {part : Schema} {y : Value} {rest : Path}
      {s : Schema} {x : Value} : Enters schema v step part y → Visits part y rest s x →
      Visits schema v (step :: rest) s x

/-- A conversion changes the value that it is at: a leaf is not what it was, or nothing is put in
the place of a value whose variant is not declared. -/
inductive Alters (engine : Engine) (fresh : Origin) : Schema → Value → Prop where
  | leaf {l : Leaf} {v y : Value} : engine.leaf l fresh v = .ok y → y.same v = false →
      Alters engine fresh (.leaf l) v
  | dropped {variants : List (String × Option Schema)} {origin : Origin}
      {entries : List (String × Value)} {kind : String} : engine.drops = true →
      property kindKey entries = .string kind → kind ∉ Entries.names variants →
      Alters engine fresh (.choice variants) (.object origin entries)

def Changed (engine : Engine) (fresh : Origin) (schema : Schema) (v : Value) (p : Path) : Prop :=
  ∃ s x, Visits schema v p s x ∧ Alters engine (fresh.walk p) s x

variable {schema s part : Schema} {v x y : Value} {step : Step} {p q : Path}

theorem Enters.part_eq (enters : Enters schema v step part y) : v.part step = y := by
  cases enters with
  | item found => exact Value.part_index found _
  | elem _ found => exact Value.part_index found _
  | field _ => rfl
  | spread _ _ _ => rfl
  | held _ _ _ => rfl

theorem Enters.proper (enters : Enters schema v step part y) (proper : schema.Proper) :
    part.Proper := by
  cases enters with
  | item _ => cases proper with | array item => exact item
  | elem here _ => cases proper with | tuple elems => exact elems _ (List.mem_of_getElem? here)
  | field member => cases proper with | object _ fields => exact fields _ _ member
  | spread _ found member =>
    cases proper.payload found with
    | object _ fields => exact fields _ _ member
  | held _ found _ => exact proper.payload found

theorem Enters.tidy (enters : Enters schema v step part y) (tidy : v.Proper) : y.Proper := by
  cases enters with
  | item found => exact tidy.items _ (List.mem_of_getElem? found)
  | elem _ found => exact tidy.items _ (List.mem_of_getElem? found)
  | field _ => exact tidy.property _
  | spread _ _ _ => exact tidy.property _
  | held _ _ _ => exact tidy.property _

theorem Enters.predates (enters : Enters schema v step part y) {fresh : Origin}
    (old : v.Predates fresh) : y.Predates (fresh.enter step) := by
  rw [← enters.part_eq]
  exact (old.part step).enter step

theorem Visits.walk_eq (visits : Visits schema v p s x) : v.walk p = x := by
  induction visits with
  | here => rfl
  | option _ _ ih => exact ih
  | enter enters _ ih => rw [Value.walk, enters.part_eq, ih]

theorem Visits.proper (visits : Visits schema v p s x) (proper : schema.Proper) : s.Proper := by
  induction visits with
  | here => exact proper
  | option _ _ ih => cases proper with | option inner => exact ih inner
  | enter enters _ ih => exact ih (enters.proper proper)

theorem Visits.tidy (visits : Visits schema v p s x) (tidy : v.Proper) : x.Proper := by
  induction visits with
  | here => exact tidy
  | option _ _ ih => exact ih tidy
  | enter enters _ ih => exact ih (enters.tidy tidy)

theorem Visits.trans (first : Visits schema v p s x) {t : Schema} {y : Value}
    (second : Visits s x q t y) : Visits schema v (p ++ q) t y := by
  induction first with
  | here => exact second
  | option there _ ih => exact .option there (ih second)
  | enter enters _ ih => exact .enter enters (ih second)

/-- On the way to a visited place every place is visited, and left by the step that leads on. -/
theorem Visits.split {step : Step} (visits : Visits schema v (p ++ step :: q) s x) :
    ∃ t y part z, Visits schema v p t y ∧ Enters t y step part z ∧ Visits part z q s x := by
  generalize whole : p ++ step :: q = path at visits
  induction visits generalizing p with
  | here => simp at whole
  | option there _ ih =>
    obtain ⟨t, y, part, z, first, enters, rest⟩ := ih whole
    exact ⟨t, y, part, z, .option there first, enters, rest⟩
  | @enter schema v first part y rest s x enters visits ih =>
    cases p with
    | nil =>
      obtain ⟨rfl, rfl⟩ := List.cons.inj whole
      exact ⟨schema, v, part, y, .here, enters, visits⟩
    | cons start more =>
      obtain ⟨rfl, tail⟩ := List.cons.inj whole
      obtain ⟨t, z, inner, w, before, next, after⟩ := ih tail
      exact ⟨t, z, inner, w, .enter enters before, next, after⟩

theorem Changed.below {engine : Engine} {fresh : Origin} (visits : Visits schema v p s x)
    (changed : Changed engine (fresh.walk p) s x q) : Changed engine fresh schema v (p ++ q) := by
  obtain ⟨t, y, inner, alters⟩ := changed
  exact ⟨t, y, visits.trans inner, by rwa [Origin.walk_append]⟩

end Schema

end WireSchema
