import WireSchema.Proofs.Update.Strategies

/-!
Arrays mapped item by item. A copy that is made at the first change has the items before it in front
and nothing but results from there on, so that an array updated at need holds what the plain map
gives, up to items that came back the very same. Both fail at the first item that cannot be mapped.
-/

set_option autoImplicit false

namespace WireSchema.Update

open WireSchema.Convert (convertEach)
open WireSchema.Generated (copyEach)

variable {ε : Type} {fresh origin : Origin} {f : Nat → Value → Except ε Value}
  {values results : List Value} {e : ε}

/-- One item in turn: its result goes to the end of the copy made so far. Where there is none, a
result that is not the very same as its item starts one behind the items that stand before. -/
def changedItem (values : List Value) (f : Nat → Value → Except ε Value)
    (copy : Option (List Value)) (i : Nat) (item : Value) : Except ε (Option (List Value)) := do
  let mapped ← f i item
  match copy with
  | some out => return some (out ++ [mapped])
  | none =>
    if mapped.same item then return none
    else return some (values.take i ++ [mapped])

def itemsInTurn (fresh : Origin) (f : Nat → Value → Except ε Value) (origin : Origin)
    (values : List Value) : Except ε Value := do
  let copy ← values.zipIdx.foldlM (fun copy entry => changedItem values f copy entry.2 entry.1) none
  match copy with
  | none => return .array origin values
  | some out => return .array fresh out

private theorem foldlM_copied (values out rest : List Value) (i : Nat) :
    (rest.zipIdx i).foldlM (fun copy entry => changedItem values f copy entry.2 entry.1) (some out) =
      (mapItems f i rest).map fun more => some (out ++ more) := by
  induction rest generalizing out i with
  | nil => simp [mapItems, Except.map, pure, Except.pure]
  | cons item rest ih =>
    rw [List.zipIdx_cons, List.foldlM_cons, changedItem, mapItems]
    cases f i item with
    | error e => rfl
    | ok mapped =>
      simp only [ok_bind, pure_bind, ih]
      cases mapItems f (i + 1) rest with
      | error e => rfl
      | ok more => simp [Except.map, pure, Except.pure]

/-- Until there is a copy, what has been passed is the front of the array, which the copy starts
with. -/
private theorem foldlM_uncopied {front rest : List Value} (whole : front ++ rest = values) :
    (rest.zipIdx front.length).foldlM
        (fun copy entry => changedItem values f copy entry.2 entry.1) none =
      (changedItems f front.length rest).map (Option.map (front ++ ·)) := by
  induction rest generalizing front with
  | nil => simp [changedItems, Except.map, pure, Except.pure]
  | cons item rest ih =>
    rw [List.zipIdx_cons, List.foldlM_cons, changedItem, changedItems]
    cases f front.length item with
    | error e => rfl
    | ok mapped =>
      simp only [ok_bind]
      by_cases same : mapped.same item = true
      · have later := @ih (front ++ [item]) (by simp [whole])
        rw [List.length_append, List.length_singleton] at later
        simp only [if_pos same, pure_bind, later]
        cases changedItems f (front.length + 1) rest with
        | error e => rfl
        | ok changed => cases changed <;> simp [Except.map, pure, Except.pure]
      · have passed : values.take front.length = front := by simp [← whole]
        simp only [if_neg same, pure_bind, foldlM_copied, passed]
        cases mapItems f (front.length + 1) rest with
        | error e => rfl
        | ok more => simp [Except.map, pure, Except.pure]

theorem itemsInTurn_eq (fresh origin : Origin) (f : Nat → Value → Except ε Value)
    (values : List Value) : itemsInTurn fresh f origin values = items fresh f origin values := by
  have turns := foldlM_uncopied (f := f) (List.nil_append values)
  rw [List.length_nil] at turns
  rw [itemsInTurn, turns, items]
  cases changedItems f 0 values with
  | error e => rfl
  | ok changed => cases changed <;> rfl

structure FailsFirst (f : Nat → Value → Except ε Value) (values : List Value) (i : Nat) (e : ε) :
    Prop where
  fails : ∃ x, values[i]? = some x ∧ f i x = .error e
  before : ∀ j < i, ∀ x, values[j]? = some x → ∃ result, f j x = .ok result

private theorem failsFirst_zero {item : Value} {rest : List Value} :
    FailsFirst f (item :: rest) 0 e ↔ f 0 item = .error e := by
  constructor
  · rintro ⟨⟨x, found, fails⟩, -⟩
    obtain rfl : item = x := by simpa using found
    exact fails
  · exact fun fails => ⟨⟨item, rfl, fails⟩, by simp⟩

private theorem failsFirst_succ {item : Value} {rest : List Value} {i : Nat} :
    FailsFirst f (item :: rest) (i + 1) e ↔
      (∃ result, f 0 item = .ok result) ∧ FailsFirst (fun j => f (j + 1)) rest i e := by
  constructor
  · rintro ⟨⟨x, found, fails⟩, before⟩
    refine ⟨before 0 (by omega) item rfl, ⟨x, by simpa using found, fails⟩, fun j less x found => ?_⟩
    exact before (j + 1) (by omega) x (by simpa using found)
  · rintro ⟨first, ⟨x, found, fails⟩, before⟩
    refine ⟨⟨x, by simpa using found, fails⟩, fun j less y found => ?_⟩
    cases j with
    | zero =>
      obtain rfl : item = y := by simpa using found
      exact first
    | succ j => exact before j (by omega) y (by simpa using found)

theorem mapItems_eq_error_iff {k : Nat} : mapItems f k values = .error e ↔
    ∃ i, FailsFirst (fun j => f (k + j)) values i e := by
  induction values generalizing k with
  | nil => exact iff_of_false (by simp [mapItems]) (by rintro ⟨i, ⟨x, found, -⟩, -⟩; simp at found)
  | cons item rest ih =>
    have shift : (fun j => f (k + 1 + j)) = fun j => f (k + (j + 1)) := by
      funext j
      rw [Nat.add_assoc, Nat.add_comm 1]
    rw [mapItems, bind_eq_error]
    constructor
    · rintro (first | ⟨result, done, others⟩)
      · exact ⟨0, failsFirst_zero.mpr first⟩
      · rcases bind_eq_error.mp others with later | ⟨_, -, never⟩
        · obtain ⟨i, fails⟩ := ih.mp later
          exact ⟨i + 1, failsFirst_succ.mpr ⟨⟨result, done⟩, shift ▸ fails⟩⟩
        · exact absurd never (pure_ne_error _ _)
    · rintro ⟨i, fails⟩
      cases i with
      | zero => exact .inl (failsFirst_zero.mp fails)
      | succ i =>
        obtain ⟨⟨result, done⟩, later⟩ := failsFirst_succ.mp fails
        refine .inr ⟨result, done, bind_eq_error.mpr (.inl (ih.mpr ⟨i, ?_⟩))⟩
        rw [shift]
        exact later

theorem failsFirst_located {f : Nat → Value → Except Fault Value} {i : Nat} {fault : Fault} :
    FailsFirst (fun j x => located (.index j) (f j x)) values i fault ↔
      ∃ inner, FailsFirst f values i inner ∧ fault = inner.inside (.index i) := by
  constructor
  · rintro ⟨⟨x, found, fails⟩, before⟩
    obtain ⟨inner, failed, rfl⟩ := located_eq_error.mp fails
    refine ⟨inner, ⟨⟨x, found, failed⟩, fun j less y there => ?_⟩, rfl⟩
    obtain ⟨result, done⟩ := before j less y there
    exact ⟨result, located_eq_ok.mp done⟩
  · rintro ⟨inner, ⟨⟨x, found, failed⟩, before⟩, rfl⟩
    refine ⟨⟨x, found, located_eq_error.mpr ⟨inner, failed, rfl⟩⟩, fun j less y there => ?_⟩
    obtain ⟨result, done⟩ := before j less y there
    exact ⟨result, located_eq_ok.mpr done⟩

/-- The items before the first result that is not the very same as its item, and the results from
there on; nothing if there is no such result. -/
def settledItems : List Value → List Value → Option (List Value)
  | item :: rest, result :: more =>
    if result.same item then (settledItems rest more).map (item :: ·) else some (result :: more)
  | _, _ => none

theorem changedItems_eq (f : Nat → Value → Except ε Value) (i : Nat) (values : List Value) :
    changedItems f i values = (mapItems f i values).map (settledItems values) := by
  induction values generalizing i with
  | nil => rfl
  | cons item rest ih =>
    rw [changedItems, mapItems, ih]
    cases f i item with
    | error e => rfl
    | ok mapped =>
      simp only [ok_bind]
      cases mapItems f (i + 1) rest with
      | error e =>
        split
        · rfl
        · rfl
      | ok more =>
        by_cases same : mapped.same item = true
        · simp [same, settledItems, Except.map, pure, Except.pure]
        · simp [same, settledItems, Except.map, pure, Except.pure]

theorem settledItems_eq_none_iff (length : results.length = values.length) :
    settledItems values results = none ↔
      ∀ (i : Nat) (x result : Value), values[i]? = some x → results[i]? = some result →
        result.same x = true := by
  induction values generalizing results with
  | nil => simp [settledItems]
  | cons item rest ih =>
    cases results with
    | nil => simp at length
    | cons first more =>
      have others := @ih more (by simpa using length)
      rw [settledItems]
      by_cases same : first.same item = true
      · rw [if_pos same, Option.map_eq_none_iff, others]
        constructor
        · intro each i x result found there
          cases i with
          | zero =>
            obtain ⟨rfl, rfl⟩ : item = x ∧ first = result := by simpa using And.intro found there
            exact same
          | succ i => exact each i x result (by simpa using found) (by simpa using there)
        · exact fun each i x result found there =>
            each (i + 1) x result (by simpa using found) (by simpa using there)
      · rw [if_neg same]
        exact iff_of_false (by simp) fun each => same (each 0 item first rfl rfl)

/-- What is settled on starts to differ at an index. -/
theorem exists_first_change {out : List Value} (length : results.length = values.length)
    (settled : settledItems values results = some out) :
    ∃ k x result, values[k]? = some x ∧ results[k]? = some result ∧ result.same x = false ∧
      (∀ j < k, ∀ y other, values[j]? = some y → results[j]? = some other → other.same y = true) ∧
      out = values.take k ++ results.drop k := by
  induction values generalizing results out with
  | nil => simp [settledItems] at settled
  | cons item rest ih =>
    cases results with
    | nil => simp at length
    | cons first more =>
      rw [settledItems] at settled
      by_cases same : first.same item = true
      · rw [if_pos same, Option.map_eq_some_iff] at settled
        obtain ⟨later, settled, rfl⟩ := settled
        obtain ⟨k, x, result, found, there, differs, before, rfl⟩ :=
          ih (by simpa using length) settled
        refine ⟨k + 1, x, result, by simpa using found, by simpa using there, differs, ?_, rfl⟩
        intro j less y other found there
        cases j with
        | zero =>
          obtain ⟨rfl, rfl⟩ : item = y ∧ first = other := by simpa using And.intro found there
          exact same
        | succ j => exact before j (by omega) y other (by simpa using found) (by simpa using there)
      · rw [if_neg same] at settled
        obtain rfl := Option.some.inj settled
        exact ⟨0, item, first, rfl, rfl, by simpa using same, by simp, rfl⟩

def Unchanged (f : Nat → Value → Except ε Value) (values : List Value) (i : Nat) : Prop :=
  ∃ x result, values[i]? = some x ∧ f i x = .ok result ∧ result.same x = true

/-- What a function makes of the items of an array where all of them can be mapped; whether the array
comes back itself is a condition. -/
structure Refines (f : Nat → Value → Except ε Value) (values : List Value) (kept : Prop)
    (out : List Value) : Prop where
  length : out.length = values.length
  same : ∀ i x, values[i]? = some x →
    ∃ result y, f i x = .ok result ∧ out[i]? = some y ∧ y.same result = true
  kept_iff : kept ↔ ∀ i < values.length, Unchanged f values i
  /-- Before the first change the items themselves stand there. -/
  front : ∀ i, (∀ j ≤ i, Unchanged f values j) → out[i]? = values[i]?
  /-- From the first change on the results themselves stand there. -/
  back : ∀ i j, j ≤ i → ¬Unchanged f values j →
    ∀ x result, values[i]? = some x → f i x = .ok result → out[i]? = some result

section Results

variable (mapped : mapItems f 0 values = .ok results)

include mapped

private theorem results_at {i : Nat} {x : Value} (found : values[i]? = some x) :
    ∃ result, results[i]? = some result ∧ f i x = .ok result := by
  obtain ⟨result, there, done⟩ := (mapItems_eq_ok_iff.mp mapped).2 i x found
  exact ⟨result, there, by rwa [Nat.zero_add] at done⟩

private theorem result_eq {i : Nat} {x result : Value} (found : values[i]? = some x)
    (done : f i x = .ok result) : results[i]? = some result := by
  obtain ⟨other, there, made⟩ := results_at mapped found
  rw [there, Except.ok.inj (made.symm.trans done)]

private theorem unchanged_of_same {i : Nat} {x : Value} (found : values[i]? = some x)
    (same : ∀ result, results[i]? = some result → result.same x = true) :
    Unchanged f values i := by
  obtain ⟨result, there, done⟩ := results_at mapped found
  exact ⟨x, result, found, done, same result there⟩

private theorem refines_uncopied (settled : settledItems values results = none) :
    Refines f values True values := by
  have same := (settledItems_eq_none_iff (mapItems_eq_ok_iff.mp mapped).1).mp settled
  have unchanged : ∀ i < values.length, Unchanged f values i := fun i within =>
    unchanged_of_same mapped (List.getElem?_eq_getElem within)
      (same i _ · (List.getElem?_eq_getElem within))
  refine ⟨rfl, fun i x found => ?_, iff_of_true trivial unchanged, fun i _ => rfl, ?_⟩
  · obtain ⟨result, there, done⟩ := results_at mapped found
    exact ⟨result, x, done, found, Value.same_symm (same i x result found there)⟩
  · intro i j le changed x result found
    have within := (List.getElem?_eq_some_iff.mp found).1
    exact absurd (unchanged j (by omega)) changed

private theorem refines_copied {out : List Value} (settled : settledItems values results = some out) :
    Refines f values False out := by
  have length := (mapItems_eq_ok_iff.mp mapped).1
  obtain ⟨k, x, result, found, there, differs, before, rfl⟩ := exists_first_change length settled
  have within := (List.getElem?_eq_some_iff.mp found).1
  have changed : ¬Unchanged f values k := by
    rintro ⟨y, other, here, done, same⟩
    obtain rfl := Option.some.inj (found.symm.trans here)
    obtain rfl := Option.some.inj (there.symm.trans (result_eq mapped found done))
    rw [differs] at same
    cases same
  have unchanged : ∀ j < k, Unchanged f values j := fun j less =>
    have here := List.getElem?_eq_getElem (show j < values.length by omega)
    unchanged_of_same mapped here (before j less _ · here)
  have front : ∀ i < k, (values.take k ++ results.drop k)[i]? = values[i]? := by
    intro i less
    rw [List.getElem?_append_left (by rw [List.length_take]; omega), List.getElem?_take_of_lt less]
  have back : ∀ i, k ≤ i → (values.take k ++ results.drop k)[i]? = results[i]? := by
    intro i le
    have size : (values.take k).length = k := by rw [List.length_take]; omega
    rw [List.getElem?_append_right (by omega), size, List.getElem?_drop, Nat.add_sub_cancel' le]
  refine ⟨?_, fun i y here => ?_, iff_of_false id fun all => changed (all k within),
    fun i upto => ?_, fun i j le other y own here done => ?_⟩
  · rw [List.length_append, List.length_take, List.length_drop]
    omega
  · obtain ⟨own, there, done⟩ := results_at mapped here
    rcases Nat.lt_or_ge i k with less | le
    · exact ⟨own, y, done, (front i less).trans here,
        Value.same_symm (before i less y own here there)⟩
    · exact ⟨own, own, done, (back i le).trans there, Value.same_refl own⟩
  · rcases Nat.lt_or_ge i k with less | le
    · exact front i less
    · exact absurd (upto k le) changed
  · have late : k ≤ i := by
      by_contra early
      exact other (unchanged j (by omega))
    exact (back i late).trans (result_eq mapped here done)

end Results

theorem items_refine (apart : fresh ≠ origin) {v : Value}
    (done : items fresh f origin values = .ok v) :
    ∃ o out, v = .array o out ∧ Refines f values (o = origin) out := by
  rw [items, changedItems_eq] at done
  obtain ⟨changed, settled, shape⟩ := bind_eq_ok.mp done
  obtain ⟨results, mapped, rfl⟩ := map_eq_ok.mp settled
  cases made : settledItems values results with
  | none =>
    simp only [made] at shape
    obtain rfl := Except.ok.inj shape
    exact ⟨origin, values, rfl, by simpa using refines_uncopied mapped made⟩
  | some out =>
    simp only [made] at shape
    obtain rfl := Except.ok.inj shape
    exact ⟨fresh, out, rfl, by simpa [apart] using refines_copied mapped made⟩

theorem items_eq_error_iff :
    items fresh f origin values = .error e ↔ ∃ i, FailsFirst f values i e := by
  have plain : mapItems f 0 values = .error e ↔ ∃ i, FailsFirst f values i e := by
    rw [mapItems_eq_error_iff]
    simp only [Nat.zero_add]
  rw [items, changedItems_eq, ← plain, bind_eq_error, map_eq_error]
  constructor
  · rintro (failed | ⟨changed, -, shape⟩)
    · exact failed
    · cases changed <;> cases shape
  · exact .inl

section Conversions

variable {item : Conversion Fault} {fault : Fault}

private def itemRuns (item : Conversion Fault) (fresh : Origin) (i : Nat) (x : Value) :
    Except Fault Value :=
  located (.index i) (item (fresh.enter (.index i)) x)

private theorem convertEach_array : convertEach item fresh (.array origin values) =
    items fresh (itemRuns item fresh) origin values := rfl

private theorem copyEach_array : copyEach item fresh (.array origin values) =
    copiedItems fresh (itemRuns item fresh) values := rfl

private theorem copiedItems_eq_error_iff : copiedItems fresh f values = .error e ↔
    items fresh f origin values = .error e := by
  rw [items_eq_error_iff, copiedItems, bind_eq_error, mapItems_eq_error_iff]
  simp only [Nat.zero_add]
  constructor
  · rintro (failed | ⟨results, -, never⟩)
    · exact failed
    · exact absurd never (pure_ne_error _ _)
  · exact .inl

theorem convertEach_eq_error_iff (v : Value) :
    convertEach item fresh v = .error fault ↔ copyEach item fresh v = .error fault := by
  cases v with
  | array origin values =>
    rw [convertEach_array, copyEach_array]
    exact copiedItems_eq_error_iff.symm
  | _ => exact Iff.rfl

theorem alike_copiedItems {a b : Value} (tidy : (Value.array origin values).Proper)
    (genuine : ∀ i x result, values[i]? = some x → f i x = .ok result → Genuine result x)
    (apart : fresh ≠ origin) (updated : items fresh f origin values = .ok a)
    (copied : copiedItems fresh f values = .ok b) : a.alike b = true := by
  obtain ⟨o, out, rfl, refines⟩ := items_refine apart updated
  obtain ⟨results, mapped, made⟩ := bind_eq_ok.mp copied
  obtain rfl := pure_eq_ok.mp made
  have length := (mapItems_eq_ok_iff.mp mapped).1
  refine Value.alike_array.mpr ⟨refines.length.trans length.symm, fun i y result here there => ?_⟩
  obtain ⟨x, found⟩ := exists_beside length.symm there
  obtain ⟨own, there', done⟩ := results_at mapped found
  obtain rfl := Option.some.inj (there.symm.trans there')
  obtain ⟨proper, handle⟩ := genuine i x result found done
  by_cases upto : ∀ j ≤ i, Unchanged f values j
  · obtain ⟨x', other, found', done', same⟩ := upto i (Nat.le_refl i)
    obtain rfl := Option.some.inj (found.symm.trans found')
    obtain rfl := Except.ok.inj (done.symm.trans done')
    obtain rfl := Option.some.inj (here.symm.trans ((refines.front i upto).trans found))
    exact Genuine.alike ⟨proper, handle⟩ (tidy.items y (List.mem_of_getElem? found)) same
  · push Not at upto
    obtain ⟨j, le, changed⟩ := upto
    obtain rfl := Option.some.inj (here.symm.trans (refines.back i j le changed x result found done))
    exact Value.alike_refl proper

end Conversions

/-- Mapped at need, an array fails with the error of the first item that cannot be mapped; otherwise it
has an item for each item, the very same as what that is mapped to. It comes back itself exactly if
every item does, and up to the first change the items themselves stay. Conversions of items into a
new array, and at need, fail alike, with the index of the item in front, and give equal arrays. -/
theorem arrays_refine_map (apart : fresh ≠ origin) (values : List Value) :
    (∀ (ε : Type) (f : Nat → Value → Except ε Value),
      itemsInTurn fresh f origin values = items fresh f origin values ∧
      (∀ e, items fresh f origin values = .error e ↔ ∃ i, FailsFirst f values i e) ∧
      ∀ v, items fresh f origin values = .ok v →
        ∃ o out, v = .array o out ∧ Refines f values (o = origin) out) ∧
    ∀ item : Conversion Fault,
      (∀ v fault, convertEach item fresh v = .error fault ↔ copyEach item fresh v = .error fault) ∧
      (∀ fault, convertEach item fresh (.array origin values) = .error fault ↔
        ∃ i inner, FailsFirst (fun i x => item (fresh.enter (.index i)) x) values i inner ∧
          fault = inner.inside (.index i)) ∧
      ((Value.array origin values).Proper →
        (∀ i x result, values[i]? = some x → item (fresh.enter (.index i)) x = .ok result →
          Genuine result x) →
        ∀ a b, convertEach item fresh (.array origin values) = .ok a →
          copyEach item fresh (.array origin values) = .ok b → a.alike b = true) := by
  refine ⟨fun ε f => ⟨itemsInTurn_eq fresh origin f values, fun e => items_eq_error_iff,
    fun v => items_refine apart⟩, fun item => ⟨fun v fault => convertEach_eq_error_iff v, ?_, ?_⟩⟩
  · intro fault
    rw [convertEach_array, items_eq_error_iff]
    exact exists_congr fun i => failsFirst_located
  · intro tidy genuine a b updated copied
    refine alike_copiedItems tidy (fun i x result found done => ?_) apart updated copied
    exact genuine i x result found (located_eq_ok.mp done)

theorem arrays_refine_map_second :
    let values : List Value := [.number (.ofInt 1), .number .nan, .number (.ofInt 2)]
    let item : Conversion Fault := fun _ => Leaf.writeNumber
    let written : List Value := [.number (.ofInt 1), .string "NaN", .number (.ofInt 2)]
    Origin.root 1 ≠ .root 0 ∧ (Value.array (.root 0) values).Proper ∧
      itemsInTurn (.root 1) (fun _ => Leaf.writeNumber) (.root 0) values =
        .ok (.array (.root 1) written) ∧
      Refines (fun _ => Leaf.writeNumber) values (Origin.root 1 = .root 0) written ∧
      (Value.array (.root 1) written).alike (.array (.root 1) written) = true ∧
      convertEach item (.root 1) (.array (.root 0) values) = .ok (.array (.root 1) written) ∧
      copyEach item (.root 1) (.array (.root 0) values) = .ok (.array (.root 1) written) := by
  intro values item written
  have apart : Origin.root 1 ≠ .root 0 := by decide
  have tidy : (Value.array (.root 0) values).Proper := by decide +zetaReduce
  have genuine : ∀ i x result, values[i]? = some x →
      item ((Origin.root 1).enter (.index i)) x = .ok result → Genuine result x := by
    intro i x result found done
    obtain ⟨n, rfl⟩ : ∃ n, x = .number n := by
      have member := List.mem_of_getElem? found
      simp only [values, List.mem_cons, List.not_mem_nil, or_false] at member
      rcases member with rfl | rfl | rfl <;> exact ⟨_, rfl⟩
    have shape : Except.ok (if n.isFinite then .number n else .string n.text) = .ok result := done
    obtain rfl := Except.ok.inj shape
    split
    · exact ⟨.scalar rfl, by simp [Value.sharesHandle]⟩
    · exact ⟨.scalar rfl, by simp [Value.sharesHandle]⟩
  obtain ⟨mapped, converted⟩ := arrays_refine_map apart values
  obtain ⟨turns, -, refined⟩ := mapped Fault fun _ => Leaf.writeNumber
  obtain ⟨-, -, equal⟩ := converted item
  obtain ⟨o, out, shape, refines⟩ := refined (.array (.root 1) written) rfl
  obtain ⟨rfl, rfl⟩ := Value.array.inj shape
  exact ⟨apart, tidy, turns.trans rfl, refines, equal tidy genuine _ _ rfl rfl, rfl, rfl⟩

end WireSchema.Update
