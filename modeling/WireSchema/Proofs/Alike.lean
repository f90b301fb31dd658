import Mathlib.Data.List.Perm.Subperm
import WireSchema.Proofs.Binary64
import WireSchema.Proofs.Value

/-!
Equality of contents, part by part. It does not look at origins or at the order of keys, and NaN is
equal to itself.
-/

set_option autoImplicit false

namespace WireSchema.Calendar.Temporal

theorem equal_iff {a b : Temporal} : a.equal b = true ↔ a = b ∨
    ∃ x y, a = .zonedDateTime x ∧ b = .zonedDateTime y ∧ x.moment.utc = y.moment.utc ∧
      x.zone = y.zone := by
  unfold equal
  split
  · next x y =>
    simp only [Bool.and_eq_true, beq_iff_eq]
    constructor
    · exact fun same => Or.inr ⟨x, y, rfl, rfl, same⟩
    · rintro (same | ⟨_, _, left, right, same⟩)
      · obtain rfl := Temporal.zonedDateTime.inj same
        exact ⟨rfl, rfl⟩
      · obtain rfl := Temporal.zonedDateTime.inj left
        obtain rfl := Temporal.zonedDateTime.inj right
        exact same
  · next other =>
    rw [beq_iff_eq]
    constructor
    · exact Or.inl
    · rintro (same | ⟨x, y, left, right, -⟩)
      · exact same
      · exact (other x y left right).elim

theorem equal_symm {a b : Temporal} (same : a.equal b = true) : b.equal a = true := by
  rcases equal_iff.mp same with rfl | ⟨x, y, rfl, rfl, moment, zone⟩
  · exact same
  · exact equal_iff.mpr (Or.inr ⟨y, x, rfl, rfl, moment.symm, zone.symm⟩)

theorem equal_trans {a b c : Temporal} (first : a.equal b = true) (second : b.equal c = true) :
    a.equal c = true := by
  rcases equal_iff.mp first with rfl | ⟨x, y, rfl, rfl, moment, zone⟩
  · exact second
  · rcases equal_iff.mp second with rfl | ⟨y', z, same, rfl, moment', zone'⟩
    · exact first
    · obtain rfl := Temporal.zonedDateTime.inj same
      exact equal_iff.mpr (Or.inr ⟨x, z, rfl, rfl, moment.trans moment', zone.trans zone'⟩)

end WireSchema.Calendar.Temporal

namespace WireSchema.Value

variable {numbers : Binary64 → Binary64 → Bool}

theorem equalItemsBy_iff {as bs : List Value} :
    equalItemsBy numbers as bs = true ↔ as.length = bs.length ∧
      ∀ (i : Nat) (a b : Value), as[i]? = some a → bs[i]? = some b → equalBy numbers a b = true := by
  induction as generalizing bs with
  | nil => cases bs <;> simp [equalItemsBy]
  | cons a as ih =>
    cases bs with
    | nil => simp [equalItemsBy]
    | cons b bs =>
      rw [equalItemsBy, Bool.and_eq_true, ih]
      constructor
      · rintro ⟨first, length, rest⟩
        refine ⟨congrArg (· + 1) length, fun i => ?_⟩
        cases i with
        | zero => simpa using first
        | succ i => simpa using rest i
      · rintro ⟨length, each⟩
        refine ⟨each 0 a b rfl rfl, Nat.succ.inj length, fun i => ?_⟩
        simpa using each (i + 1)

theorem equalEntriesBy_iff {as bs : List (String × Value)} :
    equalEntriesBy numbers as bs = true ↔
      ∀ key a, (key, a) ∈ as → ∃ b, Entries.get? key bs = some b ∧
        equalBy numbers a b = true := by
  induction as with
  | nil => simp [equalEntriesBy]
  | cons entry rest ih =>
    obtain ⟨key, a⟩ := entry
    rw [equalEntriesBy, Bool.and_eq_true, ih, Entries.forall_mem_cons]
    refine and_congr_left fun _ => ?_
    cases Entries.get? key bs <;> simp

theorem alike_array {o p : Origin} {as bs : List Value} :
    alike (.array o as) (.array p bs) = true ↔ as.length = bs.length ∧
      ∀ (i : Nat) (a b : Value), as[i]? = some a → bs[i]? = some b → alike a b = true := by
  rw [alike, equalBy, equalItemsBy_iff]
  rfl

theorem alike_object {o p : Origin} {as bs : List (String × Value)} :
    alike (.object o as) (.object p bs) = true ↔ as.length = bs.length ∧
      ∀ key a, (key, a) ∈ as → ∃ b, Entries.get? key bs = some b ∧ alike a b = true := by
  rw [alike, equalBy, Bool.and_eq_true, equalEntriesBy_iff, beq_iff_eq]
  rfl

theorem names_perm_of_alike {o p : Origin} {as bs : List (String × Value)}
    (distinct : Entries.Distinct as) (equal : alike (.object o as) (.object p bs) = true) :
    (Entries.names as).Perm (Entries.names bs) := by
  obtain ⟨length, each⟩ := alike_object.mp equal
  have within : Entries.names as ⊆ Entries.names bs := by
    intro key member
    obtain ⟨a, found⟩ := Entries.exists_get?_of_mem_names member
    obtain ⟨b, there, -⟩ := each key a (Entries.mem_of_get? found)
    exact Entries.mem_names_of_get? there
  refine (List.subperm_of_subset distinct within).perm_of_length_le ?_
  simp [Entries.names, length]

theorem alikeNumbers_iff {x y : Binary64} : alikeNumbers x y = true ↔
    x = y ∨ (x.isNaN = true ∧ y.isNaN = true) ∨ (x.isZero = true ∧ y.isZero = true) := by
  have defined : ∀ z : Binary64, z.isZero = true → z.isNaN = false := by
    intro z zero
    simp only [Binary64.isZero, Bool.and_eq_true, beq_iff_eq] at zero
    simp [Binary64.isNaN, zero.2]
  simp only [alikeNumbers, Binary64.equal, Bool.or_eq_true, Bool.and_eq_true, Bool.not_eq_true',
    beq_iff_eq]
  constructor
  · rintro (⟨-, same | zeros⟩ | undefined)
    · exact Or.inl same
    · exact Or.inr (Or.inr zeros)
    · exact Or.inr (Or.inl undefined)
  · rintro (rfl | undefined | zeros)
    · cases undefined : x.isNaN with
      | true => exact Or.inr ⟨rfl, rfl⟩
      | false => exact Or.inl ⟨⟨rfl, rfl⟩, Or.inl rfl⟩
    · exact Or.inr undefined
    · exact Or.inl ⟨⟨defined x zeros.1, defined y zeros.2⟩, Or.inr zeros⟩

theorem alikeNumbers_refl (x : Binary64) : alikeNumbers x x = true :=
  alikeNumbers_iff.mpr (Or.inl rfl)

theorem alikeNumbers_trans {x y z : Binary64} (first : alikeNumbers x y = true)
    (second : alikeNumbers y z = true) : alikeNumbers x z = true := by
  have apart : y.isNaN = true → y.isZero = true → False := by
    simp only [Binary64.isNaN, Binary64.isZero, Bool.and_eq_true, beq_iff_eq, bne_iff_ne]
    exact fun undefined zero => undefined.2 zero.2
  rcases alikeNumbers_iff.mp first with rfl | ⟨left, there⟩ | ⟨left, there⟩
  · exact second
  · rcases alikeNumbers_iff.mp second with rfl | ⟨-, right⟩ | ⟨zero, -⟩
    · exact first
    · exact alikeNumbers_iff.mpr (Or.inr (Or.inl ⟨left, right⟩))
    · exact (apart there zero).elim
  · rcases alikeNumbers_iff.mp second with rfl | ⟨undefined, -⟩ | ⟨-, right⟩
    · exact first
    · exact (apart undefined there).elim
    · exact alikeNumbers_iff.mpr (Or.inr (Or.inr ⟨left, right⟩))

theorem toInt_of_alikeNumbers {x y : Binary64} (equal : alikeNumbers x y = true) :
    y.toInt? = x.toInt? := by
  rcases alikeNumbers_iff.mp equal with rfl | ⟨left, right⟩ | ⟨left, right⟩
  · rfl
  · rw [Binary64.toInt_of_isNaN left, Binary64.toInt_of_isNaN right]
  · rw [Binary64.toInt_of_isZero left, Binary64.toInt_of_isZero right]

theorem isFinite_of_alikeNumbers {x y : Binary64} (equal : alikeNumbers x y = true) :
    y.isFinite = x.isFinite := by
  rcases alikeNumbers_iff.mp equal with rfl | ⟨left, right⟩ | ⟨left, right⟩
  · rfl
  · rw [Binary64.isFinite_of_isNaN left, Binary64.isFinite_of_isNaN right]
  · rw [Binary64.isFinite_of_toInt (Binary64.toInt_of_isZero left),
      Binary64.isFinite_of_toInt (Binary64.toInt_of_isZero right)]

theorem text_of_alikeNumbers {x y : Binary64} (equal : alikeNumbers x y = true)
    (nonzero : x.toInt? ≠ some 0) : y.text = x.text := by
  rcases alikeNumbers_iff.mp equal with rfl | ⟨left, right⟩ | ⟨left, -⟩
  · rfl
  · simp [Binary64.text, left, right]
  · exact absurd (Binary64.toInt_of_isZero left) nonzero

theorem alikeNumbers_ofInt {x : Binary64} {n : Int} (safe : safeInteger? x = some n) :
    alikeNumbers (.ofInt n) x = true := by
  obtain ⟨integral, small⟩ := safeInteger_eq_some.mp safe
  rcases Binary64.eq_ofInt_of_toInt integral (Nat.lt_succ_of_le small) with rfl | ⟨left, right⟩
  · exact alikeNumbers_refl _
  · exact alikeNumbers_iff.mpr (Or.inr (Or.inr ⟨right, left⟩))

theorem alike_refl {v : Value} (proper : v.Proper) : alike v v = true := by
  induction v using byParts with
  | scalar v plain =>
    cases v with
    | array => simp [isContainer] at plain
    | object => simp [isContainer] at plain
    | number x => exact alikeNumbers_refl x
    | temporal t => cases t <;> simp [alike, equalBy, Calendar.Temporal.equal]
    | _ => simp [alike, equalBy]
  | array origin items ih =>
    refine alike_array.mpr ⟨rfl, fun i a b left right => ?_⟩
    obtain rfl := Option.some.inj (left.symm.trans right)
    have member := List.mem_of_getElem? left
    exact ih a member (proper.items a member)
  | object origin entries ih =>
    refine alike_object.mpr ⟨rfl, fun key a member => ?_⟩
    exact ⟨a, Entries.get?_of_mem proper.distinct member,
      ih key a member (proper.entries key a member)⟩

private theorem alike_trans_scalar {a b c : Value} (plain : a.isContainer = false)
    (first : alike a b = true) (second : alike b c = true) : alike a c = true := by
  cases a with
  | array | object => simp [isContainer] at plain
  | number x =>
    cases b with
    | number y =>
      cases c with
      | number z => exact alikeNumbers_trans first second
      | _ => simp [alike, equalBy] at second
    | _ => simp [alike, equalBy] at first
  | temporal s =>
    cases b with
    | temporal t =>
      cases c with
      | temporal u => exact Calendar.Temporal.equal_trans first second
      | _ => simp [alike, equalBy] at second
    | _ => simp [alike, equalBy] at first
  | bigint o n =>
    cases b with
    | bigint p m =>
      obtain rfl : n = m := by simpa [alike, equalBy] using first
      cases c with
      | bigint => exact second
      | _ => simp [alike, equalBy] at second
    | _ => simp [alike, equalBy] at first
  | absent | null =>
    cases b <;> simp [alike, equalBy] at first
    exact second
  | bool | string | date =>
    cases b <;> simp only [alike, equalBy, beq_iff_eq, Bool.false_eq_true] at first
    exact first ▸ second

theorem alike_trans {a b c : Value} (first : alike a b = true) (second : alike b c = true) :
    alike a c = true := by
  induction a using byParts generalizing b c with
  | scalar a plain => exact alike_trans_scalar plain first second
  | array origin items ih =>
    cases b with
    | array =>
      cases c with
      | array =>
        obtain ⟨length, each⟩ := alike_array.mp first
        obtain ⟨length', each'⟩ := alike_array.mp second
        refine alike_array.mpr ⟨length.trans length', fun i x z found there => ?_⟩
        have within := length ▸ (List.getElem?_eq_some_iff.mp found).1
        have middle := List.getElem?_eq_getElem within
        exact ih x (List.mem_of_getElem? found) (each i x _ found middle) (each' i _ z middle there)
      | _ => simp [alike, equalBy] at second
    | _ => simp [alike, equalBy] at first
  | object origin entries ih =>
    cases b with
    | object =>
      cases c with
      | object =>
        obtain ⟨length, each⟩ := alike_object.mp first
        obtain ⟨length', each'⟩ := alike_object.mp second
        refine alike_object.mpr ⟨length.trans length', fun key x member => ?_⟩
        obtain ⟨y, found, left⟩ := each key x member
        obtain ⟨z, there, right⟩ := each' key y (Entries.mem_of_get? found)
        exact ⟨z, there, ih key x member left right⟩
      | _ => simp [alike, equalBy] at second
    | _ => simp [alike, equalBy] at first

theorem same_symm {a b : Value} (same : a.same b = true) : b.same a = true := by
  cases a with
  | absent | null =>
    cases b <;> first | rfl | cases same
  | temporal s =>
    cases b with
    | temporal t => exact Calendar.Temporal.equal_symm same
    | _ => cases same
  | _ =>
    cases b <;> simp only [Value.same, beq_iff_eq, Bool.false_eq_true] at same ⊢
    exact same.symm

theorem sharesHandle_comm (a b : Value) : a.sharesHandle b = b.sharesHandle a := by
  cases a <;> cases b <;> first | rfl | exact BEq.comm

theorem isAbsent_of_same {a b : Value} (same : a.same b = true) : a.isAbsent = b.isAbsent := by
  cases a <;> cases b <;> first | rfl | cases same

theorem alike_of_same {a b : Value} (tidy : a.Proper) (same : a.same b = true)
    (handle : a.sharesHandle b = true → a = b) : a.alike b = true := by
  by_cases shared : a.sharesHandle b = true
  · rw [← handle shared]
    exact alike_refl tidy
  · cases a with
    | number x =>
      cases b with
      | number y =>
        obtain rfl : x = y := by simpa [Value.same] using same
        exact alikeNumbers_refl x
      | _ => cases same
    | bigint | array | object => cases b <;> exact absurd same shared
    | _ => cases b <;> exact same

theorem alike_mapValues {o p : Origin} {f : String → Value → Value}
    {entries : List (String × Value)} (distinct : Entries.Distinct entries) :
    alike (.object o (Entries.mapValues f entries)) (.object p entries) = true ↔
      ∀ key a, (key, a) ∈ entries → alike (f key a) a = true := by
  rw [alike_object]
  constructor
  · rintro ⟨-, each⟩ key a member
    obtain ⟨b, found, equal⟩ := each key (f key a) (Entries.mem_mapValues.mpr ⟨a, member, rfl⟩)
    rw [Entries.get?_of_mem distinct member] at found
    exact Option.some.inj found ▸ equal
  · intro each
    refine ⟨by simp [Entries.mapValues], fun key b member => ?_⟩
    obtain ⟨a, there, rfl⟩ := Entries.mem_mapValues.mp member
    exact ⟨a, Entries.get?_of_mem distinct there, each key a there⟩

end WireSchema.Value
