import Mathlib.Algebra.Group.Nat.Defs
import WireSchema.Value.Document

/-!
Integers among the binary numbers: those of at most 53 bits are held exactly, each but zero by one
number only, and those of at most 64 bits do not become infinite.
-/

set_option autoImplicit false

namespace WireSchema.Binary64

theorem roundHalfEven_one (n : Nat) : roundHalfEven n 1 = n := by
  have rest : n % 1 = 0 := Nat.mod_one n
  simp only [roundHalfEven, rest, Nat.div_one]
  exact if_pos (by decide)

theorem roundHalfEven_le (num den : Nat) : roundHalfEven num den ≤ num / den + 1 := by
  simp only [roundHalfEven]
  repeat' split
  all_goals omega

theorem floorLog2_one {n : Nat} (nonzero : n ≠ 0) : floorLog2 n 1 = n.log2 := by
  have one : (1 : Nat).log2 = 0 := by decide
  have reached : 1 * Nat.pow 2 n.log2 ≤ n := by
    rw [Nat.one_mul]
    exact Nat.log2_self_le nonzero
  simp only [floorLog2, one, Int.natCast_zero, Int.sub_zero, Int.natCast_nonneg, if_true,
    Int.toNat_natCast, reached]

/-- The significand of a natural number of at most 53 bits: its digits moved up to 53 of them. -/
def shifted (n : Nat) : Nat :=
  n * 2 ^ (52 - n.log2)

theorem log2_le {n : Nat} (small : n < 2 ^ 53) : n.log2 ≤ 52 := by
  by_cases zero : n = 0
  · subst zero
    decide
  · have := (Nat.log2_lt zero).mpr small
    omega

theorem shifted_bounds {n : Nat} (nonzero : n ≠ 0) (small : n < 2 ^ 53) :
    fractionCount ≤ shifted n ∧ shifted n < 2 * fractionCount := by
  have places := log2_le small
  have whole (k : Nat) : 2 ^ (n.log2 + k) * 2 ^ (52 - n.log2) = 2 ^ (52 + k) := by
    rw [← Nat.pow_add]
    congr 1
    omega
  constructor
  · calc fractionCount = 2 ^ n.log2 * 2 ^ (52 - n.log2) := (whole 0).symm
      _ ≤ shifted n := Nat.mul_le_mul_right _ (Nat.log2_self_le nonzero)
  · calc shifted n < 2 ^ (n.log2 + 1) * 2 ^ (52 - n.log2) :=
        Nat.mul_lt_mul_of_pos_right Nat.lt_log2_self (Nat.two_pow_pos _)
      _ = 2 * fractionCount := whole 1

theorem nearest_natural (negative : Bool) {n : Nat} (nonzero : n ≠ 0) (small : n < 2 ^ 53) :
    nearest negative n 1 = ofMagnitudeCode negative ((n.log2 + 1022) * fractionCount + shifted n) := by
  have places := log2_le small
  have unit : max (floorLog2 n 1 - 52) (-1074) = (n.log2 : Int) - 52 := by
    rw [floorLog2_one nonzero]
    omega
  have biased : ((n.log2 : Int) - 52 + 1074).toNat = n.log2 + 1022 := by omega
  simp only [nearest, if_neg nonzero, unit, biased]
  congr 2
  split
  · have full : n.log2 = 52 := by omega
    have still : ((n.log2 : Int) - 52).toNat = 0 := by omega
    have one : 1 * Nat.pow 2 0 = 1 := rfl
    rw [still, one, shifted, full, Nat.sub_self, Nat.pow_zero, Nat.mul_one]
    exact roundHalfEven_one n
  · have up : (-((n.log2 : Int) - 52)).toNat = 52 - n.log2 := by omega
    rw [up]
    exact roundHalfEven_one _

private theorem packed {exponent m : Nat} (bounded : exponent ≤ 1074) (least : fractionCount ≤ m)
    (most : m < 2 * fractionCount) :
    exponent * fractionCount + m < 2047 * fractionCount ∧
      (exponent * fractionCount + m) / fractionCount % 2048 = exponent + 1 ∧
      fractionCount + (exponent * fractionCount + m) % fractionCount = m := by
  simp only [fractionCount] at least most ⊢
  omega

theorem nearest_eq (negative : Bool) {n : Nat} (nonzero : n ≠ 0) (small : n < 2 ^ 53) :
    ∃ exponent fraction, nearest negative n 1 = ⟨negative, exponent, fraction⟩ ∧
      exponent.val = n.log2 + 1023 ∧ fractionCount + fraction.val = shifted n := by
  obtain ⟨least, most⟩ := shifted_bounds nonzero small
  have places := log2_le small
  obtain ⟨finite, quotient, remainder⟩ :=
    packed (by omega : n.log2 + 1022 ≤ 1074) least most
  exact ⟨_, _, by rw [nearest_natural negative nonzero small, ofMagnitudeCode, if_pos finite],
    quotient, remainder⟩

theorem toNat_zero (negative : Bool) : (zero negative).toNat? = some 0 := by
  have finite : (zero negative).isFinite = true := rfl
  have significand : (zero negative).significand = 0 := rfl
  have small : ¬0 ≤ (zero negative).scale := (by decide : ¬(0 : Int) ≤ (max 1 0 : Nat) - 1075)
  rw [toNat?, if_pos finite, if_neg small, significand]
  simp only [Nat.zero_mod, Nat.zero_div, if_true]

theorem toNat_nearest (negative : Bool) {n : Nat} (small : n < 2 ^ 53) :
    (nearest negative n 1).toNat? = some n := by
  by_cases zero : n = 0
  · subst zero
    exact toNat_zero negative
  · obtain ⟨exponent, fraction, fields, biased, value⟩ := nearest_eq negative zero small
    have places := log2_le small
    have finite : (⟨negative, exponent, fraction⟩ : Binary64).isFinite = true := by
      simp only [isFinite, bne_iff_ne, ne_eq]
      intro last
      rw [last] at biased
      have : (2047 : Nat) = n.log2 + 1023 := biased
      omega
    have significand : (⟨negative, exponent, fraction⟩ : Binary64).significand = shifted n := by
      have normal : exponent ≠ 0 := by
        rintro rfl
        have : (0 : Nat) = n.log2 + 1023 := biased
        omega
      rw [Binary64.significand, if_neg normal]
      exact value
    have scale : (⟨negative, exponent, fraction⟩ : Binary64).scale = (n.log2 : Int) - 52 := by
      simp only [Binary64.scale, biased]
      omega
    rw [fields, toNat?, if_pos finite, significand, scale]
    split
    · have full : n.log2 = 52 := by omega
      have still : ((n.log2 : Int) - 52).toNat = 0 := by omega
      rw [still, shifted, full]
      show some (n * 1 * 1) = some n
      rw [Nat.mul_one, Nat.mul_one]
    · have up : (-((n.log2 : Int) - 52)).toNat = 52 - n.log2 := by omega
      have cut : shifted n % Nat.pow 2 (52 - n.log2) = 0 := Nat.mul_mod_left _ _
      have back : shifted n / Nat.pow 2 (52 - n.log2) = n :=
        Nat.mul_div_cancel _ (Nat.two_pow_pos _)
      simp only [up, cut, back, if_true]

theorem toInt_ofInt {n : Int} (small : n.natAbs < 2 ^ 53) : (ofInt n).toInt? = some n := by
  have natural := toNat_nearest (decide (n < 0)) small
  have sign : (ofInt n).negative = decide (n < 0) := by
    by_cases zero : n.natAbs = 0
    · obtain rfl := Int.natAbs_eq_zero.mp zero
      rfl
    · obtain ⟨_, _, fields, -⟩ := nearest_eq (decide (n < 0)) zero small
      rw [ofInt, fields]
  have natural : (ofInt n).toNat? = some n.natAbs := natural
  rw [toInt?, sign, natural]
  by_cases negative : n < 0
  · simp only [negative, decide_true, if_true]
    exact congrArg some (by omega : -(n.natAbs : Int) = n)
  · simp only [negative, decide_false, Bool.false_eq_true, if_false]
    exact congrArg some (by omega : (n.natAbs : Int) = n)

theorem isFinite_of_toInt {x : Binary64} {n : Int} (integral : x.toInt? = some n) :
    x.isFinite = true := by
  cases finite : x.isFinite with
  | true => rfl
  | false => simp [toInt?, toNat?, finite] at integral

theorem isFinite_of_isNaN {x : Binary64} (undefined : x.isNaN = true) : x.isFinite = false := by
  simp only [isNaN, Bool.and_eq_true, beq_iff_eq] at undefined
  simp [isFinite, undefined.1]

theorem toInt_of_isNaN {x : Binary64} (undefined : x.isNaN = true) : x.toInt? = none := by
  simp [toInt?, toNat?, isFinite_of_isNaN undefined]

theorem toInt_of_isZero {x : Binary64} (nothing : x.isZero = true) : x.toInt? = some 0 := by
  obtain ⟨negative, exponent, fraction⟩ := x
  simp only [isZero, Bool.and_eq_true, beq_iff_eq] at nothing
  obtain ⟨rfl, empty⟩ := nothing
  obtain rfl : fraction = Fin.ofNat fractionCount 0 := Fin.ext empty
  have natural : (zero negative).toNat? = some 0 := toNat_zero negative
  change (zero negative).toInt? = some 0
  rw [toInt?, natural]
  simp

theorem log2_add_of_bounds {n k : Nat} (least : fractionCount ≤ n * 2 ^ k)
    (most : n * 2 ^ k < 2 * fractionCount) : n.log2 + k = 52 := by
  have nonzero : n ≠ 0 := by
    rintro rfl
    rw [Nat.zero_mul] at least
    exact absurd least (by decide)
  have scaled : n * 2 ^ k < 2 ^ (n.log2 + 1 + k) := by
    rw [Nat.pow_add]
    exact Nat.mul_lt_mul_of_pos_right Nat.lt_log2_self (Nat.two_pow_pos k)
  have reached : 2 ^ (n.log2 + k) ≤ n * 2 ^ k := by
    rw [Nat.pow_add]
    exact Nat.mul_le_mul_right _ (Nat.log2_self_le nonzero)
  have above : 52 < n.log2 + 1 + k :=
    (Nat.pow_lt_pow_iff_right (by decide : 1 < 2)).mp (Nat.lt_of_le_of_lt least scaled)
  have below : n.log2 + k < 53 :=
    (Nat.pow_lt_pow_iff_right (by decide : 1 < 2)).mp (Nat.lt_of_le_of_lt reached most)
  omega

theorem toNat_eq_some {x : Binary64} {n : Nat} (value : x.toNat? = some n) :
    (0 ≤ x.scale ∧ n = x.significand * 2 ^ x.scale.toNat) ∨
      x.scale < 0 ∧ x.significand = n * 2 ^ (-x.scale).toNat := by
  unfold toNat? at value
  split at value
  · split at value
    · next up => exact Or.inl ⟨up, (Option.some.inj value).symm⟩
    · next down =>
      dsimp only at value
      split at value
      · next even =>
        refine Or.inr ⟨Int.not_le.mp down, ?_⟩
        rw [← Option.some.inj value]
        exact (Nat.div_mul_cancel (Nat.dvd_of_mod_eq_zero even)).symm
      · simp at value
  · simp at value

theorem fields_of_toNat {x : Binary64} {n : Nat} (value : x.toNat? = some n) (nonzero : n ≠ 0)
    (small : n < 2 ^ 53) :
    x.exponent.val = n.log2 + 1023 ∧ fractionCount + x.fraction.val = shifted n := by
  have fraction := x.fraction.isLt
  by_cases subnormal : x.exponent = 0
  · have scale : x.scale = -1074 := by
      rw [Binary64.scale, subnormal]
      rfl
    have significand : x.significand = x.fraction.val := if_pos subnormal
    rcases toNat_eq_some value with ⟨up, -⟩ | ⟨-, split⟩
    · omega
    · have far : 52 ≤ (-x.scale).toNat := by omega
      have large : 2 ^ 52 ≤ n * 2 ^ (-x.scale).toNat :=
        Nat.le_trans (Nat.pow_le_pow_right (by decide) far)
          (Nat.le_mul_of_pos_left _ (Nat.pos_of_ne_zero nonzero))
      rw [significand] at split
      exact absurd (split ▸ fraction) (Nat.not_lt.mpr large)
  · have significand : x.significand = fractionCount + x.fraction.val := if_neg subnormal
    have scale : x.scale = (x.exponent.val : Int) - 1075 := by
      have normal : x.exponent.val ≠ 0 := fun zero => subnormal (Fin.ext zero)
      rw [Binary64.scale]
      omega
    obtain ⟨k, split, places⟩ : ∃ k, x.significand = n * 2 ^ k ∧ x.exponent.val + k = 1075 := by
      rcases toNat_eq_some value with ⟨up, whole⟩ | ⟨down, split⟩
      · have still : x.scale.toNat = 0 := by
          refine Nat.eq_zero_of_not_pos fun more => ?_
          have twice : 2 ^ 1 ≤ 2 ^ x.scale.toNat := Nat.pow_le_pow_right (by decide) more
          have large : x.significand * 2 ≤ n := whole ▸ Nat.mul_le_mul_left _ twice
          have size : fractionCount = 4503599627370496 := rfl
          omega
        refine ⟨0, ?_, by omega⟩
        rw [whole, still, Nat.pow_zero, Nat.mul_one, Nat.mul_one]
      · exact ⟨_, split, by omega⟩
    have digits : n.log2 + k = 52 := by
      refine log2_add_of_bounds ?_ ?_
      · omega
      · omega
    refine ⟨by omega, ?_⟩
    have moved : 52 - n.log2 = k := by omega
    rw [← significand, split, shifted, moved]

theorem isZero_of_toNat {x : Binary64} (value : x.toNat? = some 0) : x.isZero = true := by
  have nothing : x.significand = 0 := by
    rcases toNat_eq_some value with ⟨-, whole⟩ | ⟨-, split⟩
    · rcases Nat.mul_eq_zero.mp whole.symm with zero | power
      · exact zero
      · exact absurd power (Nat.ne_of_gt (Nat.two_pow_pos _))
    · rw [split, Nat.zero_mul]
  unfold significand at nothing
  split at nothing
  · next subnormal => simp [isZero, subnormal, nothing]
  · simp only [fractionCount] at nothing
    omega

/-- A number that is an integer of at most 53 bits is the one that holds this integer; only zero is
held by two. -/
theorem eq_ofInt_of_toInt {x : Binary64} {n : Int} (integral : x.toInt? = some n)
    (small : n.natAbs < 2 ^ 53) : x = ofInt n ∨ x.isZero = true ∧ (ofInt n).isZero = true := by
  obtain ⟨magnitude, natural, rfl⟩ : ∃ m, x.toNat? = some m ∧
      (if x.negative then -(m : Int) else m) = n := by
    cases natural : x.toNat? with
    | none => simp [toInt?, natural] at integral
    | some m => exact ⟨m, rfl, by simpa [toInt?, natural] using integral⟩
  have size : (if x.negative then -(magnitude : Int) else magnitude).natAbs = magnitude := by
    split <;> omega
  rw [size] at small
  by_cases zero : magnitude = 0
  · subst zero
    refine Or.inr ⟨isZero_of_toNat natural, ?_⟩
    cases x.negative <;> rfl
  · have sign : decide ((if x.negative then -(magnitude : Int) else magnitude) < 0) = x.negative := by
      cases x.negative with
      | true => simp; omega
      | false => simp
    obtain ⟨biased, digits⟩ := fields_of_toNat natural zero small
    obtain ⟨exponent, fraction, fields, biased', digits'⟩ := nearest_eq x.negative zero small
    refine Or.inl ?_
    rw [ofInt, sign, size, fields]
    obtain ⟨negative, e, f⟩ := x
    have exponents : e = exponent := Fin.ext (biased.trans biased'.symm)
    have fractions : f = fraction := Fin.ext (Nat.add_left_cancel (digits.trans digits'.symm))
    rw [exponents, fractions]

private theorem isFinite_ofMagnitudeCode (negative : Bool) {exponent m : Nat}
    (bounded : exponent ≤ 1085) (small : m ≤ 2 ^ 53) :
    (ofMagnitudeCode negative (exponent * fractionCount + m)).isFinite = true := by
  have small : m ≤ 2 * fractionCount := small
  have code : exponent * fractionCount + m < 2047 * fractionCount := by
    simp only [fractionCount] at small ⊢
    omega
  have below : (exponent * fractionCount + m) / fractionCount < 2047 :=
    Nat.div_lt_of_lt_mul (by rw [Nat.mul_comm fractionCount]; exact code)
  have field : (exponent * fractionCount + m) / fractionCount % 2048 =
      (exponent * fractionCount + m) / fractionCount :=
    Nat.mod_eq_of_lt (Nat.lt_trans below (by decide))
  rw [ofMagnitudeCode, if_pos code]
  simp only [isFinite, bne_iff_ne, ne_eq, Fin.ext_iff]
  show ¬(exponent * fractionCount + m) / fractionCount % 2048 = 2047
  rw [field]
  exact Nat.ne_of_lt below

theorem isFinite_ofInt {n : Int} (small : n.natAbs < 2 ^ 64) : (ofInt n).isFinite = true := by
  by_cases zero : n.natAbs = 0
  · obtain rfl := Int.natAbs_eq_zero.mp zero
    rfl
  · by_cases exact : n.natAbs < 2 ^ 53
    · exact isFinite_of_toInt (toInt_ofInt exact)
    · have low : 53 ≤ n.natAbs.log2 := (Nat.le_log2 zero).mpr (Nat.not_lt.mp exact)
      have high : n.natAbs.log2 < 64 := (Nat.log2_lt zero).mpr small
      have unit : max (floorLog2 n.natAbs 1 - 52) (-1074) = (n.natAbs.log2 : Int) - 52 := by
        rw [floorLog2_one zero]
        omega
      have up : ((n.natAbs.log2 : Int) - 52).toNat = n.natAbs.log2 - 52 := by omega
      have quotient : n.natAbs / (1 * Nat.pow 2 (n.natAbs.log2 - 52)) < 2 ^ 53 := by
        rw [Nat.one_mul]
        refine Nat.div_lt_of_lt_mul ?_
        calc n.natAbs < 2 ^ (n.natAbs.log2 + 1) := Nat.lt_log2_self
          _ = 2 ^ (n.natAbs.log2 - 52) * 2 ^ 53 := by
            rw [← Nat.pow_add]
            congr 1
            omega
      have rounded := roundHalfEven_le n.natAbs (1 * Nat.pow 2 (n.natAbs.log2 - 52))
      have biased : ((n.natAbs.log2 : Int) - 52 + 1074).toNat = n.natAbs.log2 + 1022 := by omega
      simp only [ofInt, nearest, if_neg zero, unit, up, biased]
      rw [if_pos (by omega)]
      exact isFinite_ofMagnitudeCode _ (by omega) (by omega)

end WireSchema.Binary64

namespace WireSchema.Value

theorem safeInteger_eq_some {x : Binary64} {n : Int} :
    safeInteger? x = some n ↔ x.toInt? = some n ∧ n.natAbs ≤ largestSafe := by
  unfold safeInteger?
  cases x.toInt? with
  | none => simp
  | some m =>
    simp only [Option.ite_none_right_eq_some, Option.some.injEq]
    constructor
    · rintro ⟨small, rfl⟩
      exact ⟨rfl, small⟩
    · rintro ⟨rfl, small⟩
      exact ⟨small, rfl⟩

theorem safeInteger_ofInt {n : Int} (small : n.natAbs ≤ largestSafe) :
    safeInteger? (.ofInt n) = some n :=
  safeInteger_eq_some.mpr ⟨Binary64.toInt_ofInt (Nat.lt_succ_of_le small), small⟩

end WireSchema.Value
