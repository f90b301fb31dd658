import WireSchema.Leaf.Conversion
import WireSchema.Proofs.Alike
import WireSchema.Proofs.Calendar.Temporal
import WireSchema.Proofs.Leaf.Dates
import WireSchema.Proofs.Leaf.Results

/-!
What a leaf writes of a value of its native type reads as an equal value, whatever the options.
-/

set_option autoImplicit false

namespace WireSchema.Leaf

open WireSchema.Text
open WireSchema.Calendar

def IntegerRange.Holds (range : IntegerRange) (v : Value) : Prop :=
  ∃ x n, v = .number x ∧ x.toInt? = some n ∧ range.least ≤ n ∧ n ≤ range.greatest

def Holds : Leaf → Value → Prop
  | .bool, v => ∃ b, v = .bool b
  | .string, v => ∃ s, v = .string s
  | .int, v => safeIntegers.Holds v
  | .u32, v => natural32.Holds v
  | .i32, v => signed32.Holds v
  | .json, _ => True
  | .number, v => ∃ x, v = .number x
  | .bigint, v => ∃ origin n, v = .bigint origin n
  | .u64, v => ∃ origin n, v = .bigint origin n ∧ natural64.least ≤ n ∧ n ≤ natural64.greatest
  | .i64, v => ∃ origin n, v = .bigint origin n ∧ signed64.least ≤ n ∧ n ≤ signed64.greatest
  | .date, v => ∃ t, v = .date t ∧ Sendable t
  | .temporal kind, v => ∃ t, v = .temporal t ∧ t.kind = kind ∧ t.Valid

/-- Writing succeeds, and what is written reads as an equal value. -/
structure RoundTrips (options : WriteOptions) (l : Leaf) (v : Value) : Prop where
  done : ∃ w, l.write options v = .ok w ∧ w.Proper ∧ (w = .absent ↔ v = .absent) ∧
    ∀ origin, ∃ n, l.read origin w = .ok n ∧ n.alike v = true

private theorem roundTrips_kept {options : WriteOptions} {l : Leaf} {v : Value} (proper : v.Proper)
    (written : l.write options v = .ok v) (read : ∀ origin, l.read origin v = .ok v) :
    RoundTrips options l v :=
  ⟨v, written, proper, Iff.rfl, fun origin => ⟨v, read origin, Value.alike_refl proper⟩⟩

private theorem roundTrips_text {options : WriteOptions} {l : Leaf} {v : Value} {s : String}
    (there : v ≠ .absent) (written : l.write options v = .ok (.string s))
    (read : ∀ origin, ∃ n, l.read origin (.string s) = .ok n ∧ n.alike v = true) :
    RoundTrips options l v :=
  ⟨.string s, written, .scalar rfl, by simp [there], read⟩

theorem readInteger_of_holds {range : IntegerRange} {v : Value} (held : range.Holds v) :
    readInteger range v = .ok v := by
  obtain ⟨x, n, rfl, integral, least, greatest⟩ := held
  simp only [readInteger, Value.asNumber, ok_bind, integral]
  rw [if_pos ⟨least, greatest⟩]
  rfl

theorem integerOfText_of_digits {ds : List Char} (some : ds ≠ [])
    (digits : ds.all Char.isDigit = true) :
    integerOfText? ds = .some (ofDigits ds : Int) ∧
      integerOfText? ('-' :: ds) = .some (-(ofDigits ds : Int)) := by
  constructor
  · unfold integerOfText?
    split
    next negative body sign =>
      split at sign
      · exact absurd (List.all_eq_true.mp digits '-' List.mem_cons_self) (by decide)
      · obtain ⟨rfl, rfl⟩ := Prod.mk.inj sign
        rw [if_pos ⟨some, digits⟩]
        rfl
  · unfold integerOfText?
    dsimp only
    rw [if_pos ⟨some, digits⟩]
    rfl

theorem integerOfText_integer (n : Int) : integerOfText? (integer n).toList = some n := by
  obtain ⟨plain, minus⟩ := integerOfText_of_digits (digits_ne_nil n.natAbs) (all_digits n.natAbs)
  rw [ofDigits_digits] at plain minus
  rw [toList_integer]
  by_cases negative : n < 0
  · rw [if_pos negative]
    exact minus.trans (congrArg some (by omega : -(n.natAbs : Int) = n))
  · rw [if_neg negative]
    exact plain.trans (congrArg some (by omega : (n.natAbs : Int) = n))

theorem readDigits_integer (kind : String) (n : Int) :
    readDigits kind (.string (integer n)) = .ok n := by
  rw [readDigits, integerOfText_integer]

theorem readDigitsIn_integer {range : IntegerRange} {n : Int} (least : range.least ≤ n)
    (greatest : n ≤ range.greatest) : readDigitsIn range (.string (integer n)) = .ok n := by
  rw [readDigitsIn, readDigits_integer, ok_bind, if_pos ⟨least, greatest⟩]
  rfl

private theorem alike_bigint (o p : Origin) (n : Int) :
    (Value.bigint o n).alike (.bigint p n) = true := by
  simp [Value.alike, Value.equalBy]

theorem readNumber_text {x : Binary64} (infinite : x.isFinite = false) :
    ∃ y, readNumber (.string x.text) = .ok (.number y) ∧ Value.alikeNumbers y x = true := by
  have exponent : x.exponent = 2047 := by simpa [Binary64.isFinite] using infinite
  cases undefined : x.isNaN with
  | true =>
    have text : x.text = "NaN" := by simp [Binary64.text, undefined]
    have nan : Binary64.nan.isNaN = true := rfl
    exact ⟨.nan, by rw [text]; rfl, by simp [Value.alikeNumbers, undefined, nan]⟩
  | false =>
    have whole : x = Binary64.infinity x.negative := by
      obtain ⟨negative, e, f⟩ := x
      simp only [Binary64.isNaN] at undefined exponent
      simp only [exponent, BEq.rfl, Bool.true_and, bne_eq_false_iff_eq] at undefined
      simp only [Binary64.infinity, exponent, Binary64.mk.injEq, true_and]
      exact Fin.ext undefined
    refine ⟨x, ?_, Value.alikeNumbers_refl x⟩
    have text : x.text = if x.negative then "-Infinity" else "Infinity" := by
      simp [Binary64.text, undefined, infinite]
    rw [text]
    cases negative : x.negative with
    | true => rw [whole, negative]; rfl
    | false => rw [whole, negative]; rfl

private theorem roundTrips_number (options : WriteOptions) (x : Binary64) :
    RoundTrips options .number (.number x) := by
  cases passthrough : options.numberPassthrough with
  | true => exact roundTrips_kept (.scalar rfl) (by simp [write, passthrough]) fun _ => rfl
  | false =>
    cases finite : x.isFinite with
    | true =>
      exact roundTrips_kept (.scalar rfl) (by simp [write, passthrough, writeNumber, finite])
        fun _ => rfl
    | false =>
      obtain ⟨y, read, alike⟩ := readNumber_text finite
      exact roundTrips_text (by simp) (by simp [write, passthrough, writeNumber, finite])
        fun _ => ⟨.number y, read, alike⟩

private theorem roundTrips_date (options : WriteOptions) {t : DateTime} (sendable : Sendable t) :
    RoundTrips options .date (.date t) := by
  cases passthrough : options.dateTimePassthrough with
  | true => exact roundTrips_kept (.scalar rfl) (by simp [write, passthrough]) fun _ => rfl
  | false =>
    refine roundTrips_text (by simp) (s := isoText t) (by simp [write, passthrough]; rfl) fun _ => ?_
    refine ⟨.date t, ?_, Value.alike_refl (.scalar rfl)⟩
    show (dateOfText (isoText t)).map Value.date = .ok (.date t)
    rw [dateOfText_isoText sendable]
    rfl

private theorem roundTrips_temporal (options : WriteOptions) {t : Temporal} (valid : t.Valid) :
    RoundTrips options (.temporal t.kind) (.temporal t) := by
  have kept : readTemporal t.kind (.temporal t) = .ok (.temporal t) := by
    rw [readTemporal, if_pos rfl]
  cases passthrough : options.dateTimePassthrough with
  | true => exact roundTrips_kept (.scalar rfl) (by simp [write, passthrough]) fun _ => kept
  | false =>
    have written : write options (.temporal t.kind) (.temporal t) = .ok (.string t.text) := by
      rw [write, if_neg (by simp [passthrough])]
      exact writeTemporal_eq_ok.mpr ⟨t, rfl, rfl, rfl⟩
    refine roundTrips_text (by simp) written fun _ => ?_
    refine ⟨.temporal t, ?_, Value.alike_refl (.scalar rfl)⟩
    show (temporalOfText t.kind t.text).map Value.temporal = .ok (.temporal t)
    rw [temporalOfText, Temporal.read_text valid]
    rfl

theorem roundTrips (options : WriteOptions) {l : Leaf} {v : Value} (proper : v.Proper)
    (holds : Holds l v) : RoundTrips options l v := by
  cases l with
  | bool =>
    obtain ⟨b, rfl⟩ := holds
    exact roundTrips_kept proper rfl fun _ => rfl
  | string =>
    obtain ⟨s, rfl⟩ := holds
    exact roundTrips_kept proper rfl fun _ => rfl
  | int => exact roundTrips_kept proper rfl fun _ => readInteger_of_holds holds
  | u32 => exact roundTrips_kept proper rfl fun _ => readInteger_of_holds holds
  | i32 => exact roundTrips_kept proper rfl fun _ => readInteger_of_holds holds
  | json => exact roundTrips_kept proper rfl fun _ => rfl
  | number =>
    obtain ⟨x, rfl⟩ := holds
    exact roundTrips_number options x
  | bigint =>
    obtain ⟨o, n, rfl⟩ := holds
    refine roundTrips_text (by simp) rfl fun origin => ⟨.bigint origin n, ?_, alike_bigint origin o n⟩
    exact map_eq_ok.mpr ⟨n, readDigits_integer _ n, rfl⟩
  | u64 =>
    obtain ⟨o, n, rfl, least, greatest⟩ := holds
    refine roundTrips_text (by simp) rfl fun origin => ⟨.bigint origin n, ?_, alike_bigint origin o n⟩
    exact map_eq_ok.mpr ⟨n, readDigitsIn_integer least greatest, rfl⟩
  | i64 =>
    obtain ⟨o, n, rfl, least, greatest⟩ := holds
    refine roundTrips_text (by simp) rfl fun origin => ⟨.bigint origin n, ?_, alike_bigint origin o n⟩
    exact map_eq_ok.mpr ⟨n, readDigitsIn_integer least greatest, rfl⟩
  | date =>
    obtain ⟨t, rfl, sendable⟩ := holds
    exact roundTrips_date options sendable
  | temporal kind =>
    obtain ⟨t, rfl, rfl, valid⟩ := holds
    exact roundTrips_temporal options valid

end WireSchema.Leaf
