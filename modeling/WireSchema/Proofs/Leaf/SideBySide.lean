import WireSchema.Proofs.Convert.SideBySide
import WireSchema.Proofs.Leaf.Results

/-!
The leaves, side by side: each does the same with values that resemble each other. Of two such
values only zeros have different texts, and no fault of a leaf shows one, since zero is in every
range.
-/

set_option autoImplicit false

namespace WireSchema.Leaf

open WireSchema.Convert
open WireSchema.Value (Resembles Unrepeated Bared alikeNumbers)

variable {blame : Fault → Prop} {fresh fresh' : Origin} {v w n : Value}

private theorem concur_scalar {x : Except Fault Value}
    (plain : ∀ n, x = .ok n → n.isContainer = false) : Concur (Paired v v) blame x x := by
  cases x with
  | ok n => exact .ok ⟨.scalar (plain n rfl), rfl⟩
  | error fault => exact .failed fault

private theorem concur_kept (alike : Resembles Bared v w) :
    Concur (Paired v w) blame (.ok v) (.ok w) :=
  .ok (paired_kept alike)

private theorem paired_bigint (text : v.sharesHandle v = false) (i : Int) :
    Paired v v (.bigint fresh i) (.bigint fresh' i) := by
  refine ⟨.bigint, ?_⟩
  cases v with
  | bigint => simp [Value.sharesHandle] at text
  | _ => rfl

private theorem concur_bigint {x : Except Fault Int} (text : ∀ i, x = .ok i → isText v = true) :
    Concur (Paired v v) blame (x.map (Value.bigint fresh)) (x.map (Value.bigint fresh')) := by
  cases x with
  | ok i =>
    have text := text i rfl
    refine .ok (paired_bigint ?_ i)
    cases v with
    | string s => rfl
    | _ => simp [isText] at text
  | error fault => exact .failed fault

private theorem concur_readInteger {range : IntegerRange} {x y : Binary64}
    (zero : range.least ≤ 0 ∧ 0 ≤ range.greatest) (equal : alikeNumbers x y = true) :
    Concur (Paired (.number x) (.number y)) blame (readInteger range (.number x))
      (readInteger range (.number y)) := by
  have integral := Value.toInt_of_alikeNumbers equal
  have text := Value.text_of_alikeNumbers equal
  simp only [readInteger, Value.asNumber, ok_bind, integral]
  cases whole : x.toInt? with
  | none =>
    dsimp only
    rw [text (by simp [whole])]
    exact .failed _
  | some i =>
    dsimp only
    split
    · exact concur_kept (.number equal)
    · next outside =>
      have nonzero : i ≠ 0 := by
        rintro rfl
        exact outside zero
      rw [text (by simpa [whole] using nonzero)]
      exact .failed _

private theorem concur_trustBigint {x y : Binary64} (equal : alikeNumbers x y = true) :
    Concur (Paired (.number x) (.number y)) blame (.ok (trustBigint fresh (.number x)))
      (.ok (trustBigint fresh' (.number y))) := by
  have same : Value.safeInteger? y = Value.safeInteger? x := by
    rw [Value.safeInteger?, Value.toInt_of_alikeNumbers equal, Value.safeInteger?]
  simp only [trustBigint, same]
  cases Value.safeInteger? x with
  | some i => exact .ok ⟨.bigint, rfl⟩
  | none => exact concur_kept (.number equal)

private theorem concur_writeNumber {x y : Binary64} (equal : alikeNumbers x y = true) :
    Concur (Paired (.number x) (.number y)) blame (writeNumber (.number x))
      (writeNumber (.number y)) := by
  have finite := Value.isFinite_of_alikeNumbers equal
  have text := Value.text_of_alikeNumbers equal
  simp only [writeNumber, finite]
  cases bounded : x.isFinite with
  | true => exact concur_kept (.number equal)
  | false =>
    have nonzero : x.toInt? ≠ some 0 := fun zero => by
      simp [Binary64.isFinite_of_toInt zero] at bounded
    simp only [Bool.false_eq_true, if_false, text nonzero]
    exact .ok ⟨.scalar rfl, rfl⟩

theorem read_steady (excused : Value → Fault → Prop) (l : Leaf) : Steady excused l.read := by
  intro fresh fresh' v w alike _ _
  cases alike with
  | scalar plain =>
    have scalar : ∀ n, l.read fresh v = .ok n → n.isContainer = false := by
      intro n done
      rcases eq_or_text_of_read done with rfl | ⟨text, -⟩
      · exact plain
      · cases v with
        | string s => exact (scalar_of_read_text done).1
        | _ => simp [isText] at text
    cases l with
    | bigint => exact concur_bigint fun i done => isText_of_readDigits done
    | u64 | i64 =>
      exact concur_bigint fun i done => isText_of_readDigits (readDigits_of_range done)
    | _ => exact concur_scalar scalar
  | number equal =>
    cases l with
    | json | number => exact concur_kept (.number equal)
    | int | u32 | i32 => exact concur_readInteger (by decide) equal
    | _ => exact .failed _
  | bigint =>
    cases l with
    | json => exact concur_kept .bigint
    | _ => exact .failed _
  | array length each =>
    cases l with
    | json => exact concur_kept (.array length each)
    | _ => exact .failed _
  | object keys each =>
    cases l with
    | json => exact concur_kept (.object keys each)
    | _ => exact .failed _

private theorem concur_trustText (trust : Value → Value)
    (text : ∀ s, (trust (.string s)).isContainer = false)
    (other : ∀ v, isText v = false → trust v = v) (alike : Resembles Bared v w) :
    Concur (Paired v w) blame (.ok (trust v)) (.ok (trust w)) := by
  have texts : isText w = isText v := by cases alike <;> rfl
  cases textual : isText v with
  | false =>
    rw [other v textual, other w (texts.trans textual)]
    exact concur_kept alike
  | true =>
    cases v with
    | string s =>
      obtain rfl := alike.string_eq
      exact concur_scalar fun n done => Except.ok.inj done ▸ text s
    | _ => simp [isText] at textual

private theorem concur_trustNumber (alike : Resembles Bared v w) :
    Concur (Paired v w) blame (.ok (trustNumber v)) (.ok (trustNumber w)) := by
  cases alike with
  | scalar plain =>
    refine concur_scalar fun n done => ?_
    rw [← Except.ok.inj done]
    cases v <;> rfl
  | number equal => exact concur_kept (.number equal)
  | bigint | array _ _ | object _ _ => exact .ok ⟨.scalar rfl, rfl⟩

theorem trust_steady (excused : Value → Fault → Prop) (l : Leaf) :
    Steady excused fun fresh v => .ok (l.trust fresh v) := by
  intro fresh fresh' v w alike _ _
  cases l with
  | bool | string | int | u32 | i32 | json => exact concur_kept alike
  | number => exact concur_trustNumber alike
  | bigint | u64 | i64 =>
    cases alike with
    | scalar plain =>
      cases v with
      | string s =>
        simp only [trust, trustBigint]
        split
        · exact .ok (paired_bigint rfl _)
        · exact concur_kept (.scalar rfl)
      | number x => exact concur_trustBigint (Value.alikeNumbers_refl x)
      | _ => exact concur_kept (.scalar plain)
    | number equal => exact concur_trustBigint equal
    | bigint => exact concur_kept .bigint
    | array length each => exact concur_kept (.array length each)
    | object keys each => exact concur_kept (.object keys each)
  | date =>
    refine concur_trustText trustDate (fun s => ?_) (fun v other => ?_) alike
    · simp only [trustDate]
      split <;> rfl
    · cases v with
      | string => simp [isText] at other
      | _ => rfl
  | temporal kind =>
    refine concur_trustText (trustTemporal kind) (fun s => ?_) (fun v other => ?_) alike
    · simp only [trustTemporal]
      split <;> rfl
    · cases v with
      | string => simp [isText] at other
      | _ => rfl

theorem write_steady (excused : Value → Fault → Prop) (options : WriteOptions) (l : Leaf) :
    Steady excused fun _ v => l.write options v := by
  intro fresh fresh' v w alike _ _
  have scalar : v.isContainer = false → ∀ n, l.write options v = .ok n → n.isContainer = false := by
    intro plain n done
    rcases eq_or_text_of_write done with rfl | ⟨-, -, text⟩
    · exact plain
    · cases n with
      | string s => rfl
      | _ => simp [isText] at text
  dsimp only
  cases converts : l.converts options with
  | false =>
    rw [write_of_not_converts converts, write_of_not_converts converts]
    exact concur_kept alike
  | true =>
    rw [write_of_converts converts] at scalar
    rw [write_of_converts converts, write_of_converts converts]
    cases alike with
    | scalar plain => exact concur_scalar (scalar plain)
    | number equal =>
      cases l with
      | number => exact concur_writeNumber equal
      | bigint | u64 | i64 | date | temporal _ => exact .failed _
      | _ => exact concur_kept (.number equal)
    | bigint =>
      cases l with
      | bigint | u64 | i64 => exact .ok ⟨.scalar rfl, rfl⟩
      | number | date | temporal _ => exact .failed _
      | _ => exact concur_kept .bigint
    | array length each =>
      cases l with
      | number | bigint | u64 | i64 | date | temporal _ => exact .failed _
      | _ => exact concur_kept (.array length each)
    | object keys each =>
      cases l with
      | number | bigint | u64 | i64 | date | temporal _ => exact .failed _
      | _ => exact concur_kept (.object keys each)

end WireSchema.Leaf
