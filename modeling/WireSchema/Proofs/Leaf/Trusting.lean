import WireSchema.Proofs.Leaf.Results
import WireSchema.Proofs.Text.Blank

/-!
Where the checked reading of a leaf gives a value, the unchecked one gives the same: the texts that
are let through have no blanks to trim, and the looser grammars spell the same values.
-/

set_option autoImplicit false

namespace WireSchema.Leaf

open WireSchema.Text

private theorem solid_dropFraction {cs tail : List Char} (cut : dropFraction? cs = some tail)
    (solid : Solid tail) : Solid cs := by
  unfold dropFraction? at cut
  split at cut
  · next rest =>
    split at cut
    · simp at cut
    · next ds after _ split =>
      obtain rfl := Option.some.inj cut
      obtain ⟨rfl, digits, -⟩ := spanDigits_eq split
      exact ((solid_of_digits digits).append solid).cons (by decide)
  · exact Option.some.inj cut ▸ solid

private theorem solid_exponent {cs : List Char} (exponent : isExponent cs = true) : Solid cs := by
  unfold isExponent at exponent
  split at exponent
  · next rest =>
    simp only [Bool.and_eq_true] at exponent
    refine Solid.cons (by decide) ?_
    split at exponent
    · exact (solid_of_digits exponent.2).cons (by decide)
    · exact (solid_of_digits exponent.2).cons (by decide)
    · exact solid_of_digits exponent.2
  · simp at exponent

private theorem solid_unsignedNumber {cs : List Char} (number : isUnsignedNumber cs = true) :
    Solid cs := by
  unfold isUnsignedNumber at number
  cases cut : spanDigits cs with
  | mk whole rest =>
    obtain ⟨rfl, digits, -⟩ := spanDigits_eq cut
    have front := solid_of_digits digits
    simp only [cut] at number
    split at number
    · simp at number
    · simp at number
    · next tail fraction =>
      refine front.append (solid_dropFraction fraction ?_)
      rcases Bool.or_eq_true_iff.mp number with done | exponent
      · simp [List.isEmpty_iff.mp done, Solid]
      · exact solid_exponent exponent
    · next tail fraction =>
      refine front.append (solid_dropFraction fraction ?_)
      simp only [Bool.and_eq_true] at number
      simp [List.isEmpty_iff.mp number.2, Solid]

theorem solid_numberText {cs : List Char} (number : isNumberText cs = true) : Solid cs := by
  simp only [isNumberText, Bool.or_eq_true, beq_iff_eq] at number
  rcases number with ((rfl | rfl) | rfl) | number
  · decide
  · decide
  · decide
  · split at number
    · exact (solid_unsignedNumber number).cons (by decide)
    · exact solid_unsignedNumber number

private theorem looseInteger_of_digits {ds : List Char} (some : ds ≠ [])
    (digits : ds.all Char.isDigit = true) :
    looseInteger? ds = .some (ofDigits ds : Int) ∧
      looseInteger? ('-' :: ds) = .some (-(ofDigits ds : Int)) := by
  cases ds with
  | nil => exact absurd rfl some
  | cons first more =>
    have front : first.isDigit = true := List.all_eq_true.mp digits first List.mem_cons_self
    have back : (more.all fun c => c.isDigit || c == '_') = true :=
      List.all_eq_true.mpr fun c member => by
        simp [List.all_eq_true.mp digits c (List.mem_cons_of_mem _ member)]
    have every : (first :: more).filter Char.isDigit = first :: more :=
      List.filter_eq_self.mpr (List.all_eq_true.mp digits)
    have positive : first ≠ '+' := by rintro rfl; revert front; decide
    have unsigned : first ≠ '-' := by rintro rfl; revert front; decide
    constructor
    · simp [looseInteger?, positive, unsigned, front, back, every]
    · simp [looseInteger?, front, back, every]

theorem looseInteger_of_strict {cs : List Char} {n : Int} (strict : integerOfText? cs = some n) :
    Solid cs ∧ looseInteger? cs = some n := by
  unfold integerOfText? at strict
  split at strict
  next negative ds sign =>
    split at strict
    · next form =>
      obtain ⟨plain, minus⟩ := looseInteger_of_digits form.1 form.2
      have solid := solid_of_digits form.2
      split at sign
      · next rest =>
        obtain ⟨rfl, rfl⟩ := Prod.mk.inj sign
        exact ⟨solid.cons (by decide), minus.trans strict⟩
      · obtain ⟨rfl, rfl⟩ := Prod.mk.inj sign
        exact ⟨solid, plain.trans strict⟩
    · simp at strict

theorem trustNumber_of_read {v n : Value} (done : readNumber v = .ok n) : trustNumber v = n := by
  unfold readNumber at done
  split at done
  · exact Except.ok.inj done
  · next s =>
    dsimp only at done
    split at done
    · next number =>
      split at done
      · next x spelt =>
        rw [← Except.ok.inj done, trustNumber, trim_of_solid (solid_numberText number), spelt]
        rfl
      · simp at done
    · simp at done
  · simp [Value.mistyped] at done

theorem trustBigint_of_digits {kind : String} {origin : Origin} {v : Value} {n : Int}
    (done : readDigits kind v = .ok n) : trustBigint origin v = .bigint origin n := by
  unfold readDigits at done
  split at done
  · next s =>
    split at done
    · next m spelt =>
      obtain rfl := Except.ok.inj done
      obtain ⟨solid, loose⟩ := looseInteger_of_strict spelt
      rw [trustBigint, trim_of_solid solid, loose]
    · simp at done
  · simp [Value.mistyped] at done

theorem trustDate_of_read {v n : Value} (done : readDate v = .ok n) : trustDate v = n := by
  unfold readDate at done
  split at done
  · exact Except.ok.inj done
  · next s =>
    obtain ⟨t, found, rfl⟩ := map_eq_ok.mp done
    simp only [dateOfText] at found
    split at found
    · split at found
      · next moment spelt =>
        rw [← Except.ok.inj found, trustDate, spelt]
      · simp at found
    · simp at found
  · simp [Value.mistyped] at done

theorem trustTemporal_of_read {kind : TemporalKind} {v n : Value}
    (done : readTemporal kind v = .ok n) : trustTemporal kind v = n := by
  unfold readTemporal at done
  split at done
  · split at done
    · exact Except.ok.inj done
    · simp [Value.mistyped] at done
  · next s =>
    obtain ⟨t, found, rfl⟩ := map_eq_ok.mp done
    simp only [temporalOfText] at found
    split at found
    · next temporal spelt =>
      rw [← Except.ok.inj found, trustTemporal, spelt]
    · simp at found
  · simp [Value.mistyped] at done

/-- Trusting a leaf gives what reading it gives. -/
theorem trust_eq_of_read {l : Leaf} {origin : Origin} {v n : Value}
    (done : l.read origin v = .ok n) : l.trust origin v = n := by
  cases l with
  | bool => cases v <;> simp_all [read, trust, readBool, Value.mistyped]
  | string => cases v <;> simp_all [read, trust, readString, Value.mistyped]
  | int => exact readInteger_eq done
  | u32 => exact readInteger_eq done
  | i32 => exact readInteger_eq done
  | json => exact Except.ok.inj done
  | number => exact trustNumber_of_read done
  | bigint =>
    obtain ⟨m, found, rfl⟩ := map_eq_ok.mp done
    exact trustBigint_of_digits found
  | u64 =>
    obtain ⟨m, found, rfl⟩ := map_eq_ok.mp done
    exact trustBigint_of_digits (readDigits_of_range found)
  | i64 =>
    obtain ⟨m, found, rfl⟩ := map_eq_ok.mp done
    exact trustBigint_of_digits (readDigits_of_range found)
  | date => exact trustDate_of_read done
  | temporal kind => exact trustTemporal_of_read done

end WireSchema.Leaf
