import WireSchema.Leaf.Conversion
import WireSchema.Proofs.Outcome
import WireSchema.Proofs.Content

/-!
What the conversions of a leaf give: the very value they are given, or something of another type,
text being turned into a value or a value into text.
-/

set_option autoImplicit false

namespace WireSchema.Leaf

theorem readDigits_of_range {range : IntegerRange} {v : Value} {n : Int}
    (done : readDigitsIn range v = .ok n) : readDigits range.name v = .ok n := by
  simp only [readDigitsIn, bind_eq_ok] at done
  obtain ⟨m, found, within⟩ := done
  split at within
  · exact Except.ok.inj within ▸ found
  · simp at within

theorem readInteger_eq {range : IntegerRange} {v n : Value}
    (done : readInteger range v = .ok n) : v = n := by
  simp only [readInteger, bind_eq_ok] at done
  obtain ⟨x, -, checked⟩ := done
  split at checked
  · simp at checked
  · split at checked
    · exact Except.ok.inj checked
    · simp at checked

def isText : Value → Bool
  | .string _ => true
  | _ => false

theorem exists_number {v n : Value} (done : readNumber v = .ok n) : ∃ x, n = .number x := by
  unfold readNumber at done
  split at done
  · exact ⟨_, (Except.ok.inj done).symm⟩
  · dsimp only at done
    split at done
    · split at done
      · exact ⟨_, (Except.ok.inj done).symm⟩
      · simp at done
    · simp at done
  · simp [Value.mistyped] at done

theorem isText_of_readDigits {kind : String} {v : Value} {n : Int}
    (done : readDigits kind v = .ok n) : isText v = true := by
  unfold readDigits at done
  split at done
  · rfl
  · simp [Value.mistyped] at done

private theorem eq_or_text_of_readBigint {outcome : Except Fault Int} {kind : String}
    {origin : Origin} {v n : Value}
    (digits : ∀ m, outcome = .ok m → readDigits kind v = .ok m)
    (done : outcome.map (Value.bigint origin) = .ok n) :
    n = v ∨ isText v = true ∧ isText n = false := by
  obtain ⟨m, found, rfl⟩ := map_eq_ok.mp done
  exact Or.inr ⟨isText_of_readDigits (digits m found), rfl⟩

theorem eq_or_text_of_read {l : Leaf} {origin : Origin} {v n : Value}
    (done : l.read origin v = .ok n) : n = v ∨ isText v = true ∧ isText n = false := by
  cases l with
  | bool => cases v <;> simp_all [read, readBool, Value.mistyped]
  | string => cases v <;> simp_all [read, readString, Value.mistyped]
  | int => exact Or.inl (readInteger_eq done).symm
  | u32 => exact Or.inl (readInteger_eq done).symm
  | i32 => exact Or.inl (readInteger_eq done).symm
  | json => exact Or.inl (Except.ok.inj done).symm
  | number =>
    simp only [read, readNumber] at done
    split at done
    · exact Or.inl (Except.ok.inj done).symm
    · split at done
      · split at done
        · exact Or.inr ⟨rfl, Except.ok.inj done ▸ rfl⟩
        · simp at done
      · simp at done
    · simp [Value.mistyped] at done
  | bigint => exact eq_or_text_of_readBigint (fun _ found => found) done
  | u64 => exact eq_or_text_of_readBigint (fun _ found => readDigits_of_range found) done
  | i64 => exact eq_or_text_of_readBigint (fun _ found => readDigits_of_range found) done
  | date =>
    simp only [read, readDate] at done
    split at done
    · exact Or.inl (Except.ok.inj done).symm
    · obtain ⟨t, -, rfl⟩ := map_eq_ok.mp done
      exact Or.inr ⟨rfl, rfl⟩
    · simp [Value.mistyped] at done
  | temporal kind =>
    simp only [read, readTemporal] at done
    split at done
    · split at done
      · exact Or.inl (Except.ok.inj done).symm
      · simp [Value.mistyped] at done
    · obtain ⟨t, -, rfl⟩ := map_eq_ok.mp done
      exact Or.inr ⟨rfl, rfl⟩
    · simp [Value.mistyped] at done

theorem scalar_of_read_text {l : Leaf} {origin : Origin} {s : String} {n : Value}
    (done : l.read origin (.string s) = .ok n) : n.isContainer = false ∧ n ≠ .absent := by
  cases l with
  | bool => simp [read, readBool, Value.mistyped] at done
  | string | json => exact Except.ok.inj done ▸ ⟨rfl, by simp⟩
  | int | u32 | i32 => exact readInteger_eq done ▸ ⟨rfl, by simp⟩
  | number =>
    have done : readNumber (.string s) = .ok n := done
    obtain ⟨x, rfl⟩ := exists_number done
    exact ⟨rfl, by simp⟩
  | bigint | u64 | i64 | date | temporal _ =>
    obtain ⟨_, -, rfl⟩ := map_eq_ok.mp done
    exact ⟨rfl, by simp⟩

private theorem eq_or_text_of_writeNumber {v w : Value} (done : writeNumber v = .ok w) :
    w = v ∨ v ≠ .absent ∧ isText v = false ∧ isText w = true := by
  unfold writeNumber at done
  split at done
  · split at done
    · exact Or.inl (Except.ok.inj done).symm
    · exact Or.inr ⟨by simp, rfl, Except.ok.inj done ▸ rfl⟩
  · simp [Value.mistyped] at done

theorem asBigint_eq_ok {v : Value} {n : Int} :
    v.asBigint = .ok n ↔ ∃ origin, v = .bigint origin n := by
  cases v <;> simp [Value.asBigint, Value.mistyped]

theorem asDate_eq_ok {v : Value} {t : Calendar.DateTime} : v.asDate = .ok t ↔ v = .date t := by
  cases v <;> simp [Value.asDate, Value.mistyped]

theorem asTemporal_eq_ok {kind : TemporalKind} {v : Value} {t : Calendar.Temporal} :
    v.asTemporal kind = .ok t ↔ v = .temporal t ∧ t.kind = kind := by
  cases v with
  | temporal s =>
    by_cases right : s.kind = kind
    · simp only [Value.asTemporal, if_pos right, Except.ok.injEq, Value.temporal.injEq]
      exact ⟨fun same => ⟨same, same ▸ right⟩, And.left⟩
    · simp only [Value.asTemporal, if_neg right, Value.mistyped, reduceCtorEq, false_iff,
        Value.temporal.injEq]
      rintro ⟨rfl, same⟩
      exact right same
  | _ => simp [Value.asTemporal, Value.mistyped]

theorem writeBigint_eq_ok {v w : Value} :
    writeBigint v = .ok w ↔ ∃ origin n, v = .bigint origin n ∧ w = .string (Text.integer n) := by
  rw [writeBigint, bind_eq_ok]
  constructor
  · rintro ⟨n, found, built⟩
    obtain ⟨origin, rfl⟩ := asBigint_eq_ok.mp found
    exact ⟨origin, n, rfl, (Except.ok.inj built).symm⟩
  · rintro ⟨origin, n, rfl, rfl⟩
    exact ⟨n, rfl, rfl⟩

theorem writeDate_eq_ok {v w : Value} :
    writeDate v = .ok w ↔ ∃ t, v = .date t ∧ w = .string (Calendar.isoText t) := by
  rw [writeDate, bind_eq_ok]
  constructor
  · rintro ⟨t, found, built⟩
    exact ⟨t, asDate_eq_ok.mp found, (Except.ok.inj built).symm⟩
  · rintro ⟨t, rfl, rfl⟩
    exact ⟨t, rfl, rfl⟩

theorem writeTemporal_eq_ok {kind : TemporalKind} {v w : Value} :
    writeTemporal kind v = .ok w ↔
      ∃ t, v = .temporal t ∧ t.kind = kind ∧ w = .string t.text := by
  rw [writeTemporal, bind_eq_ok]
  constructor
  · rintro ⟨t, found, built⟩
    obtain ⟨shape, right⟩ := asTemporal_eq_ok.mp found
    exact ⟨t, shape, right, (Except.ok.inj built).symm⟩
  · rintro ⟨t, shape, right, rfl⟩
    exact ⟨t, asTemporal_eq_ok.mpr ⟨shape, right⟩, rfl⟩

/-- A leaf is written as itself, or as a text if it is something. -/
theorem write_of_not_converts {options : WriteOptions} {l : Leaf}
    (idle : l.converts options = false) (v : Value) : l.write options v = .ok v := by
  cases l with
  | number => exact if_pos (by simpa [converts] using idle)
  | date => exact if_pos (by simpa [converts] using idle)
  | temporal kind => exact if_pos (by simpa [converts] using idle)
  | bigint | u64 | i64 => simp [converts] at idle
  | bool | string | int | u32 | i32 | json => rfl

/-- Where a leaf is converted at all, the options do not matter. -/
theorem write_of_converts {options : WriteOptions} {l : Leaf} (busy : l.converts options = true)
    (v : Value) : l.write options v = l.write .off v := by
  cases l with
  | number => exact if_neg (by simpa [converts] using busy)
  | date => exact if_neg (by simpa [converts] using busy)
  | temporal kind => exact if_neg (by simpa [converts] using busy)
  | bigint | u64 | i64 | bool | string | int | u32 | i32 | json => rfl

theorem eq_or_text_of_write {options : WriteOptions} {l : Leaf} {v w : Value}
    (done : l.write options v = .ok w) :
    w = v ∨ v ≠ .absent ∧ isText v = false ∧ isText w = true := by
  cases l with
  | bool | string | int | u32 | i32 | json => exact Or.inl (Except.ok.inj done).symm
  | number =>
    simp only [write] at done
    split at done
    · exact Or.inl (Except.ok.inj done).symm
    · exact eq_or_text_of_writeNumber done
  | bigint | u64 | i64 =>
    obtain ⟨_, _, rfl, rfl⟩ := writeBigint_eq_ok.mp done
    exact Or.inr ⟨by simp, rfl, rfl⟩
  | date =>
    simp only [write] at done
    split at done
    · exact Or.inl (Except.ok.inj done).symm
    · obtain ⟨_, rfl, rfl⟩ := writeDate_eq_ok.mp done
      exact Or.inr ⟨by simp, rfl, rfl⟩
  | temporal kind =>
    simp only [write] at done
    split at done
    · exact Or.inl (Except.ok.inj done).symm
    · obtain ⟨_, rfl, -, rfl⟩ := writeTemporal_eq_ok.mp done
      exact Or.inr ⟨by simp, rfl, rfl⟩

theorem exists_read_at {l : Leaf} {o : Origin} {v n : Value} (done : l.read o v = .ok n)
    (p : Origin) : ∃ m, l.read p v = .ok m ∧ m.content = n.content := by
  have remade : ∀ {outcome : Except Fault Int} {n : Value},
      outcome.map (Value.bigint o) = .ok n →
        ∃ m, outcome.map (Value.bigint p) = .ok m ∧ m.content = n.content := by
    intro outcome n done
    obtain ⟨i, rfl, rfl⟩ := map_eq_ok.mp done
    exact ⟨.bigint p i, rfl, rfl⟩
  cases l with
  | bigint | u64 | i64 => exact remade done
  | _ => exact ⟨n, done, rfl⟩

theorem isText_eq_of_content {a b : Value} (alike : a.content = b.content) :
    isText a = isText b := by
  have keeps : ∀ v : Value, isText v.content = isText v := fun v => by cases v <;> rfl
  rw [← keeps a, ← keeps b, alike]

theorem alike_eq_false_of_text {a b : Value} (left : isText a = false) (right : isText b = true) :
    a.alike b = false := by
  cases b with
  | string s =>
    cases a with
    | string t => simp [isText] at left
    | _ => rfl
  | _ => simp [isText] at right

theorem same_eq_false_of_text {a b : Value} (left : isText a = true) (right : isText b = false) :
    a.same b = false ∧ b.same a = false := by
  cases a with
  | string s =>
    cases b with
    | string t => simp [isText] at right
    | _ => exact ⟨rfl, rfl⟩
  | _ => simp [isText] at left

/-- What a leaf finds wrong with a value: its type, its text or its size. Where the value is, it
leaves to others. -/
inductive Unfit : Fault → Prop where
  | mistyped (expected found : String) : Unfit (.of (.invalidType expected found))
  | format (kind text : String) : Unfit (.of (.invalidFormat kind text))
  | range (kind value : String) : Unfit (.of (.outOfRange kind value))

section Faults

variable {fault : Fault} {v : Value}

theorem unfit_of_mistyped {α : Type} {expected : String}
    (failed : (v.mistyped expected : Except Fault α) = .error fault) : Unfit fault :=
  Except.error.inj failed ▸ .mistyped _ _

private theorem unfit_of_format {α : Type} {kind s : String}
    (failed : (.error (.of (.invalidFormat kind s)) : Except Fault α) = .error fault) :
    Unfit fault :=
  Except.error.inj failed ▸ .format _ _

private theorem unfit_readInteger {range : IntegerRange}
    (failed : readInteger range v = .error fault) : Unfit fault := by
  rcases bind_eq_error.mp failed with failed | ⟨x, -, failed⟩
  · cases v with
    | number x => simp [Value.asNumber] at failed
    | _ => exact unfit_of_mistyped failed
  · split at failed
    · exact unfit_of_format failed
    · split at failed
      · simp at failed
      · exact Except.error.inj failed ▸ .range _ _

private theorem unfit_readNumber (failed : readNumber v = .error fault) : Unfit fault := by
  unfold readNumber at failed
  split at failed
  · simp at failed
  · dsimp only at failed
    split at failed
    · split at failed
      · simp at failed
      · exact unfit_of_format failed
    · exact unfit_of_format failed
  · exact unfit_of_mistyped failed

private theorem unfit_readDigits {kind : String} (failed : readDigits kind v = .error fault) :
    Unfit fault := by
  unfold readDigits at failed
  split at failed
  · split at failed
    · simp at failed
    · exact unfit_of_format failed
  · exact unfit_of_mistyped failed

private theorem unfit_readDigitsIn {range : IntegerRange}
    (failed : readDigitsIn range v = .error fault) : Unfit fault := by
  rcases bind_eq_error.mp failed with failed | ⟨n, -, failed⟩
  · exact unfit_readDigits failed
  · split at failed
    · simp at failed
    · exact Except.error.inj failed ▸ .range _ _

private theorem unfit_readDate (failed : readDate v = .error fault) : Unfit fault := by
  unfold readDate at failed
  split at failed
  · simp at failed
  · have failed := map_eq_error.mp failed
    unfold dateOfText at failed
    dsimp only at failed
    split at failed
    · split at failed
      · simp at failed
      · exact unfit_of_format failed
    · exact unfit_of_format failed
  · exact unfit_of_mistyped failed

private theorem unfit_readTemporal {kind : TemporalKind}
    (failed : readTemporal kind v = .error fault) : Unfit fault := by
  unfold readTemporal at failed
  split at failed
  · split at failed
    · simp at failed
    · exact unfit_of_mistyped failed
  · have failed := map_eq_error.mp failed
    unfold temporalOfText at failed
    split at failed
    · simp at failed
    · exact unfit_of_format failed
  · exact unfit_of_mistyped failed

theorem unfit_of_read {l : Leaf} {origin : Origin} (failed : l.read origin v = .error fault) :
    Unfit fault := by
  cases l with
  | bool => cases v <;> first | exact unfit_of_mistyped failed | simp [read, readBool] at failed
  | string => cases v <;> first | exact unfit_of_mistyped failed | simp [read, readString] at failed
  | json => simp [read] at failed
  | int | u32 | i32 => exact unfit_readInteger failed
  | number => exact unfit_readNumber failed
  | bigint => exact unfit_readDigits (map_eq_error.mp failed)
  | u64 | i64 => exact unfit_readDigitsIn (map_eq_error.mp failed)
  | date => exact unfit_readDate failed
  | temporal kind => exact unfit_readTemporal failed

end Faults

end WireSchema.Leaf
