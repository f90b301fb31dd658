import WireSchema.Proofs.Document
import WireSchema.Proofs.Leaf.RoundTrip

/-!
A leaf of a document that is read and written once is settled: where something is lost, such as
leading zeros, the digits of a date past the millisecond or the sign of a zero, it is lost the
first time.
-/

set_option autoImplicit false

namespace WireSchema

/-- The tree of what was written is settled: its value is read and written as the very same tree,
and nothing is converted then if nothing was at first. -/
structure Settled (read write : Conversion Fault) (v n w : Value) (json : Json) : Prop where
  proper : json.Proper
  again : ∀ origin fresh, (Value.ofJson origin json).Predates fresh →
    ∃ m, read fresh (.ofJson origin json) = .ok m ∧ ∀ fresh, m.Predates fresh →
      ∃ x, write fresh m = .ok x ∧ x.toJson = .ok json ∧
        (n = v → w = n → m = .ofJson origin json ∧ x = m)

namespace Leaf

open WireSchema.Text
open WireSchema.Value (ofJson numberJson safeInteger?)

variable {options : WriteOptions} {l : Leaf} {v n w : Value} {json : Json}

private theorem settled_kept (proper : json.Proper)
    (read : ∀ origin fresh, l.read fresh (ofJson origin json) = .ok (ofJson origin json))
    (written : ∀ origin, l.write options (ofJson origin json) = .ok (ofJson origin json))
    (tree : ∀ origin, (ofJson origin json).toJson = .ok json) :
    Settled l.read (fun _ => l.write options) v n w json :=
  ⟨proper, fun origin fresh _ => ⟨_, read origin fresh, fun _ _ =>
    ⟨_, written origin, tree origin, fun _ _ => ⟨rfl, rfl⟩⟩⟩⟩

private theorem settled_text {s : String} (other : w ≠ n)
    (again : ∀ fresh, ∃ m, l.read fresh (.string s) = .ok m ∧
      l.write options m = .ok (.string s)) :
    Settled l.read (fun _ => l.write options) v n w (.string s) := by
  refine ⟨.string s, fun origin fresh _ => ?_⟩
  obtain ⟨m, read, written⟩ := again fresh
  exact ⟨m, read, fun _ _ => ⟨.string s, written, rfl, fun _ same => absurd same other⟩⟩

private theorem settled_idle (idle : l.converts options = false) (plain : v.Plain)
    (tree : v.toJson = .ok json)
    (read : ∀ origin fresh, l.read fresh (ofJson origin json) = .ok (ofJson origin json)) :
    Settled l.read (fun _ => l.write options) v n w json := by
  obtain ⟨proper, again⟩ := plain.settled tree
  exact settled_kept proper read (fun _ => write_of_not_converts idle _) again

private theorem readInteger_settled {range : IntegerRange} {n : Value}
    (inside : ∀ i, range.least ≤ i → i ≤ range.greatest → i.natAbs ≤ Value.largestSafe)
    (done : readInteger range v = .ok n) (tree : v.toJson = .ok json) (origin : Origin) :
    readInteger range (ofJson origin json) = .ok (ofJson origin json) := by
  simp only [readInteger, bind_eq_ok] at done
  obtain ⟨x, number, checked⟩ := done
  obtain rfl : v = .number x := by
    cases v <;> simp_all [Value.asNumber, Value.mistyped]
  split at checked
  · simp at checked
  · next i integral =>
    split at checked
    · next ranged =>
      obtain ⟨-, y, value, -, -, same⟩ := Value.numberJson_settled tree
      have safe : safeInteger? x = some i :=
        Value.safeInteger_eq_some.mpr ⟨integral, inside i ranged.1 ranged.2⟩
      rw [value]
      exact readInteger_of_holds ⟨y, i, rfl, same i safe, ranged.1, ranged.2⟩
    · simp at checked

private theorem readNumber_of_text {x : Binary64} (infinite : x.isFinite = false) :
    ∃ y : Binary64, readNumber (.string x.text) = .ok (.number y) ∧ y.isFinite = false ∧
      y.text = x.text := by
  obtain ⟨y, read, alike⟩ := readNumber_text infinite
  have unbounded : y.isFinite = false := (Value.isFinite_of_alikeNumbers alike).symm.trans infinite
  have nonzero : y.toInt? ≠ some 0 := fun zero => by
    simp [Binary64.isFinite_of_toInt zero] at unbounded
  exact ⟨y, read, unbounded, (Value.text_of_alikeNumbers alike nonzero).symm⟩

private theorem settled_number {x : Binary64} (written : Leaf.number.write options (.number x) = .ok w)
    (tree : w.toJson = .ok json) :
    Settled Leaf.number.read (fun _ => Leaf.number.write options) v (.number x) w json := by
  have kept : w = .number x → Settled Leaf.number.read (fun _ => Leaf.number.write options) v
      (.number x) w json := by
    rintro rfl
    obtain ⟨proper, y, value, again, finite, -⟩ := Value.numberJson_settled tree
    refine settled_kept proper (fun origin fresh => ?_) (fun origin => ?_) (fun origin => ?_)
    · rw [value]
      rfl
    · rw [value]
      simp [write, writeNumber, finite]
    · rw [value]
      exact again
  cases passthrough : options.numberPassthrough with
  | true => exact kept (by simpa [write, passthrough, eq_comm] using written)
  | false =>
    cases finite : x.isFinite with
    | true => exact kept (by simpa [write, passthrough, writeNumber, finite, eq_comm] using written)
    | false =>
      obtain rfl : .string x.text = w := by
        simpa [write, passthrough, writeNumber, finite] using written
      obtain rfl := Except.ok.inj tree
      obtain ⟨y, read, infinite, text⟩ := readNumber_of_text finite
      refine settled_text (by simp) fun _ => ⟨.number y, read, ?_⟩
      simp [write, passthrough, writeNumber, infinite, text]

private theorem settled_bigint {i : Int} {origin : Origin}
    (read : ∀ fresh, l.read fresh (.string (integer i)) = .ok (.bigint fresh i))
    (written : ∀ origin i, l.write options (.bigint origin i) = .ok (.string (integer i)))
    (done : l.write options (.bigint origin i) = .ok w) (tree : w.toJson = .ok json) :
    Settled l.read (fun _ => l.write options) v (.bigint origin i) w json := by
  obtain rfl := Except.ok.inj ((written origin i).symm.trans done)
  obtain rfl := Except.ok.inj tree
  exact settled_text (by simp) fun fresh => ⟨.bigint fresh i, read fresh, written fresh i⟩

private theorem readDigitsIn_eq_ok {range : IntegerRange} {i : Int}
    (done : readDigitsIn range v = .ok i) : range.least ≤ i ∧ i ≤ range.greatest := by
  simp only [readDigitsIn, bind_eq_ok] at done
  obtain ⟨j, -, ranged⟩ := done
  split at ranged
  · next inside =>
    obtain rfl := Except.ok.inj ranged
    exact inside
  · simp at ranged

private theorem settled_bigintIn {range : IntegerRange} {fresh : Origin}
    (reads : ∀ fresh v, l.read fresh v = readBigintIn range fresh v)
    (writes : ∀ v, l.write options v = writeBigint v) (read : l.read fresh v = .ok n)
    (done : l.write options n = .ok w) (tree : w.toJson = .ok json) :
    Settled l.read (fun _ => l.write options) v n w json := by
  rw [reads] at read
  obtain ⟨i, found, rfl⟩ := map_eq_ok.mp read
  obtain ⟨least, greatest⟩ := readDigitsIn_eq_ok found
  refine settled_bigint (fun fresh => ?_) (fun origin i => ?_) done tree
  · rw [reads]
    exact map_eq_ok.mpr ⟨i, readDigitsIn_integer least greatest, rfl⟩
  · rw [writes]
    rfl

private theorem settled_date {s : String} {t : Calendar.DateTime} (read : dateOfText s = .ok t)
    (done : Leaf.date.write options (.date t) = .ok w) (tree : w.toJson = .ok json) :
    Settled Leaf.date.read (fun _ => Leaf.date.write options) v (.date t) w json := by
  cases passthrough : options.dateTimePassthrough with
  | true =>
    obtain rfl : .date t = w := by simpa [write, passthrough] using done
    simp [Value.toJson, Value.mistyped] at tree
  | false =>
    have written : ∀ t, Leaf.date.write options (.date t) = .ok (.string (Calendar.isoText t)) := by
      intro t
      rw [write, passthrough]
      rfl
    obtain rfl := Except.ok.inj ((written t).symm.trans done)
    obtain rfl := Except.ok.inj tree
    obtain ⟨t', again, text⟩ := exists_dateOfText_isoText read
    refine settled_text (by simp) fun _ => ⟨.date t', ?_, ?_⟩
    · show (dateOfText (Calendar.isoText t)).map Value.date = .ok (.date t')
      rw [again]
      rfl
    · rw [written, text]

private theorem settled_temporal {kind : TemporalKind} {s : String} {t : Calendar.Temporal}
    (read : temporalOfText kind s = .ok t)
    (done : (Leaf.temporal kind).write options (.temporal t) = .ok w)
    (tree : w.toJson = .ok json) :
    Settled (Leaf.temporal kind).read (fun _ => (Leaf.temporal kind).write options) v (.temporal t) w
      json := by
  have found : Calendar.Temporal.read? kind s.toList = some t := by
    unfold temporalOfText at read
    split at read
    · next found => rw [found, Except.ok.inj read]
    · simp at read
  cases passthrough : options.dateTimePassthrough with
  | true =>
    obtain rfl : .temporal t = w := by simpa [write, passthrough] using done
    simp [Value.toJson, Value.mistyped] at tree
  | false =>
    have written : (Leaf.temporal kind).write options (.temporal t) = .ok (.string t.text) := by
      rw [write, passthrough]
      exact writeTemporal_eq_ok.mpr ⟨t, rfl, (Calendar.Temporal.valid_of_read found).2, rfl⟩
    obtain rfl := Except.ok.inj (written.symm.trans done)
    obtain rfl := Except.ok.inj tree
    refine settled_text (by simp) fun _ => ⟨.temporal t, ?_, written⟩
    show (temporalOfText kind t.text).map Value.temporal = .ok (.temporal t)
    rw [temporalOfText, Calendar.Temporal.read_text_of_read found]
    rfl

theorem settled {fresh : Origin} (plain : v.Plain) (read : l.read fresh v = .ok n)
    (done : l.write options n = .ok w) (tree : w.toJson = .ok json) :
    Settled l.read (fun _ => l.write options) v n w json := by
  cases l with
  | bool =>
    cases plain with
    | bool b =>
      obtain rfl := Except.ok.inj read
      obtain rfl := Except.ok.inj done
      obtain rfl := Except.ok.inj tree
      exact settled_idle rfl (.bool b) rfl fun _ _ => rfl
    | _ => simp [Leaf.read, readBool, Value.mistyped] at read
  | string =>
    cases plain with
    | string s =>
      obtain rfl := Except.ok.inj read
      obtain rfl := Except.ok.inj done
      obtain rfl := Except.ok.inj tree
      exact settled_idle rfl (.string s) rfl fun _ _ => rfl
    | _ => simp [Leaf.read, readString, Value.mistyped] at read
  | int =>
    obtain rfl := Except.ok.inj done
    obtain rfl := readInteger_eq read
    exact settled_idle rfl plain tree fun origin _ =>
      readInteger_settled (by simp only [safeIntegers, Value.largestSafe]; omega) read tree origin
  | u32 =>
    obtain rfl := Except.ok.inj done
    obtain rfl := readInteger_eq read
    exact settled_idle rfl plain tree fun origin _ =>
      readInteger_settled (by simp only [natural32, Value.largestSafe]; omega) read tree origin
  | i32 =>
    obtain rfl := Except.ok.inj done
    obtain rfl := readInteger_eq read
    exact settled_idle rfl plain tree fun origin _ =>
      readInteger_settled (by simp only [signed32, Value.largestSafe]; omega) read tree origin
  | json =>
    obtain rfl := Except.ok.inj done
    obtain rfl := Except.ok.inj read
    exact settled_idle rfl plain tree fun _ _ => rfl
  | number =>
    obtain ⟨x, rfl⟩ := exists_number read
    exact settled_number done tree
  | bigint =>
    obtain ⟨i, -, rfl⟩ := map_eq_ok.mp read
    exact settled_bigint (fun fresh => map_eq_ok.mpr ⟨i, readDigits_integer _ i, rfl⟩)
      (fun _ _ => rfl) done tree
  | u64 => exact settled_bigintIn (fun _ _ => rfl) (fun _ => rfl) read done tree
  | i64 => exact settled_bigintIn (fun _ _ => rfl) (fun _ => rfl) read done tree
  | date =>
    cases plain with
    | string s =>
      obtain ⟨t, found, rfl⟩ := map_eq_ok.mp read
      exact settled_date found done tree
    | _ => simp [Leaf.read, readDate, Value.mistyped] at read
  | temporal kind =>
    cases plain with
    | string s =>
      obtain ⟨t, found, rfl⟩ := map_eq_ok.mp read
      exact settled_temporal found done tree
    | _ => simp [Leaf.read, readTemporal, Value.mistyped] at read

end Leaf

end WireSchema
