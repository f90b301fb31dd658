import WireSchema.Proofs.Calendar.Offsets
import WireSchema.Proofs.Convert.Steady

/-!
What writing makes of values that count as the very same. They are one value, or they are one moment
in one zone, seen at two offsets. Only where a schema writes such a moment as text does the offset
show, so there, and there alone, the results differ.
-/

set_option autoImplicit false

namespace WireSchema

open WireSchema.Value (Resembles Unrepeated)

namespace Value

/-- The offset at which a moment in a zone was observed; other values have none. -/
def offset? : Value → Option Int
  | .temporal (.zonedDateTime z) => some z.moment.offset
  | _ => none

theorem eq_or_zoned_of_same {a b : Value} (same : a.same b = true)
    (handle : a.sharesHandle b = true → a = b) :
    a = b ∨ ∃ x y, a = .temporal (.zonedDateTime x) ∧ b = .temporal (.zonedDateTime y) ∧
      x.moment.utc = y.moment.utc ∧ x.zone = y.zone := by
  cases a with
  | temporal s =>
    cases b with
    | temporal t =>
      rcases Calendar.Temporal.equal_iff.mp same with rfl | ⟨x, y, rfl, rfl, moment, zone⟩
      · exact .inl rfl
      · exact .inr ⟨x, y, rfl, rfl, moment, zone⟩
    | _ => cases same
  | bigint | array | object =>
    cases b <;> first | cases same | exact .inl (handle same)
  | absent | null =>
    cases b <;> first | exact .inl rfl | cases same
  | bool | number | string | date =>
    cases b <;> simp only [Value.same, beq_iff_eq, Bool.false_eq_true] at same
    exact .inl (congrArg _ same)

theorem Resembles.proper {v w : Value} (alike : Resembles Unrepeated v w) : v.Proper := by
  induction alike with
  | scalar plain => exact .scalar plain
  | number _ => exact .scalar rfl
  | bigint => exact .scalar rfl
  | @array _ _ vs ws length _ ih =>
    refine .array fun item member => ?_
    obtain ⟨i, found⟩ := List.mem_iff_getElem?.mp member
    obtain ⟨other, there⟩ := exists_beside length.symm found
    exact ih i item other found there
  | @object _ _ es fs keys _ ih =>
    refine .object keys.left fun key value member => ?_
    rw [← property_of_mem keys.left member]
    exact ih key

end Value

/-- Two runs fail in the same way, or they succeed with results that are equal exactly under a
condition. -/
inductive EqualIff (condition : Prop) : Except Fault Value → Except Fault Value → Prop where
  | ok {r s : Value} : (r.alike s = true ↔ condition) → EqualIff condition (.ok r) (.ok s)
  | failed (fault : Fault) : EqualIff condition (.error fault) (.error fault)

namespace Schema

variable {options : WriteOptions} {v r : Value}

def writesZoned (options : WriteOptions) : Schema → Bool
  | .leaf (.temporal .zonedDateTime) => !options.dateTimePassthrough
  | .option inner => inner.writesZoned options
  | _ => false

theorem proper_of_write {schema : Schema} (proper : v.Proper)
    (done : schema.write options v = .ok r) : r.Proper := by
  have inward : Convert.Inward fun _ _ => False := fun _ _ _ => False.elim
  have steady := writer_steady options inward schema (Value.resembles_stripped proper)
    v.predates_freshOrigin v.stripped.predates_freshOrigin
  have done : schema.writer options v.freshOrigin v = .ok r := done
  rw [done] at steady
  generalize schema.writer options v.stripped.freshOrigin v.stripped = y at steady
  cases steady with
  | ok paired => exact paired.alike.proper

open WireSchema.Calendar (Zoned)

variable {x y : Zoned}

private theorem equalIff_leaf (l : Leaf) (small : x.moment.offset.natAbs < 86400)
    (small' : y.moment.offset.natAbs < 86400) (moment : x.moment.utc = y.moment.utc)
    (zone : x.zone = y.zone) :
    EqualIff (writesZoned options (.leaf l) = true → x.moment.offset = y.moment.offset)
      (l.write options (.temporal (.zonedDateTime x)))
      (l.write options (.temporal (.zonedDateTime y))) := by
  have equal : (Value.temporal (.zonedDateTime x)).alike (.temporal (.zonedDateTime y)) = true :=
    Calendar.Temporal.equal_iff.mpr (.inr ⟨x, y, rfl, rfl, moment, zone⟩)
  have kept (text : writesZoned options (.leaf l) ≠ true) :
      EqualIff (writesZoned options (.leaf l) = true → x.moment.offset = y.moment.offset)
        (.ok (.temporal (.zonedDateTime x))) (.ok (.temporal (.zonedDateTime y))) :=
    .ok (iff_of_true equal fun written => absurd written text)
  cases l with
  | bool | string | int | u32 | i32 | json => exact kept (by simp [writesZoned])
  | bigint | u64 | i64 => exact .failed _
  | number =>
    simp only [Leaf.write]
    split
    · exact kept (by simp [writesZoned])
    · exact .failed _
  | date =>
    simp only [Leaf.write]
    split
    · exact kept (by simp [writesZoned])
    · exact .failed _
  | temporal kind =>
    simp only [Leaf.write]
    split
    · next passed => exact kept (by cases kind <;> simp [writesZoned, passed])
    · next written =>
      cases kind with
      | zonedDateTime =>
        have text : writesZoned options (.leaf (.temporal .zonedDateTime)) = true := by
          simp [writesZoned, written]
        refine .ok ⟨fun same _ => ?_, fun same => ?_⟩
        · have texts : String.ofList x.text = String.ofList y.text := by
            simpa [Value.alike, Value.equalBy, Calendar.Temporal.text] using same
          exact (Zoned.text_inj small small' moment zone).mp (String.ofList_injective texts)
        · have texts := (Zoned.text_inj small small' moment zone).mpr (same text)
          simp [Value.alike, Value.equalBy, Calendar.Temporal.text, texts]
      | _ => exact .failed _

private theorem equalIff_zoned (schema : Schema) (fresh : Origin)
    (small : x.moment.offset.natAbs < 86400) (small' : y.moment.offset.natAbs < 86400)
    (moment : x.moment.utc = y.moment.utc) (zone : x.zone = y.zone) :
    EqualIff (schema.writesZoned options = true → x.moment.offset = y.moment.offset)
      (schema.writer options fresh (.temporal (.zonedDateTime x)))
      (schema.writer options fresh (.temporal (.zonedDateTime y))) := by
  induction schema using byLayout with
  | leaf l => exact equalIff_leaf l small small' moment zone
  | option inner ih => exact ih
  | array | tuple | object | choice => exact .failed _

/-- Values that are the very same are written in the same way, unless a schema writes moments in a zone
as text: then what is written of two of these is equal exactly if they were seen at one offset. -/
theorem write_of_same (options : WriteOptions) (schema : Schema) {a b : Value} (proper : a.Proper)
    (same : a.same b = true) (handle : a.sharesHandle b = true → a = b)
    (small : ∀ offset ∈ a.offset?, offset.natAbs < 86400)
    (small' : ∀ offset ∈ b.offset?, offset.natAbs < 86400) :
    EqualIff (schema.writesZoned options = true → a.offset? = b.offset?)
      (schema.write options a) (schema.write options b) := by
  rcases Value.eq_or_zoned_of_same same handle with rfl | ⟨x, y, rfl, rfl, moment, zone⟩
  · cases done : schema.write options a with
    | error fault => exact .failed fault
    | ok r => exact .ok (iff_of_true (Value.alike_refl (proper_of_write proper done)) fun _ => rfl)
  · have written : EqualIff (schema.writesZoned options = true → x.moment.offset = y.moment.offset)
        (schema.write options (.temporal (.zonedDateTime x)))
        (schema.write options (.temporal (.zonedDateTime y))) :=
      equalIff_zoned schema _ (small _ rfl) (small' _ rfl) moment zone
    simpa only [Value.offset?, Option.some.injEq] using written

def morning (offset : Int) : Zoned :=
  ⟨⟨⟨⟨2023, 11, 5, by decide⟩, ⟨23400, 0, by decide⟩⟩, offset⟩, "UTC"⟩

def morningAt (offset : Int) : Value :=
  .temporal (.zonedDateTime (morning offset))

theorem write_of_same_morning :
    ((morningAt 0).Proper ∧ (morningAt 0).same (morningAt 3600) = true ∧
      (morningAt 0).sharesHandle (morningAt 3600) = false) ∧
      EqualIff ((Schema.option (.leaf (.temporal .zonedDateTime))).writesZoned .off = true →
          (morningAt 0).offset? = (morningAt 3600).offset?)
        (Schema.write .off (.option (.leaf (.temporal .zonedDateTime))) (morningAt 0))
        (Schema.write .off (.option (.leaf (.temporal .zonedDateTime))) (morningAt 3600)) := by
  have proper : (morningAt 0).Proper := .scalar rfl
  have same : (morningAt 0).same (morningAt 3600) = true := by decide
  refine ⟨⟨proper, same, rfl⟩, write_of_same _ _ proper same (fun handle => ?_) (fun offset seen => ?_)
    fun offset seen => ?_⟩
  · exact absurd handle (by decide)
  · obtain rfl : 0 = offset := Option.some.inj seen
    decide
  · obtain rfl : 3600 = offset := Option.some.inj seen
    decide

/-- One moment seen at two offsets is the very same, though it is written in two ways; and a property
that is changed from the one to the other is left as it was. -/
theorem same_morning_differs :
    (morningAt 0).same (morningAt 3600) = true ∧
      (∃ r s, Schema.write .off (.leaf (.temporal .zonedDateTime)) (morningAt 0) = .ok r ∧
        Schema.write .off (.leaf (.temporal .zonedDateTime)) (morningAt 3600) = .ok s ∧
          r.alike s = false) ∧
      Update.properties (.root 1) [("z", fun _ => (.ok (morningAt 3600) : Except Fault Value))]
        (.root 0) [("z", morningAt 0)] = .ok (.object (.root 0) [("z", morningAt 0)]) := by
  refine ⟨by decide, ⟨_, _, rfl, rfl, ?_⟩, rfl⟩
  refine beq_eq_false_iff_ne.mpr fun same => ?_
  have texts : (morning 0).text = (morning 3600).text := String.ofList_injective same
  have apart := Zoned.text_inj (x := morning 0) (y := morning 3600) (by decide) (by decide) rfl rfl
  exact absurd (apart.mp texts) (by decide)

end Schema

end WireSchema
