import WireSchema.Proofs.Generated.Collapse
import WireSchema.Proofs.Generated.Reading

/-!
What a writer that is left out leaves behind. A part that is left alone hands the program on as it
got it, so that a container of such parts has nothing to import for them; whether a container is left
alone is decided before anything is imported for itself.
-/

set_option autoImplicit false

namespace WireSchema.Generated

variable {options : WriteOptions}

theorem idle_iff {schema : Schema} : schema.idle options = true ↔
    ∀ l, Within (.leaf l) schema → l.converts options = false := by
  induction schema using Schema.byParts with
  | leaf l =>
    rw [Schema.idle, Bool.not_eq_true']
    constructor
    · rintro plain _ ⟨⟩
      exact plain
    · exact fun plain => plain l .here
  | option inner ih =>
    rw [Schema.idle, ih]
    constructor
    · intro plain l within
      cases within with
      | option within => exact plain l within
    · exact fun plain l within => plain l (.option within)
  | array item ih =>
    rw [Schema.idle, ih]
    constructor
    · intro plain l within
      cases within with
      | array within => exact plain l within
    · exact fun plain l within => plain l (.array within)
  | tuple elems ih =>
    rw [Schema.idle, Schema.idleElems_iff]
    constructor
    · intro idle l within
      cases within with
      | tuple member within => exact (ih _ member).mp (idle _ member) l within
    · intro plain elem member
      exact (ih elem member).mpr fun l within => plain l (.tuple member within)
  | object fields ih =>
    rw [Schema.idle, Schema.idleFields_iff]
    constructor
    · intro idle l within
      cases within with
      | object member within => exact (ih _ _ member).mp (idle _ _ member) l within
    · intro plain key field member
      exact (ih key field member).mpr fun l within => plain l (.object member within)
  | choice variants ih =>
    rw [Schema.idle, Schema.idleVariants_iff]
    constructor
    · intro idle l within
      cases within with
      | choice member within => exact (ih _ _ member).mp (idle _ _ member) l within
    · intro plain kind payload member
      exact (ih kind payload member).mpr fun l within => plain l (.choice member within)

def LeavesAlone (options : WriteOptions) (schema : Schema) : Prop :=
  ∀ p : Program, p.writer options schema = (.identity, p)

private theorem leavesAlone_leaf {l : Leaf} (plain : l.converts options = false) :
    LeavesAlone options (.leaf l) := by
  intro p
  rw [Program.writer]
  cases l with
  | number =>
    have passed : options.numberPassthrough = true := by simpa [Leaf.converts] using plain
    exact if_pos passed
  | date | temporal _ =>
    have passed : options.dateTimePassthrough = true := by simpa [Leaf.converts] using plain
    exact if_pos passed
  | bigint | u64 | i64 => cases plain
  | _ => rfl

private theorem elemWriters_leftAlone {elems : List Schema}
    (each : ∀ elem ∈ elems, LeavesAlone options elem) (p : Program) :
    ∃ codes, Program.elemWriters options elems p = (codes, p) ∧
      codes.all Code.isIdentity = true := by
  induction elems with
  | nil => exact ⟨[], rfl, rfl⟩
  | cons elem rest ih =>
    have first := each elem List.mem_cons_self p
    obtain ⟨codes, others, idle⟩ := ih fun elem member => each elem (List.mem_cons_of_mem _ member)
    refine ⟨.identity :: codes, ?_, idle⟩
    simp only [Program.elemWriters, first, others]

private theorem fieldWriters_leftAlone {fields : List (String × Schema)}
    (each : ∀ key field, (key, field) ∈ fields → LeavesAlone options field) (p : Program) :
    ∃ codes, Program.fieldWriters options fields p = (codes, p) ∧ changed codes = [] := by
  induction fields with
  | nil => exact ⟨[], rfl, rfl⟩
  | cons field rest ih =>
    have first := each field.1 field.2 List.mem_cons_self p
    obtain ⟨codes, others, idle⟩ := ih fun key field member =>
      each key field (List.mem_cons_of_mem _ member)
    refine ⟨(field.1, .identity) :: codes, ?_, idle⟩
    simp only [Program.fieldWriters, first, others]

private theorem variantWriters_leftAlone {variants : List (String × Option Schema)}
    (each : ∀ kind payload, (kind, some payload) ∈ variants → LeavesAlone options payload)
    (p : Program) :
    ∃ arms, Program.variantWriters options variants p = (arms, p) ∧
      (arms.all fun arm => keeps arm.2) = true := by
  induction variants with
  | nil => exact ⟨[], rfl, rfl⟩
  | cons variant rest ih =>
    obtain ⟨kind, payload⟩ := variant
    obtain ⟨arms, others, idle⟩ := ih fun kind payload member =>
      each kind payload (List.mem_cons_of_mem _ member)
    cases payload with
    | none =>
      refine ⟨(kind, .keep) :: arms, ?_, idle⟩
      rw [Program.variantWriters, others]
    | some payload =>
      have first := each kind payload List.mem_cons_self p
      refine ⟨(kind, .keep) :: arms, ?_, idle⟩
      simp only [Program.variantWriters, first, others]
      rfl

theorem leavesAlone_of_idle {schema : Schema} (idle : schema.idle options = true) :
    LeavesAlone options schema := by
  induction schema using Schema.byParts with
  | leaf l =>
    rw [Schema.idle, Bool.not_eq_true'] at idle
    exact leavesAlone_leaf idle
  | option inner ih =>
    intro p
    rw [Program.writer, ih idle p]
    rfl
  | array item ih =>
    intro p
    rw [Program.writer, ih idle p]
    rfl
  | tuple elems ih =>
    intro p
    have each := Schema.idleElems_iff.mp idle
    obtain ⟨codes, made, all⟩ :=
      elemWriters_leftAlone (fun elem member => ih elem member (each elem member)) p
    rw [Program.writer, made]
    exact if_pos all
  | object fields ih =>
    intro p
    have each := Schema.idleFields_iff.mp idle
    obtain ⟨codes, made, none⟩ :=
      fieldWriters_leftAlone (fun key field member => ih key field member (each key field member)) p
    rw [Program.writer, made]
    exact if_pos (List.isEmpty_iff.mpr none)
  | choice variants ih =>
    intro p
    have each := Schema.idleVariants_iff.mp idle
    obtain ⟨arms, made, all⟩ := variantWriters_leftAlone
      (fun kind payload member => ih kind payload member (each kind payload member)) p
    rw [Program.writer, made]
    exact if_pos all

/-- The writer of a schema is left out exactly if no leaf in it is converted, at any depth, and then
nothing is imported or defined for it. -/
theorem writer_collapses_iff (program : Program) (options : WriteOptions) (schema : Schema) :
    ((program.writer options schema).1 = .identity ↔
      ∀ l, Within (.leaf l) schema → l.converts options = false) ∧
    ((program.writer options schema).1 = .identity →
      (program.writer options schema).2 = program) := by
  have decided : (program.writer options schema).1 = .identity ↔ schema.idle options = true := by
    rw [← writer_isIdentity options schema program]
    constructor
    · intro collapsed
      rw [collapsed]
      rfl
    · exact Code.eq_identity
  refine ⟨decided.trans idle_iff, fun collapsed => ?_⟩
  rw [leavesAlone_of_idle (decided.mp collapsed) program]

end WireSchema.Generated
