import WireSchema.Proofs.Generated.Agreement
import WireSchema.Proofs.Generated.Growth
import WireSchema.Proofs.Generated.Mentions
import WireSchema.Proofs.Generated.Reading
import WireSchema.Proofs.Text.Markers

/-!
Where the marker for an input stands in generated text. A fragment holds it once if it is a template
and else not at all, so applying a fragment leaves none; the bodies of helpers hold it in what they
quote only. What a text quotes is found by the scan for its words: a piece that leaves the scan
between words and holds no dollar sign outside of quoted names may stand in front of any other.
-/

set_option autoImplicit false

namespace WireSchema.Generated

open WireSchema.Text
open WireSchema.Text.Mode (scan)

namespace Fragment

def text : Fragment → String
  | .identity => ""
  | .defined name => name
  | .imported name => name
  | .inlined closure => closure
  | .template body => body

def isTemplate : Fragment → Bool
  | .template _ => true
  | _ => false

/-- A template holds the marker once and other fragments hold none, an argument takes one place
whatever it is, and no marker is left around it. -/
structure Hygienic (f : Fragment) : Prop where
  held : occurrences inputMarker.toList f.text.toList = if f.isTemplate then 1 else 0
  spliced : ∃ before after : String,
    (f.isTemplate = true → f.text = before ++ inputMarker ++ after) ∧
      occurrences inputMarker.toList before.toList = 0 ∧
      occurrences inputMarker.toList after.toList = 0 ∧
      ∀ arg, f.resolve arg = before ++ arg ++ after
  gone : ∀ arg : String, occurrences inputMarker.toList arg.toList = 0 →
    occurrences inputMarker.toList (f.resolve arg).toList = 0

end Fragment

private theorem toList_inputMarker : inputMarker.toList = '$' :: "input".toList := by
  simp [inputMarker]

namespace Code

private theorem text_of_isTemplate {code : Code} (template : code.fragment.isTemplate = true) :
    code.fragment.text.toList =
      letters code.before ++ inputMarker.toList ++ letters code.after := by
  cases shape : code.fragment with
  | template body => exact template_eq shape
  | _ => simp [shape, Fragment.isTemplate] at template

private theorem dollar_not_mem_text {code : Code} (other : code.fragment.isTemplate = false) :
    '$' ∉ code.fragment.text.toList := by
  have plain : ∀ opening closing : List Char,
      letters code.before = opening ++ code.fragment.text.toList ++ closing →
        '$' ∉ code.fragment.text.toList := by
    intro opening closing shape member
    exact dollar_not_mem (frame_ink code).1 (by simp [shape, member])
  cases code with
  | identity => simp [fragment, Fragment.text]
  | helper index =>
    refine plain [] "(".toList ?_
    simp [before, letters, fragment, Fragment.text]
  | routine r =>
    refine plain [] "(".toList ?_
    simp [before, letters, fragment, Fragment.text]
  | positionsChecked codes =>
    refine plain "(".toList ")(".toList ?_
    simp only [before, letters, fragment, Fragment.text, List.flatMap_cons, List.flatMap_nil,
      String.toList_append, List.append_assoc, List.append_nil]
  | _ => simp [fragment, Fragment.isTemplate] at other

private theorem after_apart (code : Code) :
    ∀ c ∈ (letters code.after).head?, c ∉ "input".toList := by
  intro c head
  cases code <;> simp [after, letters] at head <;> simp [← head]

/-- The fragment of every expression is hygienic. -/
theorem hygienic (code : Code) : code.fragment.Hygienic := by
  have front := dollar_not_mem (frame_ink code).1
  have back := dollar_not_mem (frame_ink code).2
  have inside : '$' ∉ "input".toList := by decide
  refine ⟨?_, ⟨String.ofList (letters code.before), String.ofList (letters code.after), ?_, ?_, ?_,
    fun arg => ?_⟩, fun arg free => ?_⟩
  · cases template : code.fragment.isTemplate with
    | true =>
      rw [text_of_isTemplate template, toList_inputMarker]
      exact occurrences_once front inside back
    | false =>
      rw [toList_inputMarker]
      exact occurrences_of_not_mem (dollar_not_mem_text template)
  · intro template
    rw [← String.toList_inj, text_of_isTemplate template]
    simp
  · rw [String.toList_ofList, toList_inputMarker]
    exact occurrences_of_not_mem front
  · rw [String.toList_ofList, toList_inputMarker]
    exact occurrences_of_not_mem back
  · rw [← String.toList_inj]
    simpa [applied] using toList_applied code arg
  · have whole : (code.fragment.resolve arg).toList =
        letters code.before ++ arg.toList ++ letters code.after := toList_applied code arg
    rw [toList_inputMarker] at free ⊢
    rw [whole]
    exact occurrences_framed front back (after_apart code) free

end Code

def Enquoted (declared : String → Prop) (before part after : List Char) : Prop :=
  ∃ (name : String) (front left right back : List Char), declared name ∧
    before = front ++ left ∧ after = right ++ back ∧
      (quoted name).toList = left ++ part ++ right ∧ (scan (.gap .free) front).2 = .gap .free

/-- A part stands in a text only between the quotes of declared names. -/
def OnlyInNames (declared : String → Prop) (part text : List Char) : Prop :=
  ∀ before after, text = before ++ part ++ after → Enquoted declared before part after

/-- A text after which a scan is where it was before, and which holds a dollar sign only between the
quotes of declared names. -/
structure Settled (declared : String → Prop) (text : List Char) : Prop where
  scanned : (scan (.gap .free) text).2 = .gap .free
  dollars : OnlyInNames declared ['$'] text

section Settled

variable {declared : String → Prop} {a b : List Char} {ns : List String}

private theorem settled_of_scan (scanned : (scan (.gap .free) a).2 = .gap .free) (plain : '$' ∉ a) :
    Settled declared a :=
  ⟨scanned, fun before after whole => absurd (by simp [whole]) plain⟩

private theorem settled_of_opens (opens : Opens a ns) (plain : '$' ∉ a) : Settled declared a := by
  obtain ⟨found, scanned, -⟩ := opens
  exact settled_of_scan (by rw [scanned]) plain

private theorem settled_quoted {name : String} (known : declared name) :
    Settled declared (quoted name).toList := by
  refine ⟨by rw [scan_quoted], fun before after whole => ?_⟩
  exact ⟨name, [], before, after, [], known, rfl, (List.append_nil _).symm, whole, rfl⟩

theorem Settled.append (first : Settled declared a) (second : Settled declared b) :
    Settled declared (a ++ b) := by
  refine ⟨by rw [scan_append, first.scanned, second.scanned], fun before after whole => ?_⟩
  rw [List.append_assoc, List.append_eq_append_iff] at whole
  rcases whole with ⟨rest, rfl, whole⟩ | ⟨rest, rfl, whole⟩
  · obtain ⟨name, front, left, right, back, known, rfl, rfl, quote, scanned⟩ :=
      second.dollars rest after (by simpa using whole)
    refine ⟨name, a ++ front, left, right, back, known, by simp, rfl, quote, ?_⟩
    rw [scan_append, first.scanned, scanned]
  · cases rest with
    | nil =>
      obtain ⟨name, front, left, right, back, known, here, rfl, quote, scanned⟩ :=
        second.dollars [] after (by simpa using whole.symm)
      obtain ⟨rfl, rfl⟩ : front = [] ∧ left = [] := by simpa using here.symm
      exact ⟨name, before, [], right, back, known, by simp, rfl, quote, by simpa using first.scanned⟩
    | cons c more =>
      obtain ⟨rfl, rfl⟩ : '$' = c ∧ after = more ++ b := by simpa using whole
      obtain ⟨name, front, left, right, back, known, rfl, rfl, quote, scanned⟩ :=
        first.dollars before more (by simp)
      exact ⟨name, front, left, right, back ++ b, known, rfl, by simp, quote, scanned⟩

private theorem settled_intercalate {lines : List String}
    (each : ∀ line ∈ lines, Settled declared line.toList) :
    Settled declared ("\n".intercalate lines).toList := by
  have feed : Settled declared "\n".toList := settled_of_scan (by decide) (by decide)
  induction lines with
  | nil => exact settled_of_scan rfl (by simp)
  | cons line rest ih =>
    have first := each line List.mem_cons_self
    have later := ih fun line member => each line (List.mem_cons_of_mem _ member)
    cases rest with
    | nil => rwa [String.intercalate_singleton]
    | cons next more =>
      rw [String.intercalate_cons_of_ne_nil (by simp), String.toList_append, String.toList_append]
      exact (first.append feed).append later

private theorem quote_mem_right {name : String} {left right : List Char}
    (quote : (quoted name).toList = left ++ ['$'] ++ right) : '"' ∈ right := by
  have last : (quoted name).toList.getLast? = some '"' := by
    rw [quoted, String.toList_ofList]
    exact List.getLast?_concat
  rw [quote, List.getLast?_append] at last
  cases tail : right.getLast? with
  | none => simp [tail] at last
  | some c =>
    obtain rfl : c = '"' := by simpa [tail] using last
    exact List.mem_of_getLast? tail

theorem Settled.onlyInNames (settled : Settled declared a) :
    OnlyInNames declared inputMarker.toList a := by
  intro before after whole
  rw [toList_inputMarker] at whole ⊢
  obtain ⟨name, front, left, right, back, known, rfl, rest, quote, scanned⟩ :=
    settled.dollars before ("input".toList ++ after) (by simpa using whole)
  rcases List.append_eq_append_iff.mp rest with ⟨more, rfl, rfl⟩ | ⟨more, short, -⟩
  · exact ⟨name, front, left, more, back, known, rfl, rfl, by simpa using quote, scanned⟩
  · -- the quotes do not close within the marker
    have close : '"' ∈ "input".toList := short ▸ List.mem_append_left _ (quote_mem_right quote)
    exact absurd close (by decide)

end Settled

inductive Body.NamedBy (declared : String → Prop) : Body → Prop where
  | copying {fields : List (String × Code)} : (∀ name ∈ Entries.names fields, declared name) →
      NamedBy declared (.copying fields)
  | sparing {fields : List (String × Code)} : (∀ name ∈ Entries.names fields, declared name) →
      NamedBy declared (.sparing fields)
  | dispatch {arms : List (String × Arm)} (lenient : Bool) :
      (∀ name ∈ Entries.names arms, declared name) → NamedBy declared (.dispatch arms lenient)

section Lines

variable {declared : String → Prop}

private theorem settled_fieldLine {start : String}
    (begins : Settled declared start.toList) {field : String × Code} (known : declared field.1) :
    Settled declared (fieldLine start field).toList := by
  have ink : (field.2.applied "value").toList.all Code.isInk = true :=
    Code.applied_ink _ (by simp [Code.isInk])
  have tail : Settled declared (", |value| Ok(" ++ field.2.applied "value" ++ "))?;").toList :=
    settled_of_opens (opens_closure field.2) (by simp [Code.dollar_not_mem ink])
  simpa [fieldLine_eq] using (begins.append (settled_quoted known)).append tail

private theorem settled_armLine {arm : String × Arm} (known : declared arm.1) :
    Settled declared (Body.armLine arm).toList := by
  have arrow : Settled declared " => ".toList := settled_of_scan (by decide) (by decide)
  have comma : Settled declared ",".toList := settled_of_scan (by decide) (by decide)
  have text : Settled declared arm.2.text.toList :=
    settled_of_opens (opens_armText arm.2) (Code.dollar_not_mem arm.2.text_ink)
  simpa [armLine_eq] using (((settled_quoted known).append arrow).append text).append comma

private theorem settled_otherLine (lenient : Bool) :
    Settled declared (Body.otherLine lenient).toList := by
  refine settled_of_opens (opens_otherLine lenient) ?_
  rw [otherLine_eq]
  cases lenient <;> decide

private theorem settled_fields {start last : String} {fields : List (String × Code)}
    (begins : Settled declared start.toList) (ends : Settled declared last.toList)
    (known : ∀ name ∈ Entries.names fields, declared name) :
    ∀ line ∈ fields.map (fieldLine start) ++ [last], Settled declared line.toList := by
  intro line member
  rcases List.mem_append.mp member with member | member
  · obtain ⟨field, inside, rfl⟩ := List.mem_map.mp member
    exact settled_fieldLine begins (known _ (Entries.mem_names_of_mem inside))
  · rwa [List.mem_singleton.mp member]

private theorem settled_arms {arms : List (String × Arm)} {lenient : Bool}
    (known : ∀ name ∈ Entries.names arms, declared name) :
    ∀ line ∈ arms.map Body.armLine ++ [Body.otherLine lenient], Settled declared line.toList := by
  intro line member
  rcases List.mem_append.mp member with member | member
  · obtain ⟨arm, inside, rfl⟩ := List.mem_map.mp member
    exact settled_armLine (known _ (Entries.mem_names_of_mem inside))
  · rw [List.mem_singleton.mp member]
    exact settled_otherLine lenient

private theorem settled_indented {line : String} (settled : Settled declared line.toList) :
    Settled declared ("    " ++ line).toList := by
  have blank : Settled declared "    ".toList := settled_of_scan (by decide) (by decide)
  simpa using blank.append settled

/-- What a body with declared names quotes is all that holds a dollar sign in its text. -/
theorem Body.NamedBy.settled {body : Body} (named : body.NamedBy declared) :
    Settled declared body.render.toList := by
  have fixed : ∀ line : String, (scan (.gap .free) line.toList).2 = .gap .free →
      '$' ∉ line.toList → Settled declared line.toList := fun _ => settled_of_scan
  cases named with
  | copying known =>
    have lines := settled_fields (fixed "map_field(&mut copy, " (by decide) (by decide))
      (fixed "Ok(Value::object(copy))" (by decide) (by decide)) known
    rw [render_copying]
    exact settled_intercalate (List.forall_mem_cons.mpr ⟨fixed _ (by decide) (by decide), lines⟩)
  | sparing known =>
    have lines := settled_fields
      (fixed "set_cow_property(source, &mut output, " (by decide) (by decide))
      (fixed "Ok(finish_cow(input, output))" (by decide) (by decide)) known
    rw [render_sparing]
    exact settled_intercalate (List.forall_mem_cons.mpr ⟨fixed _ (by decide) (by decide),
      List.forall_mem_cons.mpr ⟨fixed _ (by decide) (by decide), lines⟩⟩)
  | @dispatch arms lenient known =>
    have inside : Settled declared ("\n".intercalate
        ((arms.map Body.armLine ++ [Body.otherLine lenient]).map ("    " ++ ·))).toList := by
      refine settled_intercalate fun line member => ?_
      obtain ⟨arm, there, rfl⟩ := List.mem_map.mp member
      exact settled_indented (settled_arms known arm there)
    have front := fixed "let kind = discriminant(&input)?;\nmatch kind.as_str() \x7b\n"
      (by decide) (by decide)
    have back := fixed "\n\x7d" (by decide) (by decide)
    rw [render_dispatch, indent_intercalate (by simp) (arms_plain arms lenient),
      String.toList_append, String.toList_append]
    exact (front.append inside).append back

end Lines

theorem Within.trans {inner part schema : Schema} (first : Within inner part)
    (second : Within part schema) : Within inner schema := by
  induction second with
  | here => exact first
  | option _ ih => exact .option ih
  | array _ ih => exact .array ih
  | tuple member _ ih => exact .tuple member ih
  | object member _ ih => exact .object member ih
  | choice member _ ih => exact .choice member ih

/-- A property or a variant of this name stands in a schema, at any depth. -/
def Declares (schema : Schema) (name : String) : Prop :=
  (∃ fields, Within (.object fields) schema ∧ name ∈ Entries.names fields) ∨
    ∃ variants, Within (.choice variants) schema ∧ name ∈ Entries.names variants

theorem Declares.of_within {part schema : Schema} {name : String} (within : Within part schema)
    (declares : Declares part name) : Declares schema name := by
  rcases declares with ⟨fields, inside, member⟩ | ⟨variants, inside, member⟩
  · exact Or.inl ⟨fields, inside.trans within, member⟩
  · exact Or.inr ⟨variants, inside.trans within, member⟩

namespace Program

def NamedBy (declared : String → Prop) (p : Program) : Prop :=
  ∀ body ∈ p.helpers, body.NamedBy declared

section Named

variable {declared : String → Prop} {options : WriteOptions} {p : Program}

theorem NamedBy.define {body : Body} (named : p.NamedBy declared) (here : body.NamedBy declared) :
    (p.define body).2.NamedBy declared := by
  intro other member
  rw [Program.define] at member
  split at member
  · exact named other member
  · rcases List.mem_append.mp member with member | member
    · exact named other member
    · rwa [List.mem_singleton.mp member]

private theorem named_leafWriter (named : p.NamedBy declared) (l : Leaf) :
    (p.leafWriter options l).2.NamedBy declared := by
  cases l with
  | number | date | temporal _ =>
    rw [leafWriter]
    split <;> exact named
  | _ => exact named

private theorem named_optional (named : p.NamedBy declared) (code : Code) :
    (p.optional code).2.NamedBy declared := by
  rw [optional]
  split <;> exact named

private theorem named_eachWriter (named : p.NamedBy declared) (sparing : Bool) (code : Code) :
    (p.eachWriter sparing code).2.NamedBy declared := by
  rw [eachWriter]
  split <;> exact named

private theorem named_positionsWriter (named : p.NamedBy declared) (codes : List Code) :
    (p.positionsWriter codes).2.NamedBy declared := by
  rw [positionsWriter]
  split <;> exact named

private theorem named_objectWriter {fields : List (String × Code)} (named : p.NamedBy declared)
    (known : ∀ name ∈ Entries.names fields, declared name) (sparing : Bool) :
    (p.objectWriter sparing fields).2.NamedBy declared := by
  have kept : ∀ name ∈ Entries.names (fields.filter fun field => !field.2.isIdentity),
      declared name := by
    intro name member
    obtain ⟨field, inside, rfl⟩ := List.mem_map.mp member
    exact known _ (Entries.mem_names_of_mem (List.mem_of_mem_filter inside))
  simp only [objectWriter]
  split
  · exact named
  · split
    · exact NamedBy.define (p := (p.importing _ _).importing _ _) named (.sparing kept)
    · exact NamedBy.define (p := ((p.importing _ _).importing _ _).importing _ _) named
        (.copying kept)

private theorem named_choiceWriter {arms : List (String × Arm)} (named : p.NamedBy declared)
    (known : ∀ name ∈ Entries.names arms, declared name) (lenient : Bool) :
    (p.choiceWriter lenient arms).2.NamedBy declared := by
  have same : ((importingArms arms (p.importing accessPath "discriminant")).importing rootPath
      (if lenient then "Value" else "Error")).helpers = p.helpers := by
    rw [helpers_importing, importingArms_helpers, helpers_importing]
  simp only [choiceWriter]
  split
  · exact named
  · refine NamedBy.define ?_ (.dispatch lenient known)
    rwa [NamedBy, same]

private theorem named_elemWriters {elems : List Schema}
    (each : ∀ elem ∈ elems, ∀ p : Program, p.NamedBy declared →
      (p.writer options elem).2.NamedBy declared) (named : p.NamedBy declared) :
    (elemWriters options elems p).2.NamedBy declared := by
  induction elems generalizing p with
  | nil => exact named
  | cons elem rest ih =>
    have first := each elem List.mem_cons_self p named
    exact ih (fun elem member => each elem (List.mem_cons_of_mem _ member)) first

private theorem named_fieldWriters {fields : List (String × Schema)}
    (each : ∀ key field, (key, field) ∈ fields → ∀ p : Program, p.NamedBy declared →
      (p.writer options field).2.NamedBy declared) (named : p.NamedBy declared) :
    (fieldWriters options fields p).2.NamedBy declared ∧
      Entries.names (fieldWriters options fields p).1 = Entries.names fields := by
  induction fields generalizing p with
  | nil => exact ⟨named, rfl⟩
  | cons field rest ih =>
    have first := each field.1 field.2 List.mem_cons_self p named
    obtain ⟨others, names⟩ :=
      ih (fun key field member => each key field (List.mem_cons_of_mem _ member)) first
    exact ⟨others, congrArg (field.1 :: ·) names⟩

private theorem named_variantWriters {variants : List (String × Option Schema)}
    (each : ∀ kind payload, (kind, some payload) ∈ variants → ∀ p : Program, p.NamedBy declared →
      (p.writer options payload).2.NamedBy declared) (named : p.NamedBy declared) :
    (variantWriters options variants p).2.NamedBy declared ∧
      Entries.names (variantWriters options variants p).1 = Entries.names variants := by
  induction variants generalizing p with
  | nil => exact ⟨named, rfl⟩
  | cons variant rest ih =>
    have each' := fun kind payload member => each kind payload (List.mem_cons_of_mem _ member)
    obtain ⟨kind, payload⟩ := variant
    cases payload with
    | none =>
      obtain ⟨others, names⟩ := ih each' named
      exact ⟨others, congrArg (kind :: ·) names⟩
    | some payload =>
      obtain ⟨others, names⟩ := ih each' (each kind payload List.mem_cons_self p named)
      exact ⟨others, congrArg (kind :: ·) names⟩

theorem named_writer {schema : Schema} (known : ∀ name, Declares schema name → declared name)
    (named : p.NamedBy declared) : (p.writer options schema).2.NamedBy declared := by
  induction schema using Schema.byParts generalizing p with
  | leaf l => exact named_leafWriter named l
  | option inner ih =>
    have part := ih (fun name there => known name (there.of_within (.option .here))) named
    exact named_optional part _
  | array item ih =>
    have part := ih (fun name there => known name (there.of_within (.array .here))) named
    exact named_eachWriter part _ _
  | tuple elems ih =>
    have parts := named_elemWriters (fun elem member p => ih elem member fun name there =>
      known name (there.of_within (.tuple member .here))) named
    exact named_positionsWriter parts _
  | object fields ih =>
    have each : ∀ key field, (key, field) ∈ fields → ∀ p : Program, p.NamedBy declared →
        (p.writer options field).2.NamedBy declared := fun key field member p =>
      ih key field member fun name there => known name (there.of_within (.object member .here))
    obtain ⟨parts, names⟩ := named_fieldWriters each named
    refine named_objectWriter parts (fun name member => ?_) _
    exact known name (Or.inl ⟨fields, .here, names ▸ member⟩)
  | choice variants ih =>
    have each : ∀ kind payload, (kind, some payload) ∈ variants → ∀ p : Program,
        p.NamedBy declared → (p.writer options payload).2.NamedBy declared :=
      fun kind payload member p => ih kind payload member fun name there =>
        known name (there.of_within (.choice member .here))
    obtain ⟨parts, names⟩ := named_variantWriters each named
    refine named_choiceWriter parts (fun name member => ?_) _
    exact known name (Or.inr ⟨variants, .here, names ▸ member⟩)

end Named

def Call.IsPass : Call → Prop
  | .writer _ _ | .reader _ => True
  | .importing _ _ | .define _ => False

def Call.Declares : Call → String → Prop
  | .writer _ schema => Generated.Declares schema
  | _ => fun _ => False

private theorem named_perform {declared : String → Prop} {call : Call} {p : Program}
    (pass : call.IsPass) (known : ∀ name, call.Declares name → declared name)
    (named : p.NamedBy declared) : (call.perform p).NamedBy declared := by
  cases call with
  | importing _ _ => exact named
  | define _ => exact absurd pass id
  | writer options schema => exact named_writer known named
  | reader schema => rwa [NamedBy, Call.perform, reader_helpers]

theorem named_after {declared : String → Prop} {calls : List Call} {p : Program}
    (passes : ∀ call ∈ calls, call.IsPass ∧ ∀ name, call.Declares name → declared name)
    (named : p.NamedBy declared) : (p.after calls).NamedBy declared := by
  induction calls generalizing p with
  | nil => exact named
  | cons call rest ih =>
    obtain ⟨pass, known⟩ := passes call List.mem_cons_self
    exact ih (fun call member => passes call (List.mem_cons_of_mem _ member))
      (named_perform pass known named)

/-- After any passes, the fragment that a further pass returns holds the marker once if it is a
template and else not at all, takes its argument in one place and leaves no marker; and the bodies
of the helpers hold the marker only between the quotes of names that the schemas declare. -/
theorem markers_after_passes (calls : List Call) (passes : ∀ call ∈ calls, call.IsPass) :
    let program := Program.empty.after calls
    (∀ (options : WriteOptions) (schema : Schema),
        (program.writer options schema).1.fragment.Hygienic) ∧
      (∀ (schema : Schema) (code : Code),
        (program.reader schema).1 = .ok code → code.fragment.Hygienic) ∧
      ∀ name body, (name, body) ∈ program.definitions →
        OnlyInNames (fun declared => ∃ call ∈ calls, call.Declares declared)
          inputMarker.toList body.toList := by
  intro program
  refine ⟨fun options schema => Code.hygienic _, fun schema code _ => code.hygienic,
    fun name text member => ?_⟩
  have named : program.NamedBy fun declared => ∃ call ∈ calls, call.Declares declared := by
    refine named_after (fun call member => ⟨passes call member, ?_⟩) (by simp [NamedBy, empty])
    exact fun declared there => ⟨call, member, there⟩
  have written : text ∈ program.helpers.map Body.render :=
    texts_definitions program ▸ List.mem_map.mpr ⟨(name, text), member, rfl⟩
  obtain ⟨body, inside, rfl⟩ := List.mem_map.mp written
  exact (named body inside).settled.onlyInNames

theorem markers_after_passes_field :
    let calls : List Call := [.writer .off (.object [("$input", .leaf .bigint)])]
    let program := Program.empty.after calls
    let body := "let mut copy = shallow_copy(&input)?;\n" ++
      "map_field(&mut copy, \"$input\", |value| " ++
      "Ok(Value::from(value.as_bigint()?.to_string())))?;\n" ++ "Ok(Value::object(copy))"
    let items := Code.eachChecked (.routine .parseDate)
    (∀ call ∈ calls, call.IsPass) ∧ ("serialize_0", body) ∈ program.definitions ∧
      occurrences inputMarker.toList body.toList = 1 ∧
      OnlyInNames (fun declared => ∃ call ∈ calls, call.Declares declared)
        inputMarker.toList body.toList ∧
      (program.reader (.array (.leaf .date))).1 = .ok items ∧ items.fragment.Hygienic := by
  intro calls program body items
  have passes : ∀ call ∈ calls, call.IsPass := List.forall_mem_singleton.mpr trivial
  have defined : ("serialize_0", body) ∈ program.definitions := by decide +kernel
  have read : (program.reader (.array (.leaf .date))).1 = .ok items := rfl
  obtain ⟨-, readers, bodies⟩ := markers_after_passes calls passes
  exact ⟨passes, defined, by decide +kernel, bodies _ _ defined, read, readers _ _ read⟩

end Program

end WireSchema.Generated
