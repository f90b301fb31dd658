import WireSchema.Command.Run
import WireSchema.Proofs.Convert.Normal
import WireSchema.Proofs.Convert.Passage
import WireSchema.Proofs.Files.Looking
import WireSchema.Proofs.Schema.Reading

/-!
Checking and normalizing agree. Both find the same schema and the same files, since finding them
changes nothing. A document from a text is valid exactly if it has a normal form with all options
off, so there is a text to deliver exactly if there is nothing to complain of.
-/

set_option autoImplicit false

namespace WireSchema

open WireSchema.Files

/-- What can keep the files from being found. No file is refused before it is read. -/
def CausedBy {σ : Type} [Readable (StateM σ)] (before : σ) : Failure → Prop
  | .badPattern fault => ∃ input, Pattern.ofText input = .error fault
  | .unsearchable fault => Unreadable before fault
  | .noMatch input => isPattern input = true
  | _ => False

namespace Files.ReadsOnly

variable {σ : Type} [Readable (StateM σ)] (readsOnly : ReadsOnly σ)
include readsOnly

theorem pathsOfInput (input : String) :
    Seeks CausedBy (pathsOfInput input : ExceptT Failure (StateM σ) (List String)) := by
  unfold WireSchema.pathsOfInput
  split
  · next isGlob =>
    split
    · next fault misspelt => exact seeks_throw fun _ => ⟨input, misspelt⟩
    · next pattern _ =>
      have followed : Seeks CausedBy
          (ExceptT.adapt .unsearchable pattern.paths : ExceptT Failure (StateM σ) _) :=
        (readsOnly.paths pattern).adapt fun _ _ unread => unread
      exact followed.bind fun paths => seeks_ite (seeks_throw fun _ => isGlob) (seeks_pure _)
  · exact seeks_pure _

theorem sourceFiles (inputs : List String) :
    Seeks CausedBy (sourceFiles inputs : ExceptT Failure (StateM σ) (List SourceFile)) := by
  refine (seeks_mapM readsOnly.pathsOfInput inputs).bind fun paths => ?_
  exact seeks_mapM (fun path => (readsOnly.readText path).seeks.bind fun _ => seeks_pure _) _

end Files.ReadsOnly

namespace Schema

/-- A document is valid exactly if it has a normal form with all options off. -/
theorem exists_normalForm_iff {schema : Schema} (proper : schema.Proper) (free : schema.KindFree)
    {json : Json} (form : json.Proper) (sized : json.Sized) :
    (∃ settled, schema.normalForm .off json = .ok settled) ↔ schema.validate json = .ok () := by
  simp only [normalForm_eq_ok, validate, map_eq_ok, and_true]
  constructor
  · rintro ⟨_, native, _, read, -⟩
    exact ⟨native, read⟩
  · rintro ⟨native, read⟩
    obtain ⟨wire, again, _, written, tree, -⟩ := exists_passage proper free form sized read
    exact ⟨again, native, wire, read, written, tree⟩

end Schema

namespace SourceFile

private theorem read_documentsOfLines {path : String} {number : Nat} {lines : List (List Char)}
    {documents : List PlacedDocument}
    (done : documentsOfLines path number lines = .ok documents) :
    ∀ document ∈ documents, ∃ text, Json.ofText text = .ok document.json := by
  induction lines generalizing number documents with
  | nil =>
    obtain rfl := Except.ok.inj done
    simp
  | cons line rest ih =>
    rw [documentsOfLines] at done
    split at done
    · exact ih done
    · simp only [bind_eq_ok, pure_eq_ok, mapError_eq_ok] at done
      obtain ⟨json, read, more, others, rfl⟩ := done
      exact List.forall_mem_cons.mpr ⟨⟨_, read⟩, ih others⟩

theorem exists_text {file : SourceFile} {linewise : Bool} {documents : List PlacedDocument}
    (done : file.documents linewise = .ok documents) :
    ∀ document ∈ documents, ∃ text, Json.ofText text = .ok document.json := by
  simp only [SourceFile.documents, bind_eq_ok, mapError_eq_ok] at done
  obtain ⟨content, -, done⟩ := done
  split at done
  · exact read_documentsOfLines done
  · simp only [bind_eq_ok, pure_eq_ok, mapError_eq_ok] at done
    obtain ⟨json, read, rfl⟩ := done
    exact List.forall_mem_singleton.mpr ⟨content, read⟩

end SourceFile

theorem Report.ofDocument_eq_none {schema : Schema} {document : PlacedDocument} :
    (Report.ofDocument schema document).complaint = none ↔
      schema.validate document.json = .ok () := by
  unfold Report.ofDocument
  split
  · next valid => simp [valid]
  · next fault invalid => simp [invalid]

section

variable {schema : Schema} (proper : schema.Proper) (free : schema.KindFree)
include proper free

theorem exists_normalizedFile_iff (linewise : Bool) (file : SourceFile) :
    (∃ forms, normalizedFile schema .off linewise file = .ok forms) ↔
      ∀ report ∈ Report.ofFile schema linewise file, report.complaint = none := by
  unfold normalizedFile Report.ofFile
  cases read : file.documents linewise with
  | error failure => simp
  | ok documents =>
    rw [ok_bind, exists_mapM_eq_ok, List.forall_mem_map]
    refine forall₂_congr fun document member => ?_
    obtain ⟨text, done⟩ := SourceFile.exists_text read document member
    simp only [mapError_eq_ok]
    rw [Report.ofDocument_eq_none]
    exact Schema.exists_normalForm_iff proper free (Json.proper_of_ofText done)
      (Json.sized_of_ofText done)

theorem exists_normalized_iff (linewise : Bool) (files : List SourceFile) :
    (∃ text, normalized schema .off linewise files = .ok text) ↔
      ∀ report ∈ checked schema linewise files, report.complaint = none := by
  have forms : (∃ text, normalized schema .off linewise files = .ok text) ↔
      ∃ forms, files.mapM (normalizedFile schema .off linewise) = .ok forms := by
    simp only [normalized, bind_eq_ok, pure_eq_ok]
    constructor
    · rintro ⟨_, forms, done, -⟩
      exact ⟨forms, done⟩
    · rintro ⟨forms, done⟩
      exact ⟨_, forms, done, rfl⟩
  rw [forms, exists_mapM_eq_ok, checked, List.forall_mem_flatMap]
  exact forall₂_congr fun file _ => exists_normalizedFile_iff proper free linewise file

end

theorem Report.code_outcome {reports : List Report} :
    (Report.outcome reports).code = 0 ↔ ∀ report ∈ reports, report.complaint = none := by
  have all : (∀ report ∈ reports, report.complaint = none) ↔
      reports.countP (·.complaint.isSome) = 0 := by
    simp [List.countP_eq_zero]
  rw [all]
  unfold Report.outcome
  cases reports.countP (·.complaint.isSome) with
  | zero => simp [Outcome.done]
  | succ count => simp [Outcome.failed]

def reportsOn (path : String) (content : Content) (linewise : Bool)
    (found : Except Failure (List SourceFile)) : Except Failure (List Report) := do
  let schema ← Schema.ofFile path content
  return checked schema linewise (← found)

def concluded : Except Failure (List Report) → Outcome
  | .ok reports => Report.outcome reports
  | .error failure => .failed "" failure

theorem code_concluded {reports : Except Failure (List Report)} : (concluded reports).code = 0 ↔
    ∃ made, reports = .ok made ∧ ∀ report ∈ made, report.complaint = none := by
  cases reports with
  | error failure => simp [concluded, Outcome.failed]
  | ok made =>
    simp only [Except.ok.injEq, exists_eq_left']
    exact Report.code_outcome

def normalText (path : String) (content : Content) (linewise : Bool)
    (found : Except Failure (List SourceFile)) : Except Failure String := do
  let schema ← Schema.ofFile path content
  normalized schema .off linewise (← found)

theorem Schema.proper_of_ofFile {path : String} {content : Content} {schema : Schema}
    (done : Schema.ofFile path content = .ok schema) : schema.Proper := by
  simp only [Schema.ofFile, bind_eq_ok, mapError_eq_ok] at done
  obtain ⟨text, -, read⟩ := done
  exact Schema.proper_of_ofText read

theorem exists_normalText_iff {path : String} {content : Content}
    (free : ∀ schema, Schema.ofFile path content = .ok schema → schema.KindFree)
    (linewise : Bool) (found : Except Failure (List SourceFile)) :
    (∃ text, normalText path content linewise found = .ok text) ↔
      ∃ reports, reportsOn path content linewise found = .ok reports ∧
        ∀ report ∈ reports, report.complaint = none := by
  unfold normalText reportsOn
  cases read : Schema.ofFile path content with
  | error failure => simp
  | ok schema =>
    cases found with
    | error failure => simp
    | ok files =>
      simp only [ok_bind, pure_eq_ok, exists_eq_left']
      exact exists_normalized_iff (Schema.proper_of_ofFile read) (free schema read) linewise files

section

variable {σ : Type} [Readable (StateM σ)] [Writable (StateM σ)]

def Command.finish (command : Command) (before : σ) : Outcome × σ :=
  (command.run : StateM σ Outcome).run before

def contentAt (before : σ) (path : String) : Content :=
  ((Readable.readText path : StateM σ Content).run before).1

def sourcesAt (before : σ) (inputs : List String) : Except Failure (List SourceFile) :=
  ((sourceFiles inputs : ExceptT Failure (StateM σ) (List SourceFile)).run.run before).1

/-- Writing to the output, if there is one, succeeds whatever is written. -/
def Delivers (out : Option String) (before : σ) : Prop :=
  ∀ path, out = some path → ∀ text,
    ((writeFile path text : StateM σ (Except Failure Unit)).run before).1 = .ok ()

theorem code_deliver_ok {out : Option String} {before : σ} (delivers : Delivers out before)
    (text : String) : ((deliver out (.ok text) : StateM σ Outcome).run before).1.code = 0 := by
  cases out with
  | none => rfl
  | some path =>
    have written := delivers path rfl text
    simp only [deliver, StateT.run_bind]
    generalize (writeFile path text : StateM σ (Except Failure Unit)).run before = made at written
    obtain ⟨done, after⟩ := made
    obtain rfl : done = .ok () := written
    rfl

section

variable (readsOnly : ReadsOnly σ) (path : String) (documents : DocumentSource) (before : σ)
include readsOnly

theorem finish_check : (Command.check path documents).finish before =
    (concluded (reportsOn path (contentAt before path) documents.linewise
      (sourcesAt before documents.inputs)), before) := by
  unfold Command.finish Command.run
  rw [(readsOnly.readText path).run_bind, (readsOnly.sourceFiles documents.inputs).looks.run_bind]
  change StateT.run (m := Id) (match reportsOn path (contentAt before path) documents.linewise
    (sourcesAt before documents.inputs) with
    | .ok reports => pure (Report.outcome reports)
    | .error failure => pure (.failed "" failure)) before = _
  cases reportsOn path (contentAt before path) documents.linewise
    (sourcesAt before documents.inputs) <;> rfl

theorem finish_normalize (out : Option String) :
    (Command.normalize path ⟨none, .off⟩ documents out).finish before =
      StateT.run (m := Id) (deliver out (normalText path (contentAt before path)
        documents.linewise (sourcesAt before documents.inputs))) before := by
  unfold Command.finish Command.run
  rw [(readsOnly.readText path).run_bind]
  simp only [Option.mapM_none, pure_bind]
  rw [(readsOnly.sourceFiles documents.inputs).looks.run_bind]
  rfl

/-- Where the files cannot be found, both commands give the cause as their only complaint, before
any document is read, and leave everything as it was. -/
theorem finish_of_unfound {schema : Schema} {failure : Failure}
    (read : Schema.ofFile path (contentAt before path) = .ok schema)
    (unfound : sourcesAt before documents.inputs = .error failure) (out : Option String) :
    CausedBy before failure ∧
      (Command.check path documents).finish before = (.failed "" failure, before) ∧
      (Command.normalize path ⟨none, .off⟩ documents out).finish before =
        (.failed "" failure, before) := by
  refine ⟨(readsOnly.sourceFiles documents.inputs).caused before failure unfound, ?_, ?_⟩
  · rw [finish_check readsOnly, unfound, reportsOn, read]
    rfl
  · rw [finish_normalize readsOnly, unfound, normalText, read]
    rfl

end

/-- Normalizing with all options off ends well exactly if checking the same documents does, where
writing succeeds. If it does not end well, it has printed nothing and changed nothing. -/
theorem Command.normalize_agrees (readsOnly : ReadsOnly σ) {path : String} {before : σ}
    (free : ∀ schema, Schema.ofFile path (contentAt before path) = .ok schema → schema.KindFree)
    (documents : DocumentSource) {out : Option String} (delivers : Delivers out before) :
    let checking := ((Command.check path documents).finish before).1
    let normalizing := (Command.normalize path ⟨none, .off⟩ documents out).finish before
    (normalizing.1.code = 0 ↔ checking.code = 0) ∧
      (normalizing.1.code ≠ 0 → normalizing.1.output = "" ∧ normalizing.2 = before) := by
  intro checking normalizing
  have checked : checking = _ := congrArg Prod.fst (finish_check readsOnly path documents before)
  have checks : checking.code = 0 ↔ ∃ text, normalText path (contentAt before path)
      documents.linewise (sourcesAt before documents.inputs) = .ok text := by
    rw [checked]
    exact code_concluded.trans (exists_normalText_iff free _ _).symm
  have delivered : normalizing = _ := finish_normalize readsOnly path documents before out
  rw [checks, delivered]
  cases normalText path (contentAt before path) documents.linewise
      (sourcesAt before documents.inputs) with
  | error failure =>
    have unchanged : StateT.run (m := Id) (deliver out (.error failure)) before =
        (.failed "" failure, before) := rfl
    rw [unchanged]
    simp [Outcome.failed]
  | ok text =>
    have done := code_deliver_ok delivers text
    exact ⟨iff_of_true done ⟨text, rfl⟩, fun failed => absurd done failed⟩

end

theorem Disk.delivers {disk : Disk} {path name : String} {folder : List String}
    (beside : (parent? path).getD "" = "") (entry : disk.locateEntry path = .ok (folder, name))
    (allowed : (Disk.isReserved name || path.toList.getLast? == some '/') = false)
    (missing : disk.root.get? (folder ++ [name]) = none) : Delivers (some path) disk := by
  intro place same text
  obtain rfl := Option.some.inj same
  have written : disk.writeText path text =
      .ok { disk with root := disk.root.put (folder ++ [name]) (.file text) } := by
    simp only [Disk.writeText, entry, ok_bind, allowed, missing]
    rfl
  have answer : (Writable.writeText path text : StateM Disk (Except FileFault Unit)).run disk =
      (.ok (), { disk with root := disk.root.put (folder ++ [name]) (.file text) }) := by
    change Disk.changing (fun disk => disk.writeText path text) disk = _
    rw [Disk.changing, written]
  simp only [writeFile, beside, if_true, pure_bind, StateT.run_bind]
  rw [answer]
  rfl

private theorem kindFree_of_equal {schema : Schema} {name : String} {l : Leaf}
    (same : schema.equal (.choice [(name, some (.leaf l))]) = true) : schema.KindFree := by
  cases schema with
  | choice variants =>
    simp only [Schema.equal, Bool.and_eq_true, beq_iff_eq] at same
    obtain ⟨length, each⟩ := same
    obtain ⟨⟨kind, payload⟩, rfl⟩ := List.length_eq_one_iff.mp length
    cases payload with
    | none => exact .choice (by simp) (by simp)
    | some payload =>
      have held : payload.equal (.leaf l) = true := by
        by_cases named : name = kind <;> simp_all [Schema.equalVariants, Entries.get?]
      cases payload with
      | leaf own =>
        refine .choice (fun kind payload member => ?_) (by simp)
        obtain ⟨-, rfl⟩ := by simpa using member
        exact .leaf own
      | _ => simp [Schema.equal] at held
  | _ => simp [Schema.equal] at same

theorem Command.normalize_agrees_lines :
    let description :=
      "\x7b\"kind\":\"choice\",\"spec\":\x7b\"big\":\x7b\"kind\":\"bigint\"\x7d\x7d\x7d"
    let lines := "\x7b\"kind\":\"big\",\"value\":\"007\"\x7d\n5\n"
    let disk : Disk :=
      ⟨.directory [("schema.json", .file description), ("some.ndjson", .file lines)], []⟩
    let documents : DocumentSource := ⟨["*.ndjson"], true⟩
    ReadsOnly Disk ∧
      (∀ schema, Schema.ofFile "schema.json" (contentAt disk "schema.json") = .ok schema →
        schema.KindFree) ∧
      Delivers (some "out.ndjson") disk ∧
      let checking := ((Command.check "schema.json" documents).finish disk).1
      let normalizing :=
        (Command.normalize "schema.json" ⟨none, .off⟩ documents (some "out.ndjson")).finish disk
      (normalizing.1.code = 0 ↔ checking.code = 0) ∧
        (normalizing.1.code ≠ 0 → normalizing.1.output = "" ∧ normalizing.2 = disk) := by
  intro description lines disk documents
  have held : ((Schema.ofFile "schema.json" (contentAt disk "schema.json")).toOption.any
      (·.equal (.choice [("big", some (.leaf .bigint))]))) = true := by
    decide +kernel +zetaReduce
  have free : ∀ schema, Schema.ofFile "schema.json" (contentAt disk "schema.json") = .ok schema →
      schema.KindFree := by
    intro schema done
    rw [done] at held
    exact kindFree_of_equal held
  have place : disk.locateEntry "out.ndjson" = .ok ([], "out.ndjson") := by
    decide +kernel +zetaReduce
  have missing : (disk.root.get? ["out.ndjson"]).isNone := by decide +kernel +zetaReduce
  have delivers : Delivers (some "out.ndjson") disk :=
    Disk.delivers (by decide +kernel) (place : disk.locateEntry _ = .ok ([], "out.ndjson"))
      (by decide +kernel) (Option.isNone_iff_eq_none.mp missing)
  exact ⟨Disk.readsOnly, free, delivers,
    Command.normalize_agrees Disk.readsOnly free documents delivers⟩

end WireSchema
