import WireSchema.Files.Disk
import WireSchema.Files.Search
import WireSchema.Proofs.Outcome

/-!
Following a pattern only looks: it asks what paths lead to and what folders hold, and leaves all of
it as it is, also where it ends at a folder that cannot be read. What it says of that folder is what
reading the folder says.
-/

set_option autoImplicit false

namespace WireSchema.Files

section

variable {σ ε ε' α β : Type}

/-- Whatever the answer, everything is left as it was. -/
def Looks (ask : StateM σ α) : Prop :=
  ∀ before, (ask.run before).2 = before

theorem Looks.run_bind {ask : StateM σ α} (looks : Looks ask) (next : α → StateM σ β)
    (before : σ) : (ask >>= next).run before = (next (ask.run before).1).run before := by
  have passed : (ask >>= next).run before =
      (next (ask.run before).1).run (ask.run before).2 := rfl
  rw [passed, looks before]

/-- Everything is left as it was, and what ends the search early has its cause in that. -/
structure Seeks (cause : σ → ε → Prop) (ask : ExceptT ε (StateM σ) α) : Prop where
  looks : Looks ask.run
  caused : ∀ before e, (ask.run.run before).1 = .error e → cause before e

variable {cause : σ → ε → Prop} {cause' : σ → ε' → Prop}

theorem seeks_pure (a : α) : Seeks cause (pure a : ExceptT ε (StateM σ) α) where
  looks _ := rfl
  caused _ _ failed := nomatch failed

theorem seeks_throw {e : ε} (caused : ∀ before, cause before e) :
    Seeks cause (throw e : ExceptT ε (StateM σ) α) where
  looks _ := rfl
  caused before _ failed := Except.error.inj failed ▸ caused before

theorem Looks.seeks {ask : StateM σ α} (looks : Looks ask) :
    Seeks cause (liftM ask : ExceptT ε (StateM σ) α) where
  looks before := looks before
  caused _ _ failed := nomatch failed

theorem Seeks.bind {ask : ExceptT ε (StateM σ) α} {next : α → ExceptT ε (StateM σ) β}
    (seeks : Seeks cause ask) (later : ∀ a, Seeks cause (next a)) : Seeks cause (ask >>= next) := by
  have after : ∀ before, (ask >>= next).run.run before =
      match (ask.run.run before).1 with
      | .ok a => (next a).run.run before
      | .error e => (.error e, before) := by
    intro before
    rw [ExceptT.run_bind, seeks.looks.run_bind]
    cases (ask.run.run before).1 <;> rfl
  constructor
  · intro before
    rw [after]
    split
    · next a _ => exact (later a).looks before
    · rfl
  · intro before e failed
    rw [after] at failed
    split at failed
    · next a _ => exact (later a).caused before e failed
    · next first asked =>
      obtain rfl := Except.error.inj failed
      exact seeks.caused before first asked

theorem Seeks.adapt {ask : ExceptT ε (StateM σ) α} (seeks : Seeks cause ask) {f : ε → ε'}
    (told : ∀ before e, cause before e → cause' before (f e)) :
    Seeks cause' (ExceptT.adapt f ask) where
  looks before := seeks.looks before
  caused before e failed := by
    have adapted : ((ask.run.run before).1).mapError f = .error e := failed
    obtain ⟨first, asked, rfl⟩ := mapError_eq_error.mp adapted
    exact told before first (seeks.caused before first asked)

theorem seeks_ite {p : Prop} [Decidable p] {yes no : ExceptT ε (StateM σ) α}
    (left : Seeks cause yes) (right : Seeks cause no) : Seeks cause (if p then yes else no) := by
  split
  · exact left
  · exact right

theorem seeks_ite_bind {p : Prop} [Decidable p] {yes no : ExceptT ε (StateM σ) α}
    {next : α → ExceptT ε (StateM σ) β} (left : Seeks cause yes) (right : Seeks cause no)
    (later : ∀ a, Seeks cause (next a)) :
    Seeks cause (if p then yes >>= next else no >>= next) :=
  seeks_ite (left.bind later) (right.bind later)

theorem seeks_mapM {f : α → ExceptT ε (StateM σ) β} (each : ∀ a, Seeks cause (f a))
    (as : List α) : Seeks cause (as.mapM f) := by
  induction as with
  | nil => exact seeks_pure []
  | cons a rest ih =>
    rw [List.mapM_cons]
    exact (each a).bind fun b => ih.bind fun bs => seeks_pure (b :: bs)

end

structure ReadsOnly (σ : Type) [Readable (StateM σ)] : Prop where
  readText : ∀ path, Looks (Readable.readText path : StateM σ (Except FileFault String))
  kind : ∀ path, Looks (Readable.kind? path : StateM σ (Option EntryKind))
  names : ∀ folder, Looks (Readable.names folder : StateM σ (Except FileFault (List String)))

theorem Disk.readsOnly : ReadsOnly Disk where
  readText _ _ := rfl
  kind _ _ := rfl
  names _ _ := rfl

/-- The folder cannot be read, for the reason given. -/
def Unreadable {σ : Type} [Readable (StateM σ)] (before : σ) (fault : SearchFault) : Prop :=
  ((Readable.names fault.folder : StateM σ (Except FileFault (List String))).run before).1 =
    .error fault.fault

namespace ReadsOnly

variable {σ : Type} [Readable (StateM σ)] {cause : σ → SearchFault → Prop}
  (readsOnly : ReadsOnly σ)
include readsOnly

theorem isFolder (path : String) : Seeks cause (isFolder path : Search (StateM σ) Bool) :=
  Looks.seeks fun before => readsOnly.kind path before

theorem isThere (path : String) : Seeks cause (isThere path : Search (StateM σ) Bool) :=
  Looks.seeks fun before => readsOnly.kind path before

theorem namesIn (folder : String) :
    Seeks Unreadable (namesIn folder : Search (StateM σ) (List String)) where
  looks before := readsOnly.names folder before
  caused before fault failed := by
    have asked : (((Readable.names folder : StateM σ (Except FileFault (List String))).run
        before).1).mapError (SearchFault.mk folder) = .error fault := failed
    obtain ⟨reason, unread, rfl⟩ := mapError_eq_error.mp asked
    exact unread

theorem arrived (foldersOnly : Bool) (path : String) :
    Seeks cause (arrived foldersOnly path : Search (StateM σ) (List String)) :=
  (readsOnly.isFolder path).bind fun _ => seeks_pure _

section

variable {follow : List Component → String → Search (StateM σ) (List String)}
  (rest : ∀ components path, Seeks cause (follow components path))
include rest

theorem onwards (foldersOnly : Bool) (components : List Component) (path : String) :
    Seeks cause (onwards follow foldersOnly components path) :=
  seeks_ite (readsOnly.arrived foldersOnly path) (rest components path)

theorem held (foldersOnly : Bool) (name path : String) (components : List Component) :
    Seeks cause (held follow foldersOnly name path components) := by
  match components with
  | [] => exact seeks_pure []
  | .folders :: _ => exact seeks_pure []
  | .name _ :: more =>
    exact seeks_ite (readsOnly.onwards rest foldersOnly more path) (seeks_pure [])

theorem heldAnywhere (foldersOnly : Bool) (name path : String) (components : List Component) :
    Seeks cause (heldAnywhere follow foldersOnly name path components) := by
  refine (readsOnly.isFolder path).bind fun inFolder => ?_
  refine seeks_ite_bind (seeks_pure _) (readsOnly.held rest foldersOnly name path components)
    fun here => ?_
  exact seeks_ite_bind (rest _ path) (seeks_pure []) fun deeper => seeks_pure _

end

theorem follow (foldersOnly : Bool) (depth : Nat) (components : List Component) (folder : String) :
    Seeks Unreadable
      (follow foldersOnly depth components folder : Search (StateM σ) (List String)) := by
  induction depth generalizing components folder with
  | zero => exact seeks_pure []
  | succ depth ih =>
    match components with
    | [] => exact seeks_pure []
    | .folders :: more =>
      refine (readsOnly.isFolder folder).bind fun inFolder => seeks_ite ?_ (seeks_pure [])
      refine (readsOnly.namesIn folder).bind fun names => Seeks.bind ?_ fun found => seeks_pure _
      exact seeks_mapM (fun name => readsOnly.heldAnywhere ih foldersOnly name _ _) names
    | .name tokens :: rest =>
      unfold Files.follow
      split
      · next name _ =>
        refine seeks_ite_bind (readsOnly.isFolder folder) (readsOnly.isThere _) fun there => ?_
        exact seeks_ite (readsOnly.onwards ih foldersOnly rest _) (seeks_pure [])
      · refine (readsOnly.isFolder folder).bind fun inFolder => seeks_ite ?_ (seeks_pure [])
        refine (readsOnly.namesIn folder).bind fun names => Seeks.bind ?_ fun around => ?_
        · exact seeks_mapM (fun name => readsOnly.onwards ih foldersOnly rest _) _
        · refine Seeks.bind ?_ fun found => seeks_pure _
          exact seeks_mapM (fun name => readsOnly.held ih foldersOnly name _ _) names

theorem paths (pattern : Pattern) :
    Seeks Unreadable (pattern.paths : Search (StateM σ) (List String)) :=
  readsOnly.follow pattern.foldersOnly _ pattern.components pattern.start

end ReadsOnly

end WireSchema.Files
