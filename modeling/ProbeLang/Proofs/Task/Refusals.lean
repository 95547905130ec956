import ProbeLang.Proofs.Task.Events

/-!
# Sources that cannot be preprocessed

A store that preprocesses the sources which it finds refuses those for which that fails, and remembers
why. Nothing else that a task does up to the end of its analysis changes the store of the task
(`Session.Rests`), and nothing goes on after a fault. So looking for a class ends with a fault in one
of two ways (`Session.Fails`): a source was refused, which the store then remembers, or a file could
not be read and the store remembers what it did before. The analysis ends with a fault in one of
these ways, or it does not end (`Session.Halts`).
-/

namespace ProbeLang

open SessionM

/-! ## Files that cannot be read -/

/-- Whether a step on files fails only as files do, and not because preprocessing has failed. -/
def IoFault.Plain (fault : IoFault) : Prop :=
  ∀ kind message, fault ≠ .unprocessed kind message

/-- Whether all faults of a step on files are plain. -/
def PlainIo {α : Type} (r : Except IoFault α) : Prop :=
  ∀ fault, r = .error fault → fault.Plain

namespace PlainIo

variable {α β : Type}

theorem ok (a : α) : PlainIo (.ok a) :=
  fun _ h => by cases h

theorem error {fault : IoFault} (h : fault.Plain) : PlainIo (.error fault : Except IoFault α) := by
  intro fault' h'
  cases h'
  exact h

theorem bind {r : Except IoFault α} {f : α → Except IoFault β} (hr : PlainIo r)
    (hf : ∀ a, PlainIo (f a)) : PlainIo (r >>= f) := by
  cases r with
  | error fault => exact error (hr fault rfl)
  | ok a => exact hf a

end PlainIo

namespace FileTree

variable (t : FileTree) (path : String)

theorem plain_checked : PlainIo (checked path) := by
  unfold checked
  split
  · exact .error nofun
  · split
    · exact .error nofun
    · split
      · exact .error nofun
      · exact .ok ()

theorem plain_read : PlainIo (t.read path) := by
  have hresolve : PlainIo (t.resolve path) := by
    refine (plain_checked path).bind fun _ => ?_
    split
    · split
      · exact .ok []
      · exact .error nofun
    · cases t.follow [] (FilePath.segments path) with
      | error fault => exact .error nofun
      | ok key => exact .ok key
  have hfind : PlainIo (t.find path) := by
    refine hresolve.bind fun key => ?_
    split
    · exact .ok _
    · exact .error nofun
  refine hfind.bind fun e => ?_
  split
  · exact .ok _
  · exact .error nofun

theorem plain_readText : PlainIo (t.readText path) := by
  refine (t.plain_read path).bind fun bytes => ?_
  split
  · exact .ok _
  · exact .error nofun

end FileTree

theorem CompilationUnit.plain_content (u : CompilationUnit) (t : FileTree) :
    PlainIo (u.content t) := by
  unfold content
  split
  · exact t.plain_readText _
  · exact .ok _

theorem CompilationUnit.plain_bytes (u : CompilationUnit) (t : FileTree) :
    PlainIo (u.bytes t) := by
  unfold bytes
  split
  · exact t.plain_read _
  · exact .ok _

/-! ## Sessions -/

namespace Session

variable {σ : Type} {s t u : Session σ}

/-- Whether neither the store nor the files of a session have changed. -/
structure Rests (s t : Session σ) : Prop where
  store : t.store = s.store
  files : t.files = s.files

instance : IsPreorder (Session σ) Rests where
  refl _ := ⟨rfl, rfl⟩
  trans _ _ _ h h' := ⟨h'.store.trans h.store, h'.files.trans h.files⟩

theorem Quiet.rests (h : s.Quiet t) : s.Rests t :=
  ⟨h.2, h.1.files⟩

theorem rests_told (s : Session σ) (n : Notice) : s.Rests (told s n) := by
  unfold told
  split <;> exact ⟨rfl, rfl⟩

/-- Whether the unit of a class is found on the source path, and why it cannot be preprocessed. -/
def Refuses (s : Session σ) (name : String) (cause : PreprocessFault) : Prop :=
  ∃ unit, s.store.findInput s.files .sourcePath name .source = some unit ∧
    UnitStore.adapt s.files s.store.searchPath unit = .error cause

/-- How a session ends with a fault of a file: a source is refused, and the store remembers why, or
a file cannot be read. -/
inductive Fails (e : TaskFault) (s t : Session σ) : Prop
  | refused (name : String) {m : Memory} {cause : PreprocessFault} (hm : s.store.memory = some m)
      (refuses : s.Refuses name cause) (fault : e = .io (.unprocessed cause.kind cause.message))
      (store : t.store = { s.store with memory := some { m with deferred := some cause } })
      (files : t.files = s.files)
  | unread {fault : IoFault} (he : e = .io fault) (plain : fault.Plain) (rests : s.Rests t)

/-- How a session ends with a fault: that of a file, or it does not end. -/
inductive Halts (e : TaskFault) (s t : Session σ) : Prop
  | fails (h : Fails e s t)
  | endless (he : e = .endless) (rests : s.Rests t)

theorem Fails.io {e : TaskFault} (h : Fails e s t) : ∃ fault, e = .io fault := by
  cases h with
  | refused name hm refuses fault store files => exact ⟨_, fault⟩
  | unread he plain rests => exact ⟨_, he⟩

theorem Rests.fails {e : TaskFault} (h : s.Rests t) (h' : Fails e t u) : Fails e s u := by
  cases h' with
  | refused name hm refuses fault store files =>
      unfold Refuses at refuses
      rw [h.store] at hm store refuses
      rw [h.files] at files refuses
      exact .refused name hm refuses fault store files
  | unread he plain rests => exact .unread he plain (trans_of Rests h rests)

end Session

namespace SessionM

open Session

variable {σ α : Type} {s t : Session σ} {T : TaskFault → Session σ → Session σ → Prop}

theorem rests_ofIo {r : Except IoFault α} (hr : PlainIo r) :
    Moves Rests Fails s (ofIo r) fun _ _ => True := by
  cases r with
  | error fault => exact .throw (.unread rfl (hr fault rfl) (refl_of Rests s))
  | ok a => exact .pure trivial

theorem rests_modify {f : Session σ → Session σ} (h : s.Rests (f s)) :
    Moves Rests T s (modify f) fun _ _ => True :=
  .of_run_ok (run_modify s f) h trivial

theorem rests_quiet {m : SessionM σ α} {Q : α → Session σ → Prop} (h : Moves Quiet T s m Q) :
    Moves Rests T s m fun _ _ => True :=
  h.weaken.rel Quiet.rests

theorem rests_started (e : TaskEvent) : Moves Rests T s (started e) fun _ _ => True :=
  .of_run_ok (run_started_eq s e) (rests_told s _) trivial

theorem rests_finished (e : TaskEvent) : Moves Rests T s (finished e) fun _ _ => True :=
  .of_run_ok (run_finished_eq s e) (rests_told s _) trivial

/-! ## Reading and entering -/

/-- Only a source on the source path can be refused. -/
theorem rests_input (l : Location) (name : String) (kind : UnitKind)
    (hl : kind = .source → l = .sourcePath) :
    Moves Rests Fails s (input l name kind) fun _ _ => True := by
  unfold input
  refine .get ?_
  unfold UnitStore.input
  cases hfind : s.store.findInput s.files l name kind with
  | none => exact .of_run_ok rfl ⟨rfl, rfl⟩ trivial
  | some unit =>
      cases hm : s.store.memory with
      | none => exact .of_run_ok rfl ⟨rfl, rfl⟩ trivial
      | some m =>
          dsimp only
          split
          · exact .of_run_ok rfl ⟨rfl, rfl⟩ trivial
          · next hkind =>
              split
              · exact .of_run_ok rfl ⟨rfl, rfl⟩ trivial
              · next cause hadapt =>
                  have hsource : kind = .source := by
                    obtain ⟨path, -, rfl⟩ := Option.map_eq_some_iff.mp hfind
                    exact not_not.mp hkind
                  rw [hsource, hl hsource] at hfind
                  refine .of_run_error rfl (refl_of Rests s)
                    (.refused name hm ⟨unit, hfind, ?_⟩ rfl rfl rfl)
                  rw [UnitStore.searchPath, hm]
                  exact hadapt

theorem rests_parse (unit : CompilationUnit) :
    Moves Rests Fails s (parse unit) fun _ _ => True := by
  refine (rests_started _).bind fun _ t _ _ => .get ?_
  refine (rests_ofIo (unit.plain_content t.files)).bind fun _ _ _ _ => ?_
  split
  · refine (rests_quiet (quiet_problem _ _ _)).bind fun _ _ _ _ => ?_
    exact (rests_finished _).bind fun _ _ _ _ => .pure trivial
  · exact (rests_finished _).bind fun _ _ _ _ => .pure trivial

theorem rests_enterSymbol (u : Entering) (pos : Pos) (c : ClassSymbol) :
    Moves Rests T s (enterSymbol u pos c) fun _ _ => True := by
  refine .get ?_
  split
  · exact rests_modify ⟨rfl, rfl⟩
  · exact rests_quiet (quiet_problem _ _ _)

mutual

theorem rests_enterClass : ∀ (c : ClassDecl) {s : Session σ} (u : Entering) (binary : String)
    (outer : Option String) (place : List Nat),
    Moves Rests T s (enterClass u binary outer place c) fun _ _ => True
  | ⟨_, _, _, members, _⟩, _, u, binary, _, place =>
      (rests_enterMembers members u binary _ place 0 []).bind fun _ _ _ _ =>
        rests_enterSymbol u _ _

theorem rests_enterMembers : ∀ (members : List Member) {s : Session σ} (u : Entering)
    (binary simple : String) (place : List Nat) (i : Nat) (types : Table String),
    Moves Rests T s (enterMembers u binary simple place i types members) fun _ _ => True
  | [], _, _, _, _, _, _, _ => .pure trivial
  | .field _ :: rest, _, u, binary, simple, place, i, types =>
      rests_enterMembers rest u binary simple place (i + 1) types
  | .method _ :: rest, _, u, binary, simple, place, i, types =>
      rests_enterMembers rest u binary simple place (i + 1) types
  | .type decl :: rest, s, u, binary, simple, place, i, types => by
      unfold enterMembers
      dsimp only
      split
      · refine (rests_quiet (quiet_problem _ _ _)).bind fun _ _ _ _ => ?_
        exact rests_enterMembers rest u binary simple place (i + 1) types
      · refine (rests_enterClass decl u _ _ _).bind fun _ _ _ _ => ?_
        exact rests_enterMembers rest u binary simple place (i + 1) _

end

theorem rests_enterTypes (u : Entering) (tree : UnitTree) : ∀ (i : Nat) (decls : List ClassDecl)
    {s : Session σ}, Moves Rests T s (enterTypes u tree i decls) fun _ _ => True
  | _, [], _ => .pure trivial
  | i, decl :: rest, s => by
      unfold enterTypes
      refine .get ?_
      split
      · refine (rests_quiet (quiet_problem _ _ _)).bind fun _ _ _ _ => ?_
        exact rests_enterTypes u tree (i + 1) rest
      · refine (rests_enterClass decl u _ _ _).bind fun _ _ _ _ => ?_
        refine (rests_modify ⟨rfl, rfl⟩).bind fun _ _ _ _ => ?_
        exact rests_enterTypes u tree (i + 1) rest

theorem rests_enter (unit : CompilationUnit) (tree : UnitTree) :
    Moves Rests T s (enter unit tree) fun _ _ => True := by
  refine .get ((rests_modify ⟨rfl, rfl⟩).bind fun _ _ _ _ => ?_)
  refine (rests_started _).bind fun _ _ _ _ => ?_
  exact (rests_enterTypes _ tree 0 _).bind fun _ _ _ _ => rests_finished _

/-! ## Looking for classes -/

theorem rests_loadSource (name : String) :
    Moves Rests Fails s (loadSource name) fun _ _ => True := by
  refine (rests_input .sourcePath name .source fun _ => rfl).bind fun found _ _ _ => ?_
  cases found with
  | none => exact .pure trivial
  | some unit =>
      refine .get ?_
      split
      · exact .get (.pure trivial)
      · refine (rests_parse unit).bind fun tree _ _ _ => ?_
        cases tree with
        | none => exact .pure trivial
        | some tree =>
            refine (rests_enter unit tree).bind fun _ _ _ _ => .get ?_
            split
            · exact .pure trivial
            · exact (rests_quiet (quiet_problem _ _ _)).bind fun _ _ _ _ => .pure trivial

theorem rests_loadArtifact (name : String) :
    Moves Rests Fails s (loadArtifact name) fun _ _ => True := by
  refine (rests_input .classPath name .artifact nofun).bind fun found t _ _ => ?_
  cases found with
  | none => exact .pure trivial
  | some unit =>
      refine .get ((rests_ofIo (unit.plain_bytes t.files)).bind fun _ _ _ _ => ?_)
      split
      · exact (rests_quiet (quiet_report _)).bind fun _ _ _ _ => .pure trivial
      · split
        · refine .get ?_
          split
          · exact (rests_modify ⟨rfl, rfl⟩).bind fun _ _ _ _ => .pure trivial
          · exact .pure trivial
        · exact (rests_quiet (quiet_report _)).bind fun _ _ _ _ => .pure trivial

variable {find : String → SessionM σ Bool}

theorem rests_findWith
    (hfind : ∀ {name : String} {s : Session σ}, Moves Rests Fails s (find name) fun _ _ => True)
    (name : String) : Moves Rests Fails s (findWith find name) fun _ _ => True := by
  refine .get ?_
  split
  · exact .pure trivial
  · split
    · exact .pure trivial
    · refine hfind.bind fun _ _ _ _ => ?_
      split
      · exact .pure trivial
      · refine (rests_loadArtifact name).bind fun _ _ _ _ => ?_
        split
        · exact .pure trivial
        · exact (rests_modify ⟨rfl, rfl⟩).bind fun _ _ _ _ => .pure trivial

/-- Looking for a class changes the store only when it refuses a source. -/
theorem rests_findClass (name : String) :
    Moves Rests Fails s (findClass name) fun _ _ => True := by
  unfold findClass
  dsimp only
  split
  · exact rests_findWith (rests_loadSource _) name
  · refine rests_findWith (fun {name _} => ?_) _
    refine (rests_findWith (rests_loadSource _) _).bind fun _ _ _ _ => ?_
    split
    · exact .get (.pure trivial)
    · exact .pure trivial

/-! ## Analysis -/

instance : IsPreorder (Session σ) fun s t => s.Extends t ∧ s.Rests t where
  refl s := ⟨.refl s, refl_of Rests s⟩
  trans _ _ _ h h' := ⟨h.1.trans h'.1, trans_of Rests h.2 h'.2⟩

end SessionM

end ProbeLang
