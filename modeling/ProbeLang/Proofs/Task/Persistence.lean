import ProbeLang.Proofs.Analysis.Class
import ProbeLang.Proofs.Session.Replacing
import ProbeLang.Task

/-!
# What the analysis leaves alone

Up to the end of its analysis a task opens no output, changes no file and takes nothing back from
what it has reported, however it ends. The listener stays what the plugins have left.
-/

namespace ProbeLang

/-- The memory of a store without the fault that it remembers. -/
def Memory.settled (m : Memory) : Memory :=
  { m with deferred := none }

namespace Session

variable {σ : Type} {s t u : Session σ}

/-- Whether a session goes on from another without an output, with units of its own behind those
that are there. -/
structure Persists (s t : Session σ) : Prop where
  options : t.options = s.options
  files : t.files = s.files
  outputs : t.outputs = s.outputs
  memory : t.store.memory.map Memory.settled = s.store.memory.map Memory.settled
  log : ∃ ds, t.log = s.log.reportAll ds
  units : s.sources.map SourceEntry.unit <+: t.sources.map SourceEntry.unit
  listener : t.listener = s.listener
  others : ∀ {name : String} {c : ClassSymbol}, s.symbols.find? name = some c →
    c.isSource = false → t.symbols.find? name = some c

namespace Persists

theorem refl (s : Session σ) : s.Persists s :=
  ⟨rfl, rfl, rfl, rfl, ⟨[], rfl⟩, List.prefix_refl _, rfl, fun hc _ => hc⟩

theorem trans (h : s.Persists t) (h' : t.Persists u) : s.Persists u where
  options := h'.options.trans h.options
  files := h'.files.trans h.files
  outputs := h'.outputs.trans h.outputs
  memory := h'.memory.trans h.memory
  log := by
    obtain ⟨ds, hds⟩ := h.log
    obtain ⟨ds', hds'⟩ := h'.log
    exact ⟨ds ++ ds', by rw [hds', hds, Log.reportAll_append]⟩
  units := List.IsPrefix.trans h.units h'.units
  listener := h'.listener.trans h.listener
  others hc hsource := h'.others (h.others hc hsource) hsource

theorem of_extends (h : s.Extends t) : s.Persists t where
  options := h.options
  files := h.files
  outputs := h.outputs
  memory := congrArg UnitStore.memory h.store
  log := h.log
  units := List.IsPrefix.map _ h.sources
  listener := h.listener
  others := h.others

theorem withTree (s : Session σ) (unit : Nat) (tree : UnitTree) :
    s.Persists (s.withTree unit tree) := by
  refine ⟨rfl, rfl, rfl, rfl, ⟨[], rfl⟩, ?_, rfl, fun hc _ => hc⟩
  have hunits : (s.withTree unit tree).sources.map SourceEntry.unit =
      s.sources.map SourceEntry.unit := by
    refine List.ext_getElem? fun i => ?_
    rw [List.getElem?_map, List.getElem?_map, Session.withTree, List.getElem?_modify]
    split
    · cases s.sources[i]? <;> rfl
    · exact congrArg _ (id_map _)
  exact hunits ▸ List.prefix_refl _

theorem errors_le (h : s.Persists t) : s.log.errors ≤ t.log.errors := by
  obtain ⟨ds, hds⟩ := h.log
  rw [hds]
  exact Log.errors_le_reportAll ds s.log

theorem clean (h : s.Persists t) (ht : t.log.errors = 0) : s.log.errors = 0 :=
  Nat.eq_zero_of_le_zero (ht ▸ h.errors_le)

end Persists

end Session

namespace SessionM

variable {σ α β : Type} {m : SessionM σ α} {f : α → SessionM σ β}

/-- Whether a step opens no output and changes no file. -/
def Persists (m : SessionM σ α) : Prop :=
  ∀ s : Session σ, s.Persists (m.run.run s).2

theorem Persists.of_run {s t : Session σ} {r : Except TaskFault α} (h : Persists m)
    (hrun : m.run.run s = (r, t)) : s.Persists t := by
  have hpersists := h s
  rwa [hrun] at hpersists

namespace Persists

theorem of_keeps (h : ∀ {s : Session σ}, Keeps s False m fun _ _ => True) : Persists m :=
  fun _ => .of_extends h.grows.toExtends

theorem pure (a : α) : Persists (Pure.pure a : SessionM σ α) :=
  fun s => .refl s

theorem throw (e : TaskFault) : Persists (MonadExcept.throw e : SessionM σ α) :=
  fun s => .refl s

theorem bind (hm : Persists m) (hf : ∀ a, Persists (f a)) : Persists (m >>= f) := by
  intro s
  rcases hrun : m.run.run s with ⟨_ | a, t⟩
  · rw [run_bind_error hrun]
    exact hm.of_run hrun
  · rw [run_bind_ok hrun]
    exact (hm.of_run hrun).trans (hf a t)

theorem get {f : Session σ → SessionM σ β} (h : ∀ s : Session σ, s.Persists ((f s).run.run s).2) :
    Persists (MonadState.get >>= f) :=
  h

end Persists

/-! ## Setting up -/

theorem persists_setLocations : Persists (setLocations : SessionM σ Unit) := by
  intro s
  have hmemory : ∀ (o : Option (List String)) (l : Location) (store : UnitStore),
      (o.elim store (store.setLocation l)).memory = store.memory := by
    intro o l store
    cases o <;> rfl
  refine ⟨rfl, rfl, rfl, ?_, ⟨[], rfl⟩, List.prefix_refl _, rfl, fun hc _ => hc⟩
  show Option.map _ (Option.elim _ _ _ : UnitStore).memory = _
  rw [hmemory, hmemory]

/-- All that plugins change is the listener and the state. -/
theorem run_initPlugins : ∀ (plugins : List (Plugin σ)) (s : Session σ), ∃ r state listener,
    (initPlugins plugins).run.run s = (r, { s with state, listener })
  | [], s => ⟨.ok (), s.state, s.listener, rfl⟩
  | p :: rest, s => by
      unfold initPlugins
      rw [run_get_bind]
      dsimp only
      split
      · next fault _ => exact ⟨.error fault, (p.init ⟨s.options, s.listener⟩ s.state).2, s.listener, rfl⟩
      · next cx _ =>
          obtain ⟨r, state, listener, hrun⟩ := run_initPlugins rest
            { s with state := (p.init ⟨s.options, s.listener⟩ s.state).2, listener := cx.listener }
          exact ⟨r, state, listener, hrun⟩

theorem persists_parseAll : ∀ (us : List CompilationUnit) (done : List (CompilationUnit × UnitTree)),
    Persists (parseAll done us : SessionM σ _)
  | [], done => .pure _
  | u :: rest, done => by
      unfold parseAll
      refine Persists.bind (.of_keeps (keeps_parse u).weaken) fun tree => ?_
      cases tree with
      | some tree => exact persists_parseAll rest _
      | none => exact persists_parseAll rest _

theorem persists_enterAll : ∀ (us : List (CompilationUnit × UnitTree)),
    Persists (enterAll us : SessionM σ Unit)
  | [] => .pure ()
  | (u, tree) :: rest => by
      refine Persists.bind (fun s => ?_) fun _ => persists_enterAll rest
      obtain ⟨t, hrun, hext, -⟩ := run_enter s u tree
      rw [hrun]
      exact .of_extends hext

/-! ## Analysis -/

theorem persists_putTree (unit : Nat) (tree : UnitTree) :
    Persists (putTree unit tree : SessionM σ Unit) :=
  fun s => .withTree s unit tree

theorem persists_analyseTop (bound unit number : Nat) (tree : UnitTree) :
    Persists (analyseTop bound unit number tree : SessionM σ UnitTree) := by
  cases hdecl : tree.types[number]? with
  | none =>
      unfold analyseTop
      rw [hdecl]
      exact .pure tree
  | some decl =>
      rw [analyseTop_eq hdecl]
      refine .bind (.of_keeps (keeps_analyseDecl False.elim).weaken) fun r => ?_
      cases r with
      | none => exact .pure tree
      | some decl' => exact .bind (persists_putTree _ _) fun _ => .pure _

theorem persists_analyse (bound unit number : Nat) :
    Persists (analyse bound unit number : SessionM σ _) := by
  refine .get fun s => ?_
  split
  · refine Persists.bind ?_ (fun _ => ?_) s
    · exact .of_keeps (.started _)
    · refine .bind (persists_analyseTop bound unit number _) fun tree => ?_
      exact .bind (.of_keeps (.finished _)) fun _ => .pure _
  · exact .refl s

theorem persists_analyseQueue (bound : Nat) : ∀ (fuel : Nat) (done : List QueuedClass),
    Persists (analyseQueue bound fuel done : SessionM σ _)
  | 0, done => .pure _
  | fuel + 1, done => by
      unfold analyseQueue
      refine .get fun s => ?_
      split
      · exact .refl s
      · refine Persists.bind ?_ (fun _ => ?_) s
        · exact fun s => ⟨rfl, rfl, rfl, rfl, ⟨[], rfl⟩, List.prefix_refl _, rfl, fun hc _ => hc⟩
        · refine .bind (persists_analyse bound _ _) fun q => ?_
          cases q with
          | some q => exact persists_analyseQueue bound fuel _
          | none => exact persists_analyseQueue bound fuel _

theorem persists_reportDeprecatedUses : Persists (reportDeprecatedUses : SessionM σ Unit) :=
  fun _ => ⟨rfl, rfl, rfl, rfl, ⟨_, rfl⟩, List.prefix_refl _, rfl, fun hc _ => hc⟩

/-- Up to the end of its analysis a task opens no output, and has no listener but what the plugins
have left. -/
theorem persists_analyseTask (task : CompilationTask σ) (s : Session σ) : ∃ r s₁ state listener,
    setLocations.run.run s = (.ok (), s₁) ∧
      (initPlugins task.plugins).run.run s₁ = (r, { s₁ with state, listener }) ∧
      Session.Persists { s with state, listener } ((analyseTask task).run.run s).2 := by
  obtain ⟨s₁, hlocations⟩ : ∃ s₁, setLocations.run.run s = (.ok (), s₁) := ⟨_, rfl⟩
  obtain ⟨r, state, listener, hplugins⟩ := run_initPlugins task.plugins s₁
  refine ⟨r, s₁, state, listener, hlocations, hplugins, ?_⟩
  have hset := persists_setLocations.of_run hlocations
  have hbegun : Session.Persists { s with state, listener } { s₁ with state, listener } :=
    ⟨hset.options, hset.files, hset.outputs, hset.memory, hset.log, hset.units, rfl,
      hset.others⟩
  refine hbegun.trans ?_
  unfold analyseTask
  rw [run_bind_ok hlocations]
  cases r with
  | error fault =>
      rw [run_bind_error hplugins]
      exact .refl _
  | ok done =>
      rw [run_bind_ok hplugins]
      refine Persists.bind (persists_parseAll _ _) (fun us => .bind (persists_enterAll us) fun _ =>
        .get fun s => ?_) _
      refine Persists.bind (persists_analyseQueue _ _ _) (fun qs => ?_) s
      exact .bind persists_reportDeprecatedUses fun _ => .pure qs

end SessionM

end ProbeLang
