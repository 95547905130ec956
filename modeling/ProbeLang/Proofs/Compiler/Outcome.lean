import ProbeLang.Proofs.Compiler.Calls
import ProbeLang.Proofs.Task.Faults
import ProbeLang.Proofs.Task.Refusals

/-!
# The ends of a compilation

A compilation that has units runs one task in a store of its own, which remembers nothing at first.
What the task ends with decides the end of the compilation (`Compilation.Ends`): a fault is that of
preprocessing exactly if the store has refused a source, and an answer gives artifacts exactly if no
error has been reported. Only where an error has been reported is the sink written to.
-/

namespace ProbeLang

open SessionM

/-! ## Sinks -/

/-- The text of diagnostics in their order, each on a line. -/
def Diagnostic.rendering (ds : List Diagnostic) : Bytes :=
  (ds.map fun d => Bytes.ofString (d.text ++ "\n")).flatten

namespace DiagnosticSink

open Diagnostic

/-- Whether a sink has room for bytes and can be flushed. -/
def Accepts (s : DiagnosticSink) (bytes : Bytes) : Prop :=
  (∀ room, s.room = some room → bytes.length ≤ room) ∧ s.flushes = true

variable {s : DiagnosticSink} {bytes : Bytes} {ds : List Diagnostic}

end DiagnosticSink

/-! ## Faults of a task -/

/-- Whether a session has ended with a fault because a source on the source path could not be
preprocessed, and its store remembers why. -/
structure Session.Refused {σ : Type} (u : Session σ) (e : TaskFault) (cause : PreprocessFault) :
    Prop where
  refuses : ∃ name, u.Refuses name cause
  fault : e = .io (.unprocessed cause.kind cause.message)
  remembered : u.store.takeDeferred.1 = some cause

namespace Session

variable {σ : Type} {s u : Session σ} {e : TaskFault}

/-- A store that remembers nothing remembers the source that it has refused when the session ends. -/
theorem Halts.cases (h : Halts e s u) (hs : s.store.takeDeferred.1 = none) :
    (∃ cause, u.Refused e cause) ∨
      ((∃ fault, e = .io fault ∧ fault.Plain) ∨ e = .endless) ∧
        u.store.takeDeferred.1 = none := by
  rcases h with (⟨name, hm, refuses, fault, store, files⟩ | ⟨he, plain, rests⟩) | ⟨he, rests⟩
  · refine .inl ⟨_, ⟨name, ?_⟩, fault, ?_⟩
    · obtain ⟨unit, hfound, hadapt⟩ := refuses
      refine ⟨unit, ?_, ?_⟩
      · rw [files, store]
        exact hfound
      · rw [files, store]
        rw [UnitStore.searchPath, hm] at hadapt
        exact hadapt
    · rw [store]
      rfl
  · exact .inr ⟨.inl ⟨_, he, plain⟩, by rw [rests.store]; exact hs⟩
  · exact .inr ⟨.inr he, by rw [rests.store]; exact hs⟩

end Session

namespace Compiler

variable {c : Compiler} {files : FileTree} {registries : ClassRegistries} {sink : DiagnosticSink}
  {paths : CompilePaths} {options : Options} {units : List CompilationUnit}

/-- The options of a compilation are never refused. -/
theorem ofList_taskOptions (paths : CompilePaths) :
    ∃ options, Options.ofList (taskOptions paths) = .ok options := by
  obtain ⟨sources, classes⟩ := paths
  cases sources <;> cases classes <;> exact ⟨_, rfl⟩

theorem memory_setLocations {σ : Type} (s : Session σ) :
    (setLocations.run.run s).2.store.memory = s.store.memory := by
  have hmemory : ∀ (o : Option (List String)) (l : Location) (store : UnitStore),
      (o.elim store (store.setLocation l)).memory = store.memory := by
    intro o l store
    cases o <;> rfl
  exact (hmemory _ _ _).trans (hmemory _ _ _)

/-- The verifiers of a compiler can always be set up, in a store that remembers nothing. -/
theorem setUp_task (c : Compiler) (options : Options) (units : List CompilationUnit)
    (files : FileTree) (registries : ClassRegistries) :
    ∃ s, (c.task options units).setUp files (.inMemory c.includes) registries = (.ok (), s) ∧
      s.store.takeDeferred.1 = none := by
  let located : Session ClassRegistries := (setLocations.run.run
    { (c.task options units).session files (.inMemory c.includes) registries with
      called := true }).2
  obtain ⟨t, hset, -, -⟩ := initPlugins_numbered c.verifiers.zipIdx
    (s := located) (n := registries.length) nofun rfl
  obtain ⟨r, state, listener, hrun⟩ := run_initPlugins (numbered c.verifiers.zipIdx) located
  cases hset.symm.trans hrun
  rw [← plugins_numbered] at hset
  refine ⟨_, hset, ?_⟩
  show located.store.memory.bind Memory.deferred = none
  rw [memory_setLocations]
  rfl

end Compiler

/-! ## Compilations -/

/-- How a compilation ends whose task has ended: with what, and what the sink has taken by then. -/
inductive Compilation.Ends (sink : DiagnosticSink) (u : Session ClassRegistries) :
    Except TaskFault Bool → Compilation → Prop
  | refused {e : TaskFault} {cause : PreprocessFault} {r : Compilation}
      (refused : u.Refused e cause) (result : r.result = .error (.preprocess cause))
      (untouched : r.sink = sink) : Ends sink u (.error e) r
  | failed {e : TaskFault} {r : Compilation}
      (plain : ∀ kind message, e ≠ .io (.unprocessed kind message))
      (result : r.result = .error (.task e)) (untouched : r.sink = sink) :
      Ends sink u (.error e) r
  | compiled {r : Compilation} (clean : u.log.Clean)
      (result : r.result = .ok (some u.store.artifacts)) (untouched : r.sink = sink) :
      Ends sink u (.ok true) r
  | reported {r : Compilation} (unclean : ¬ u.log.Clean)
      (accepts : sink.Accepts (Diagnostic.rendering u.log.diagnostics)) (result : r.result = .ok none)
      (taken : r.sink.taken = sink.taken ++ Diagnostic.rendering u.log.diagnostics) :
      Ends sink u (.ok false) r
  | unwritten {r : Compilation} {fault : SinkFault} {part : Bytes} (unclean : ¬ u.log.Clean)
      (rejects : ¬ sink.Accepts (Diagnostic.rendering u.log.diagnostics))
      (result : r.result = .error (.sink fault))
      (first : part <+: Diagnostic.rendering u.log.diagnostics)
      (taken : r.sink.taken = sink.taken ++ part) : Ends sink u (.ok false) r

namespace Compilation.Ends

variable {sink : DiagnosticSink} {u : Session ClassRegistries} {answer : Except TaskFault Bool}
  {r : Compilation} {e : TaskFault} {cause : PreprocessFault} {map : ArtifactMap}

end Compilation.Ends

namespace Compiler

variable {c : Compiler} {files : FileTree} {registries : ClassRegistries} {sink : DiagnosticSink}
  {paths : CompilePaths} {options : Options} {units : List CompilationUnit}

/-- Whether a request has been prepared and its task has ended with an answer or a fault. -/
def Runs (c : Compiler) (files : FileTree) (registries : ClassRegistries)
    (paths : CompilePaths) (request : CompileRequest) (answer : Except TaskFault Bool)
    (u : Session ClassRegistries) : Prop :=
  ∃ units options, c.requestUnits files request = .ok units ∧
    Options.ofList (taskOptions paths) = .ok options ∧
      (c.task options units).call
        ((c.task options units).session files (.inMemory c.includes) registries) = (answer, u)

variable {request : CompileRequest}

/-- Every request is prepared before it is compiled. -/
theorem compile_eq (c : Compiler) (files : FileTree) (registries : ClassRegistries)
    (sink : DiagnosticSink) (paths : CompilePaths) (request : CompileRequest) :
    c.compile files registries sink paths request =
      c.compilePrepared files registries sink paths (c.requestUnits files request) := by
  cases request <;> rfl

/-- A request that has been prepared is compiled by a task. -/
theorem compile_eq_conclude (registries : ClassRegistries) (sink : DiagnosticSink)
    (paths : CompilePaths) (h : c.requestUnits files request = .ok units) :
    ∃ options answer u, Options.ofList (taskOptions paths) = .ok options ∧
      (c.task options units).call
        ((c.task options units).session files (.inMemory c.includes) registries) = (answer, u) ∧
      c.compile files registries sink paths request = conclude sink u answer := by
  obtain ⟨options, hoptions⟩ := ofList_taskOptions paths
  rcases hcall : (c.task options units).call
    ((c.task options units).session files (.inMemory c.includes) registries) with ⟨answer, u⟩
  refine ⟨options, answer, u, hoptions, hcall, ?_⟩
  have hunits : c.compileUnits files registries sink paths units = conclude sink u answer := by
    unfold task at hcall
    unfold compileUnits
    rw [hoptions]
    simp only [hcall]
  rw [compile_eq, h, ← hunits]
  rfl

theorem Runs.unique {answer answer' : Except TaskFault Bool} {u u' : Session ClassRegistries}
    (h : c.Runs files registries paths request answer u)
    (h' : c.Runs files registries paths request answer' u') : answer = answer' ∧ u = u' := by
  obtain ⟨units, options, hunits, hoptions, hcall⟩ := h
  obtain ⟨units', options', hunits', hoptions', hcall'⟩ := h'
  cases hunits.symm.trans hunits'
  cases hoptions.symm.trans hoptions'
  cases hcall.symm.trans hcall'
  exact ⟨rfl, rfl⟩

end Compiler

end ProbeLang
