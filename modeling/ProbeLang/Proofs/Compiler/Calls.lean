import ProbeLang.Proofs.Policy.Soundness
import ProbeLang.Proofs.Task.Events

/-!
# Calls of one compiler

All that a compiler keeps from one call to the next are the registries of its verifiers, one for
each of them. A call may end anywhere, with whatever classes are in the registries by then. But the
verifiers are told things only through `TaskListener.tell`, so however a call ends there are as many
registries as there were; and each verifier begins its registry anew when it is set up, in front of
everything else that a task does. Declarations are told apart by their unit and their place in it,
both of which a session counts from nothing. So a call does not depend on the ones before it.
-/

namespace ProbeLang

open SessionM

/-! ## What listeners keep of their state -/

namespace TaskListener

variable {σ : Type} {l l' : TaskListener σ} {P : σ → Prop}

/-- Whether a listener keeps a property of its state, whatever it is told. -/
def Keeps (l : TaskListener σ) (P : σ → Prop) : Prop :=
  ∀ n state log, P state → P (l.tell n state log).1

theorem Keeps.andThen (hl : l.Keeps P) (hl' : l'.Keeps P) : (l.andThen l').Keeps P := by
  intro n state log hstate
  cases n with
  | started e => exact hl' (.started e) _ _ (hl (.started e) state log hstate)
  | finished e => exact hl' (.finished e) _ _ (hl (.finished e) state log hstate)

theorem Hears.keeps (hl : l.Keeps P) {ns : List Notice} {state state' : σ} {log log' : Log}
    (h : l.Hears ns state log state' log') (hstate : P state) : P state' := by
  induction h with
  | done => exact hstate
  | report ds _ ih => exact ih hstate
  | next n _ ih => exact ih (hl n _ _ hstate)

end TaskListener

namespace Session

variable {σ α : Type} {s t : Session σ} {P : σ → Prop} {ns : List Notice} {r : Except TaskFault α}

/-- Whether the listener of a session, if there is one, keeps a property of its state. -/
def ListenerKeeps (s : Session σ) (P : σ → Prop) : Prop :=
  ∀ l, s.listener = some l → l.Keeps P

theorem Tells.keeps (h : s.Tells ns t) (hs : s.ListenerKeeps P) (hstate : P s.state) :
    P t.state := by
  cases hl : s.listener with
  | none =>
      rw [h.unheard hl]
      exact hstate
  | some l => exact (h.heard l hl).keeps (hs l hl) hstate

theorem Relays.keeps (h : s.Relays ns r t) (hs : s.ListenerKeeps P) (hstate : P s.state) :
    P t.state := by
  cases r with
  | ok a => exact Tells.keeps h hs hstate
  | error e =>
      obtain ⟨told, -, htells⟩ := h
      exact htells.keeps hs hstate

end Session

/-! ## Verifiers -/

namespace Verifier

variable {σ : Type} {registry : ClassRegistry σ} {P : σ → Prop}

theorem listener_keeps (v : Verifier) (hput : ∀ names state, P state → P (registry.put names state)) :
    (v.listener registry).Keeps P := by
  intro n state log hstate
  cases n with
  | started e => exact hstate
  | finished e =>
      show P ((v.listener registry).finished e state log).1
      unfold listener
      dsimp only
      split
      · exact hput _ _ hstate
      · exact hstate

/-- A verifier that is set up has a registry that begins anew, and listens behind the listener that
is there. -/
theorem run_initPlugins_cons (v : Verifier) (registry : ClassRegistry σ) (rest : List (Plugin σ))
    (s : Session σ) : (initPlugins (v.plugin registry :: rest)).run.run s =
      (initPlugins rest).run.run
        { s with
          state := registry.put [] s.state
          listener := some (v.listenAfter registry s.listener) } := rfl

end Verifier

namespace SessionM

open Session Verifier

variable {s s' : Session ClassRegistries} {n : Nat}

/-- The plugins of verifiers that have the registries of the given numbers. -/
def numbered (vs : List (Verifier × Nat)) : List (Plugin ClassRegistries) :=
  vs.map fun p => p.1.plugin (.ofRegistries p.2)

/-- Verifiers that have been set up keep the number of registries. -/
theorem initPlugins_numbered : ∀ (vs : List (Verifier × Nat)) {s : Session ClassRegistries},
    s.ListenerKeeps (·.length = n) → s.state.length = n →
      ∃ t, (initPlugins (numbered vs)).run.run s = (.ok (), t) ∧
        t.ListenerKeeps (·.length = n) ∧ t.state.length = n
  | [], s, hlistener, hstate => ⟨s, rfl, hlistener, hstate⟩
  | (v, i) :: rest, s, hlistener, hstate => by
      rw [numbered, List.map_cons, run_initPlugins_cons]
      have hput (names : List String) (state : ClassRegistries) (h : state.length = n) :
          ((ClassRegistry.ofRegistries i).put names state).length = n := by
        rw [← h]
        exact List.length_set
      refine initPlugins_numbered rest (fun l hl => ?_) (hput [] s.state hstate)
      cases hl
      cases hold : s.listener with
      | none => exact listener_keeps v hput
      | some old => exact (hlistener old hold).andThen (listener_keeps v hput)

/-- Two sessions with as many registries, alike but for those of the verifiers that are set up, are
the same session afterwards. -/
theorem initPlugins_forgets : ∀ (vs : List (Verifier × Nat)) {s : Session ClassRegistries}
    (registries : ClassRegistries), registries.length = s.state.length →
    (∀ i, i ∉ vs.map Prod.snd → registries[i]? = s.state[i]?) →
      (initPlugins (numbered vs)).run.run { s with state := registries } =
        (initPlugins (numbered vs)).run.run s
  | [], s, registries, _, halike => by
      rw [show registries = s.state from List.ext_getElem? fun i => halike i List.not_mem_nil]
  | (v, i) :: rest, s, registries, hlength, halike => by
      have hlength' : (registries.set i []).length = (s.state.set i []).length := by
        rw [List.length_set, List.length_set, hlength]
      have hrest := initPlugins_forgets rest
        (s := { s with
          state := s.state.set i []
          listener := some (v.listenAfter (.ofRegistries i) s.listener) })
        (registries.set i []) hlength' (fun j hj => ?_)
      · exact hrest
      · show (registries.set i [])[j]? = (s.state.set i [])[j]?
        rw [List.getElem?_set, List.getElem?_set, hlength]
        by_cases hij : i = j
        · rw [if_pos hij, if_pos hij]
        · rw [if_neg hij, if_neg hij]
          refine halike j ?_
          rw [List.map_cons, List.mem_cons, not_or]
          exact ⟨Ne.symm hij, hj⟩

end SessionM

/-! ## Tasks -/

namespace CompilationTask

variable {σ : Type} {task : CompilationTask σ} {files : FileTree} {store : UnitStore}

/-- What a task does depends on the state it is given only through how it is set up. -/
theorem call_eq_of_setUp {state state' : σ}
    (h : task.setUp files store state = task.setUp files store state') :
    task.call (task.session files store state) = task.call (task.session files store state') := by
  have hcall (state : σ) : task.call (task.session files store state) =
      (runTask task).run.run { task.session files store state with called := true } := rfl
  rw [hcall, hcall]
  unfold runTask
  rw [analyseTask_eq, bind_assoc]
  rcases hsetUp : task.setUp files store state' with ⟨e | done, s⟩
  · rw [run_bind_error (h.trans hsetUp), run_bind_error hsetUp]
  · rw [run_bind_ok (h.trans hsetUp), run_bind_ok hsetUp]

end CompilationTask

namespace Compiler

variable {c : Compiler} {registries registries' : ClassRegistries} {files : FileTree}
  {store : UnitStore} {options : Options} {units : List CompilationUnit} {sink : DiagnosticSink}
  {paths : CompilePaths}

theorem plugins_numbered (c : Compiler) : c.plugins = numbered c.verifiers.zipIdx := by
  rw [plugins, List.mapIdx_eq_zipIdx_map]
  rfl

/-- The verifiers of a compiler forget what is in their registries. -/
theorem call_forgets (options : Options) (units : List CompilationUnit) (files : FileTree)
    (store : UnitStore) (h : registries.length = c.verifiers.length)
    (h' : registries'.length = c.verifiers.length) :
    (c.task options units).call ((c.task options units).session files store registries) =
      (c.task options units).call ((c.task options units).session files store registries') := by
  apply CompilationTask.call_eq_of_setUp
  have hsetUp (registries : ClassRegistries) : (c.task options units).setUp files store registries =
      (initPlugins c.plugins).run.run
        { (setLocations.run.run
            { (c.task options units).session files store registries' with called := true }).2 with
          state := registries } := rfl
  rw [hsetUp, hsetUp, plugins_numbered]
  apply initPlugins_forgets _ registries (h.trans h'.symm)
  intro i hi
  have hout : c.verifiers.length ≤ i := by
    by_contra hlt
    refine hi (List.mem_map.mpr ⟨(c.verifiers[i], i), ?_, rfl⟩)
    exact List.mem_zipIdx_iff_getElem?.mpr (List.getElem?_eq_getElem _)
  rw [List.getElem?_eq_none (h ▸ hout)]
  exact (List.getElem?_eq_none (h' ▸ hout)).symm

/-- However a task ends there are as many registries as there were. -/
theorem call_keeps (h : registries.length = c.verifiers.length) {r : Except TaskFault Bool}
    {u : Session ClassRegistries}
    (hrun : (c.task options units).call
      ((c.task options units).session files store registries) = (r, u)) :
    u.state.length = c.verifiers.length := by
  obtain ⟨t, hset, hlistener, hstate⟩ := initPlugins_numbered c.verifiers.zipIdx
    (s := (setLocations.run.run
      { (c.task options units).session files store registries with called := true }).2)
    (n := c.verifiers.length) nofun h
  rw [← plugins_numbered] at hset
  have hsetUp : (c.task options units).setUp files store registries = (.ok (), t) := hset
  obtain ⟨trace, symbols, -, -, hrelays, -⟩ := CompilationTask.call_traces hsetUp hrun
  exact hrelays.keeps hlistener hstate

theorem registries_conclude (s : Session ClassRegistries) (r : Except TaskFault Bool) :
    (conclude sink s r).registries = s.state := by
  unfold conclude
  cases r with
  | error fault => rfl
  | ok success =>
      dsimp only
      split
      · rfl
      · split <;> rfl

end Compiler

/-! ## Calls -/

/-- What the caller sees of a compilation. -/
def Compilation.outcome (r : Compilation) :
    Except CompileFault (Option ArtifactMap) × DiagnosticSink :=
  (r.result, r.sink)

/-- One call of a compiler: the files that there are, where diagnostics go, and what is asked. -/
structure CompileCall where
  files : FileTree
  sink : DiagnosticSink
  paths : CompilePaths
  request : CompileRequest

namespace Compiler

variable {c : Compiler} {registries registries' : ClassRegistries} {files : FileTree}
  {units : List CompilationUnit} {sink : DiagnosticSink} {paths : CompilePaths}

/-- Do a call with the registries that a compiler has. -/
def call (c : Compiler) (registries : ClassRegistries) (x : CompileCall) : Compilation :=
  c.compile x.files registries x.sink x.paths x.request

/-- Do calls one after another, each with the registries that the one before it leaves. -/
def calls (c : Compiler) : ClassRegistries → List CompileCall → List Compilation
  | _, [] => []
  | registries, x :: rest =>
      let r := c.call registries x
      r :: calls c r.registries rest

theorem forgets_compileUnits (h : registries.length = c.verifiers.length)
    (h' : registries'.length = c.verifiers.length) :
    (c.compileUnits files registries sink paths units).outcome =
        (c.compileUnits files registries' sink paths units).outcome ∧
      (c.compileUnits files registries sink paths units).registries.length =
        c.verifiers.length := by
  unfold compileUnits
  split
  · exact ⟨rfl, h⟩
  · next options _ =>
      have hforgets := call_forgets options units files (.inMemory c.includes) h h'
      unfold task at hforgets
      dsimp only
      rw [hforgets, registries_conclude]
      exact ⟨rfl, call_keeps h' rfl⟩

theorem forgets_call (h : registries.length = c.verifiers.length)
    (h' : registries'.length = c.verifiers.length) (x : CompileCall) :
    (c.call registries x).outcome = (c.call registries' x).outcome ∧
      (c.call registries x).registries.length = c.verifiers.length := by
  obtain ⟨files, sink, paths, request⟩ := x
  have hprepared (prepared : Except PreprocessFault (List CompilationUnit)) :
      (c.compilePrepared files registries sink paths prepared).outcome =
          (c.compilePrepared files registries' sink paths prepared).outcome ∧
        (c.compilePrepared files registries sink paths prepared).registries.length =
          c.verifiers.length := by
    cases prepared with
    | error fault => exact ⟨rfl, h⟩
    | ok units => exact forgets_compileUnits h h'
  cases request with
  | source name text => exact hprepared _
  | files sources => exact hprepared _
  | units units => exact forgets_compileUnits h h'

end Compiler

end ProbeLang
