import ProbeLang.Artifact.Fault
import ProbeLang.Diagnostic
import ProbeLang.Files.Fault
import ProbeLang.Options
import ProbeLang.Tree

/-!
# Faults, events, listeners and plugins

A task tells a listener when it starts and finishes to parse a unit, to enter its classes, to
analyse a class and to generate its artifacts. A listener keeps a state of its own choice and
may report diagnostics. Plugins are set up before a task begins; there is one place for a
listener, and a plugin that wants to add one to another combines the two.
-/

namespace ProbeLang

/-! ## Faults

What ends a task at once. Problems in the compiled program are no faults; they are reported
as diagnostics. One fault stands for a task that does not end at all, and so gives no answer. -/

/-- Why a task could not go on. -/
inductive TaskFault
  | io (fault : IoFault)
  | invalidOption (fault : OptionFault)
  | duplicateListener
  | alreadyCalled
  | artifact (fault : ArtifactFault)
  | pluginFailed (name message : String)
  /-- The task goes round in a circle of enclosing classes and never ends. -/
  | endless
  deriving Repr, DecidableEq

/-- The wording of a fault. -/
def TaskFault.message : TaskFault → String
  | .io fault => "I/O error: " ++ fault.message
  | .invalidOption fault => "Invalid option: " ++ fault.message
  | .duplicateListener =>
      "Task listener slot already occupied; compose listeners instead of replacing them"
  | .alreadyCalled => "Task has already been called"
  | .artifact fault => "Malformed artifact: " ++ fault.message
  | .pluginFailed name message => "Plugin '" ++ name ++ "' failed to initialise: " ++ message
  | .endless => "Task does not end"

/-! ## Events -/

/-- The phases of a task. -/
inductive Phase
  | parse
  | enter
  | analyze
  | generate
  deriving Repr, DecidableEq

/-- The name of a phase. -/
def Phase.name : Phase → String
  | .parse => "parse"
  | .enter => "enter"
  | .analyze => "analyze"
  | .generate => "generate"

/-- A top-level class of a unit: its number there and its names. -/
structure TypeSymbol where
  place : Nat
  qualified : String
  binary : String
  deriving Repr, DecidableEq

/-- What a phase works on. -/
structure TaskEvent where
  phase : Phase
  source : String
  unit : Option UnitTree := none
  type : Option TypeSymbol := none

/-- The declaration of the class that an event is about. -/
def TaskEvent.decl? (e : TaskEvent) : Option ClassDecl := do
  let u ← e.unit
  let t ← e.type
  u.types[t.place]?

/-- What is told about the phases of a task, with a state of type `σ`. All that it may do with
the log is to report. -/
structure TaskListener (σ : Type) where
  started : TaskEvent → σ → Log → σ × Log
  finished : TaskEvent → σ → Log → σ × Log
  started_reports : ∀ e state log, ∃ ds, (started e state log).2 = log.reportAll ds := by
    intros
    (repeat' split) <;> first | exact ⟨[], rfl⟩ | exact ⟨[_], rfl⟩
  finished_reports : ∀ e state log, ∃ ds, (finished e state log).2 = log.reportAll ds := by
    intros
    (repeat' split) <;> first | exact ⟨[], rfl⟩ | exact ⟨[_], rfl⟩

namespace TaskListener

variable {σ : Type}

/-- Tell one listener and then another. -/
def andThen (first second : TaskListener σ) : TaskListener σ where
  started e state log :=
    let (state, log) := first.started e state log
    second.started e state log
  finished e state log :=
    let (state, log) := first.finished e state log
    second.finished e state log
  started_reports e state log := by
    obtain ⟨ds, hds⟩ := first.started_reports e state log
    obtain ⟨ds', hds'⟩ :=
      second.started_reports e (first.started e state log).1 (first.started e state log).2
    exact ⟨ds ++ ds', by rw [Log.reportAll_append, ← hds, ← hds']⟩
  finished_reports e state log := by
    obtain ⟨ds, hds⟩ := first.finished_reports e state log
    obtain ⟨ds', hds'⟩ :=
      second.finished_reports e (first.finished e state log).1 (first.finished e state log).2
    exact ⟨ds ++ ds', by rw [Log.reportAll_append, ← hds, ← hds']⟩

/-- The listener that does nothing. -/
def silent : TaskListener σ where
  started _ state log := (state, log)
  finished _ state log := (state, log)

/-- Tell listeners in their order. -/
def all (listeners : List (TaskListener σ)) : TaskListener σ :=
  listeners.foldl andThen silent

end TaskListener

/-- What a plugin may look at and change. -/
structure PluginContext (σ : Type) where
  options : Options
  listener : Option (TaskListener σ)

namespace PluginContext

variable {σ : Type}

/-- Take the listener out of its place. -/
def takeListener (cx : PluginContext σ) : Option (TaskListener σ) × PluginContext σ :=
  (cx.listener, { cx with listener := none })

/-- Put a listener into its place, which must be free. -/
def putListener (cx : PluginContext σ) (l : TaskListener σ) :
    Except TaskFault (PluginContext σ) :=
  match cx.listener with
  | some _ => .error .duplicateListener
  | none => .ok { cx with listener := some l }

end PluginContext

/-- A plugin is set up with a context and the state of the listeners. -/
structure Plugin (σ : Type) where
  name : String
  init : PluginContext σ → σ → Except TaskFault (PluginContext σ) × σ

end ProbeLang
