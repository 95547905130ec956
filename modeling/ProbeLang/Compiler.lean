import ProbeLang.Files.Fault
import ProbeLang.Preprocess.Fault
import ProbeLang.Task
import ProbeLang.Task.Event
import ProbeLang.Verifier

/-!
# The compiler

A compiler compiles sources in memory, with its verifiers as the plugins of every task. Each
call runs one task in a store of its own and has one of three ends: the artifacts of the
sources, or no artifacts because of errors that are written to a sink, or a fault.
-/

namespace ProbeLang

/-! ## Faults

What ends a compilation without an answer, and what keeps one from beginning. Problems of the
compiled program are no faults. -/

/-- Why a sink refused text. -/
inductive SinkFault
  | full
  | cannotFlush
  deriving Repr, DecidableEq

/-- The wording of a refusal. -/
def SinkFault.message : SinkFault → String
  | .full => "sink is full"
  | .cannotFlush => "sink cannot flush"

/-- Why a compilation failed. -/
inductive CompileFault
  | preprocess (fault : PreprocessFault)
  | task (fault : TaskFault)
  | sink (fault : SinkFault)
  | policy (fault : DocumentFault)
  | messages (fault : DocumentFault)
  deriving Repr, DecidableEq

/-- The wording of a fault. -/
def CompileFault.message : CompileFault → String
  | .preprocess fault => "Preprocessing failed: " ++ fault.message
  | .task fault => fault.message
  | .sink fault => "Cannot write diagnostics: " ++ fault.message
  | .policy fault => "Invalid policy: " ++ fault.message
  | .messages fault => "Invalid message catalog: " ++ fault.message

/-- The wording of the faults behind a fault, the nearest first. -/
def CompileFault.causes : CompileFault → List String
  | .preprocess (.io fault) => [(PreprocessFault.io fault).message, fault.message]
  | .preprocess fault => [fault.message]
  | .task (.io fault) => [fault.message]
  | .sink fault => [fault.message]
  | .task _ | .policy _ | .messages _ => []

/-! ## Compiling -/

/-- What takes the text of diagnostics: how many bytes there is room for, and whether it can
be flushed. -/
structure DiagnosticSink where
  room : Option Nat := none
  flushes : Bool := true
  taken : Bytes := []
  deriving Repr, DecidableEq

namespace DiagnosticSink

/-- Write bytes; those that fit are taken even if not all do. -/
def write (s : DiagnosticSink) (bytes : Bytes) : Except SinkFault Unit × DiagnosticSink :=
  match s.room with
  | none => (.ok (), { s with taken := s.taken ++ bytes })
  | some room =>
      let s := { s with room := some (room - bytes.length), taken := s.taken ++ bytes.take room }
      if bytes.length ≤ room then (.ok (), s) else (.error .full, s)

/-- The text that has been taken. A character that has been cut off shows as U+FFFD. -/
def text (s : DiagnosticSink) : String :=
  match s.taken.toString? with
  | .ok text => text
  | .error _ =>
      ([1, 2, 3].findSome? fun n =>
        let start : Bytes := s.taken.take (s.taken.length - n)
        start.toString?.toOption.map (· ++ "\ufffd")).getD ""

/-- Make sure that everything has gone through. -/
def flush (s : DiagnosticSink) : Except SinkFault Unit :=
  if s.flushes then .ok () else .error .cannotFlush

/-- Write diagnostics, one on a line, and flush the sink. -/
def writeAll (s : DiagnosticSink) (ds : List Diagnostic) :
    Except SinkFault Unit × DiagnosticSink :=
  match s.write ((ds.map fun d => Bytes.ofString (d.text ++ "\n")).flatten) with
  | (.ok (), s) => (s.flush, s)
  | r => r

end DiagnosticSink

/-- A compiler: where includes are looked up, if sources are preprocessed at all, how its
artifacts are written, and its verifiers. -/
structure Compiler where
  includes : Option SearchPath := none
  generatePack : Bool := true
  packExtension : String := "class"
  verifiers : List Verifier := []

/-- The classes that each verifier has seen in the last task. -/
abbrev ClassRegistries := List (List String)

/-- The registry of the verifier of a number. -/
def ClassRegistry.ofRegistries (i : Nat) : ClassRegistry ClassRegistries where
  names state := (state[i]?).getD []
  put names state := state.set i names

/-- What is looked for where in a compilation. -/
structure CompilePaths where
  sources : Option String := none
  classes : Option String := none

/-- The end of a compilation. -/
structure Compilation where
  /-- The artifacts, unless there were errors. -/
  result : Except CompileFault (Option ArtifactMap)
  sink : DiagnosticSink
  registries : ClassRegistries

namespace Compiler

/-- The registries of a compiler that has not been used. -/
def newRegistries (c : Compiler) : ClassRegistries :=
  c.verifiers.map fun _ => []

/-- The options of every task. -/
def taskOptions (paths : CompilePaths) : List FrontendOption :=
  Options.fixed ++ (paths.sources.map .sourcePath).toList ++
    (paths.classes.map .classPath).toList

/-- The verifiers as plugins. -/
def plugins (c : Compiler) : List (Plugin ClassRegistries) :=
  c.verifiers.mapIdx fun i v => v.plugin (.ofRegistries i)

/-- The fault behind a fault of a task: a source that could not be preprocessed is known to
the store. -/
def taskFault (s : UnitStore) : TaskFault → CompileFault
  | .io fault =>
      match s.takeDeferred.1 with
      | some cause => .preprocess cause
      | none => .task (.io fault)
  | fault => .task fault

/-- The end of a compilation whose task is over. -/
def conclude (sink : DiagnosticSink) (s : Session ClassRegistries) :
    Except TaskFault Bool → Compilation
  | .error fault => ⟨.error (taskFault s.store fault), sink, s.state⟩
  | .ok success =>
      if success && !s.log.hasErrors then ⟨.ok (some s.store.artifacts), sink, s.state⟩
      else
        match sink.writeAll s.log.diagnostics with
        | (.ok (), sink) => ⟨.ok none, sink, s.state⟩
        | (.error fault, sink) => ⟨.error (.sink fault), sink, s.state⟩

/-- Compile units that need no preprocessing. -/
def compileUnits (c : Compiler) (t : FileTree) (registries : ClassRegistries)
    (sink : DiagnosticSink) (paths : CompilePaths) (units : List CompilationUnit) :
    Compilation :=
  match Options.ofList (taskOptions paths) with
  | .error fault => ⟨.error (.task (.invalidOption fault)), sink, registries⟩
  | .ok options =>
      let task : CompilationTask ClassRegistries := { options, units, plugins := c.plugins }
      let (result, s) := task.call (task.session t (.inMemory c.includes) registries)
      conclude sink s result

/-- Compile units once they have been preprocessed. -/
def compilePrepared (c : Compiler) (t : FileTree) (registries : ClassRegistries)
    (sink : DiagnosticSink) (paths : CompilePaths)
    (units : Except PreprocessFault (List CompilationUnit)) : Compilation :=
  match units with
  | .error fault => ⟨.error (.preprocess fault), sink, registries⟩
  | .ok units => c.compileUnits t registries sink paths units

/-- Compile a source text. -/
def compileSource (c : Compiler) (t : FileTree) (registries : ClassRegistries)
    (sink : DiagnosticSink) (paths : CompilePaths) (name text : String) : Compilation :=
  c.compilePrepared t registries sink paths
    ((UnitStore.wrap t c.includes name text).map fun u => [u])

/-- Compile source files together. -/
def compileFiles (c : Compiler) (t : FileTree) (registries : ClassRegistries)
    (sink : DiagnosticSink) (paths : CompilePaths) (files : List String) : Compilation :=
  c.compilePrepared t registries sink paths
    (files.mapM fun path => UnitStore.adapt t c.includes (.ofFile t path (.ofPath path)))

end Compiler

end ProbeLang
