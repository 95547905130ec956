import ProbeLang.Analysis.Class
import ProbeLang.Code.Class

/-!
# Compilation tasks

A task reads its units, enters their classes, analyses the classes in the order of the queue
and, if there is no error by then, writes their artifacts. Classes that are loaded on the way
are queued and compiled as well. A session runs one task; every phase is told to the listener.
-/

namespace ProbeLang

/-- What a task is given besides the state that its session begins with. -/
structure CompilationTask (σ : Type) where
  options : Options
  units : List CompilationUnit
  listener : Option (TaskListener σ) := none
  plugins : List (Plugin σ) := []

namespace SessionM

variable {σ : Type}

/-! ## Setting up -/

/-- Set the directories that the options name. -/
def setLocations : SessionM σ Unit :=
  modify fun s =>
    let store := s.options.sourcePath.elim s.store (s.store.setLocation .sourcePath)
    let store := s.options.classPath.elim store (store.setLocation .classPath)
    { s with store }

/-- Set plugins up in their order. -/
def initPlugins : List (Plugin σ) → SessionM σ Unit
  | [] => return ()
  | p :: rest => do
      let s ← get
      let (cx, state) := p.init ⟨s.options, s.listener⟩ s.state
      match cx with
      | .error fault =>
          set { s with state }
          throw fault
      | .ok cx =>
          set { s with state, listener := cx.listener }
          initPlugins rest

/-! ## Reading -/

/-- Parse units; those that are trees are answered in order, behind others, last first. -/
def parseAll : List (CompilationUnit × UnitTree) → List CompilationUnit →
    SessionM σ (List (CompilationUnit × UnitTree))
  | done, [] => return done.reverse
  | done, u :: rest => do
      match ← parse u with
      | some tree => parseAll ((u, tree) :: done) rest
      | none => parseAll done rest

/-- Enter units. -/
def enterAll : List (CompilationUnit × UnitTree) → SessionM σ Unit
  | [] => return ()
  | (u, tree) :: rest => do
      enter u tree
      enterAll rest

/-! ## Analysis -/

/-- A class of the queue. -/
structure QueuedClass where
  unit : Nat
  source : String
  type : TypeSymbol

/-- The class of a number in a unit. -/
def typeSymbol (tree : UnitTree) (number : Nat) : Option TypeSymbol :=
  tree.types[number]?.map fun decl =>
    let binary := tree.binaryName decl
    ⟨number, qualifiedName binary, binary⟩

/-- Analyse a class of the queue, with a bound on the number of classes. -/
def analyse (bound unit number : Nat) : SessionM σ (Option QueuedClass) := do
  let some entry := (← get).sources[unit]? | return none
  let type := typeSymbol entry.tree number
  let event : TaskEvent :=
    { phase := .analyze, source := entry.unit.name, unit := some entry.tree, type }
  started event
  let tree ← analyseTop bound unit number entry.tree
  finished { event with unit := some tree }
  return type.map fun type => ⟨unit, entry.unit.name, type⟩

/-- Analyse the classes of the queue until it is empty; `done` have been analysed, last
first. No more classes are queued than there can be, so `fuel` does not run out. -/
def analyseQueue (bound : Nat) : Nat → List QueuedClass → SessionM σ (List QueuedClass)
  | 0, done => return done.reverse
  | fuel + 1, done => do
      match (← get).todo with
      | [] => return done.reverse
      | (unit, number) :: rest =>
          modify fun s => { s with todo := rest }
          match ← analyse bound unit number with
          | some q => analyseQueue bound fuel (q :: done)
          | none => analyseQueue bound fuel done

/-- The notes on deprecated classes in sources while their lint is off. -/
def deprecationNotes : List String → List Diagnostic
  | [] => []
  | sources =>
      let subject :=
        match sources with
        | [source] => source ++ " uses"
        | _ => "Some input files use"
      [{ severity := .note, message := subject ++ " or overrides a deprecated API." },
       { severity := .note, message := "Recompile with the deprecation lint for details." }]

/-- Report the sources that use deprecated classes. -/
def reportDeprecatedUses : SessionM σ Unit :=
  modify fun s =>
    { s with
      log := s.log.reportAll (deprecationNotes s.deprecatedUses), deprecatedUses := [] }

/-! ## Writing -/

/-- Write artifacts next to the unit that they were made from. -/
def writeArtifacts (sibling : CompilationUnit) : ArtifactMap → SessionM σ Unit
  | [] => return ()
  | (name, bytes) :: rest => do
      let s ← get
      let sink := s.store.openOutput .classOutput name .artifact (some sibling)
      let sink := sink.write bytes
      let (done, files, store) := s.store.commit s.files sink
      set { s with files, store, outputs := s.outputs ++ [sink] }
      ofIo done
      writeArtifacts sibling rest

/-- Write the artifacts of an analysed class, unless its name is another's. -/
def generate (q : QueuedClass) : SessionM σ Unit := do
  let some entry := (← get).sources[q.unit]? | return ()
  let some decl := entry.tree.types[q.type.place]? | return ()
  if ← owns q.unit [q.type.place] q.type.binary then
    let event : TaskEvent :=
      { phase := .generate, source := q.source, unit := some entry.tree, type := some q.type }
    started event
    let s ← get
    match decl.artifacts s.symbols s.options q.type.binary with
    | .error fault => throw (.artifact fault)
    | .ok artifacts =>
        writeArtifacts entry.unit artifacts
        finished event

/-- Write the artifacts of analysed classes. -/
def generateAll : List QueuedClass → SessionM σ Unit
  | [] => return ()
  | q :: rest => do
      generate q
      generateAll rest

/-! ## The task -/

/-- Run a task up to the end of the analysis. The answer lists the analysed classes. -/
def analyseTask (t : CompilationTask σ) : SessionM σ (List QueuedClass) := do
  setLocations
  initPlugins t.plugins
  enterAll (← parseAll [] t.units)
  let bound := (← get).classBound
  let analysed ← analyseQueue bound bound []
  reportDeprecatedUses
  return analysed

/-- Run a task. The answer tells whether there was no error. -/
def runTask (t : CompilationTask σ) : SessionM σ Bool := do
  let analysed ← analyseTask t
  if (← get).log.errors = 0 then
    generateAll analysed
  return (← get).log.errors = 0

/-- Run a task unless the session has run one. -/
def callTask (t : CompilationTask σ) : SessionM σ Bool := do
  if (← get).called then throw .alreadyCalled
  else
    modify fun s => { s with called := true }
    runTask t

end SessionM

namespace CompilationTask

variable {σ : Type}

/-- The session of a task. -/
def session (t : CompilationTask σ) (files : FileTree) (store : UnitStore) (state : σ) :
    Session σ where
  options := t.options
  files
  store
  listener := t.listener
  state

/-- Run a task in its session. -/
def call (t : CompilationTask σ) (s : Session σ) : Except TaskFault Bool × Session σ :=
  (SessionM.callTask t).run.run s

end CompilationTask

end ProbeLang
