import ProbeLang.Analysis.Problem
import ProbeLang.Store
import ProbeLang.Symbol
import ProbeLang.Task.Event
import ProbeLang.Tree.Parser

/-!
# Sessions

A session is the state of one task: the units that have been read, the symbols of their
classes, the classes that wait for analysis, what has been reported, and the state of the
listener. Everything a task does is a step on its session; a step may end with a fault, and
the session then keeps what happened before.

Reading a unit has two parts. Parsing makes a tree of its text; entering makes a symbol for
each class in the tree, nested classes before the class around them, and puts the top-level
classes into the queue.
-/

namespace ProbeLang

/-- A unit that has been read. -/
structure SourceEntry where
  unit : CompilationUnit
  tree : UnitTree

/-- The state of a task whose listener has a state of type `σ`. -/
structure Session (σ : Type) where
  options : Options
  files : FileTree
  store : UnitStore
  listener : Option (TaskListener σ)
  state : σ
  log : Log := .empty
  symbols : SymbolTable := .builtins
  /-- The units that have been entered, first to last. -/
  sources : List SourceEntry := []
  /-- The top-level classes that wait for analysis: the unit and the number in it. -/
  todo : List (Nat × Nat) := []
  /-- The sources that use deprecated classes while that lint is off. -/
  deprecatedUses : List String := []
  /-- The URIs of the units that have been entered. -/
  loaded : List String := []
  /-- The classes that have been looked for in vain. -/
  missing : List String := []
  /-- The outputs that have been opened, first to last, with what was written to them. -/
  outputs : List Sink := []
  /-- Whether the task has been run. -/
  called : Bool := false

/-- A step of a session. -/
abbrev SessionM (σ : Type) := ExceptT TaskFault (StateM (Session σ))

namespace SessionM

variable {σ : Type}

/-- End with a fault if there is one. -/
def ofIo {α : Type} : Except IoFault α → SessionM σ α
  | .ok a => pure a
  | .error fault => throw (.io fault)

/-! ## Diagnostics and events -/

/-- Report a diagnostic. -/
def report (d : Diagnostic) : SessionM σ Unit :=
  modify fun s => { s with log := s.log.report d }

/-- Report a problem at a place in a source. -/
def problem (source : String) (pos : Pos) (p : Problem) : SessionM σ Unit :=
  report { severity := .error, message := p.message, source := some source, pos }

/-- Report a piece of advice at a place in a source. -/
def advise (source : String) (pos : Pos) (a : Advice) : SessionM σ Unit :=
  report
    { severity := .warning, message := a.message, source := some source, pos,
      lint := some a.lint }

/-- Tell the listener that a phase has started. -/
def started (e : TaskEvent) : SessionM σ Unit :=
  modify fun s =>
    match s.listener with
    | none => s
    | some l =>
        let (state, log) := l.started e s.state s.log
        { s with state, log }

/-- Tell the listener that a phase has finished. -/
def finished (e : TaskEvent) : SessionM σ Unit :=
  modify fun s =>
    match s.listener with
    | none => s
    | some l =>
        let (state, log) := l.finished e s.state s.log
        { s with state, log }

/-! ## Parsing -/

/-- Read a unit. One that is no tree is reported. -/
def parse (unit : CompilationUnit) : SessionM σ (Option UnitTree) := do
  started { phase := .parse, source := unit.name }
  let text ← ofIo (unit.content (← get).files)
  match UnitTree.parse unit.name text with
  | .error e =>
      problem unit.name e.pos (.unparsable e.fault)
      finished { phase := .parse, source := unit.name }
      return none
  | .ok tree =>
      finished { phase := .parse, source := unit.name, unit := some tree }
      return some tree

/-! ## Entering -/

/-- The unit whose classes are being entered. -/
structure Entering where
  unit : Nat
  source : String
  package : Option String

/-- Enter the symbol of a class whose name may be taken. -/
def enterSymbol (u : Entering) (pos : Pos) (c : ClassSymbol) : SessionM σ Unit := do
  match (← get).symbols.insert? c with
  | some symbols => modify fun s => { s with symbols }
  | none => problem u.source pos (.duplicateClass (qualifiedName c.binary))

mutual

/-- Enter a class after the classes nested in it. -/
def enterClass (u : Entering) (binary : String) (outer : Option String) (place : List Nat)
    (c : ClassDecl) : SessionM σ Unit :=
  match c with
  | ⟨name, modifiers, _, members, pos⟩ => do
      let types ← enterMembers u binary name.name place 0 [] members
      enterSymbol u pos
        { binary, package := u.package, simple := name.name, outer, superclass := none,
          members := types, fields := [], methods := [],
          deprecated := (modifiers.annotation? "Deprecated").isSome,
          origin := .source u.unit place, completed := false }
termination_by structural c

/-- Enter the classes among members, from the given number on. A class may be named neither
like one before it nor like the class around it. The answer lists the member types. -/
def enterMembers (u : Entering) (binary simple : String) (place : List Nat) (i : Nat)
    (types : Table String) (members : List Member) : SessionM σ (Table String) :=
  match members with
  | [] => pure types
  | .field _ :: rest => enterMembers u binary simple place (i + 1) types rest
  | .method _ :: rest => enterMembers u binary simple place (i + 1) types rest
  | .type decl :: rest => do
      let name := decl.name.name
      if types.has name || name == simple then
        problem u.source decl.pos (.memberClassTaken name (qualifiedName binary))
        enterMembers u binary simple place (i + 1) types rest
      else
        let nested := binary ++ "$" ++ name
        enterClass u nested (some binary) (place ++ [i]) decl
        enterMembers u binary simple place (i + 1) (types.put name nested) rest
termination_by structural members

end

/-- Enter the top-level classes of a unit, from the given number on. -/
def enterTypes (u : Entering) (tree : UnitTree) : Nat → List ClassDecl → SessionM σ Unit
  | _, [] => pure ()
  | i, decl :: rest => do
      let binary := tree.binaryName decl
      if (← get).symbols.has binary then
        problem u.source decl.pos (.duplicateClass binary)
      else
        enterClass u binary none [i] decl
        modify fun s => { s with todo := s.todo ++ [(u.unit, i)] }
      enterTypes u tree (i + 1) rest

/-- Enter a unit. -/
def enter (unit : CompilationUnit) (tree : UnitTree) : SessionM σ Unit := do
  let number := (← get).sources.length
  modify fun s =>
    { s with loaded := unit.uri :: s.loaded, sources := s.sources ++ [⟨unit, tree⟩] }
  let event : TaskEvent := { phase := .enter, source := unit.name, unit := some tree }
  started event
  enterTypes ⟨number, tree.source, tree.packageName?⟩ tree 0 tree.types
  finished event

end SessionM

end ProbeLang
