import ProbeLang.Artifact
import ProbeLang.ClassName
import ProbeLang.Preprocess
import ProbeLang.Unit

/-!
# Unit stores

A store finds the units of a task and takes its outputs. Types are looked up in the
directories of a location, `a.b.C` as `a/b/C` with the extension of the kind. A store on
files writes outputs as files; a store in memory preprocesses the sources that it finds and
keeps artifacts in a map.

An output is written to a sink, and takes effect when the sink is committed. Closing a store
in memory begins a new map; sinks that are still open commit to the map that was current
when they were opened, so earlier maps are kept.
-/

namespace ProbeLang

/-- What directories are for. -/
inductive Location
  | sourcePath
  | classPath
  | classOutput
  | sourceOutput
  deriving Repr, DecidableEq

/-- The directories that have been set. -/
abbrev Locations := List (Location × List String)

namespace Locations

/-- The directories of a location. -/
def get? (ls : Locations) (l : Location) : Option (List String) :=
  ls.lookup l

/-- Set the directories of a location. -/
def put (ls : Locations) (l : Location) (dirs : List String) : Locations :=
  (l, dirs) :: ls.filter fun (k, _) => k ≠ l

/-- The directories in which inputs are looked up. Sources fall back on the class path. -/
def searchDirs (ls : Locations) (l : Location) : List String :=
  match ls.get? l with
  | some dirs => dirs
  | none => if l = .sourcePath then (ls.get? .classPath).getD [] else []

end Locations

/-- The file of a type below a directory: `a.b.C` is `C` with an extension in `a/b`. -/
def typePath (typeName : String) (kind : UnitKind) : String :=
  let path := (FilePath.splitOnChar '.' typeName).foldl FilePath.join ""
  FilePath.withFileName path (lastName typeName ++ kind.extension)

/-- Where committed bytes go. -/
inductive SinkTarget
  | file (path : String)
  | artifacts (map : Nat)
  deriving Repr, DecidableEq

/-- An output that is being written. -/
structure Sink where
  name : String
  target : SinkTarget
  buffer : Bytes := []
  deriving Repr, DecidableEq

/-- Add bytes to an output. -/
def Sink.write (s : Sink) (bytes : Bytes) : Sink :=
  { s with buffer := s.buffer ++ bytes }

/-- The part of a store that works in memory. -/
structure Memory where
  /-- Where includes are looked up; without it sources are not preprocessed. -/
  search : Option SearchPath
  /-- The maps of earlier uses, first to last. -/
  closed : List ArtifactMap := []
  current : ArtifactMap := []
  /-- The preprocessing fault behind the last refused input. -/
  deferred : Option PreprocessFault := none

/-- Publish bytes in one of the maps. -/
def Memory.publish (m : Memory) (map : Nat) (name : String) (bytes : Bytes) : Memory :=
  if map < m.closed.length then
    { m with closed := m.closed.modify map fun a => a.put name bytes }
  else
    { m with current := m.current.put name bytes }

/-- A unit store: on files alone, or in memory over files. -/
structure UnitStore where
  locations : Locations := []
  memory : Option Memory := none

namespace UnitStore

/-- A store on files. -/
def onFiles : UnitStore := {}

/-- A store in memory. -/
def inMemory (search : Option SearchPath) : UnitStore :=
  { memory := some { search } }

/-- Set the directories of a location. -/
def setLocation (s : UnitStore) (l : Location) (dirs : List String) : UnitStore :=
  { s with locations := s.locations.put l dirs }

/-- Where includes are looked up. -/
def searchPath (s : UnitStore) : Option SearchPath :=
  s.memory.bind Memory.search

/-- A source text as a unit, preprocessed if there is a search path. -/
def wrap (t : FileTree) (search : Option SearchPath) (name text : String) :
    Except PreprocessFault CompilationUnit := do
  let text ←
    match search with
    | some search => preprocessText t search name text
    | none => pure text
  return .ofText t name text .source

/-- A unit with its content preprocessed if there is a search path. -/
def adapt (t : FileTree) (search : Option SearchPath) (u : CompilationUnit) :
    Except PreprocessFault CompilationUnit :=
  match search with
  | none => .ok u
  | some search => do
      let bytes ← (u.bytes t).mapError .io
      let text ← bytes.toString?.mapError fun fault => .io (.notText fault)
      return .ofText t u.name (← preprocessText t search u.name text) u.kind

/-- The file of a type in a location. -/
def findInput (s : UnitStore) (t : FileTree) (l : Location) (typeName : String)
    (kind : UnitKind) : Option CompilationUnit :=
  let path := typePath typeName kind
  let candidates := (s.locations.searchDirs l).map fun dir => FilePath.join dir path
  (candidates.find? t.isFile).map fun path => .ofFile t path kind

/-- The unit of a type in a location, preprocessed if it is a source. When that fails the
store remembers why. -/
def input (s : UnitStore) (t : FileTree) (l : Location) (typeName : String) (kind : UnitKind) :
    Except IoFault (Option CompilationUnit) × UnitStore :=
  match s.findInput t l typeName kind, s.memory with
  | none, _ => (.ok none, s)
  | some u, none => (.ok (some u), s)
  | some u, some memory =>
      if u.kind ≠ .source then (.ok (some u), s)
      else
        match adapt t memory.search u with
        | .ok u => (.ok (some u), s)
        | .error fault =>
            (.error (.unprocessed fault.kind fault.message),
              { s with memory := some { memory with deferred := some fault } })

/-- Open an output. Files go to the first output directory, else next to the file of the unit
that the output was made from. -/
def openOutput (s : UnitStore) (l : Location) (typeName : String) (kind : UnitKind)
    (sibling : Option CompilationUnit) : Sink :=
  match s.memory, kind with
  | some memory, .artifact => ⟨typeName, .artifacts memory.closed.length, []⟩
  | _, _ =>
      let path :=
        match (s.locations.get? l).bind List.head? with
        | some dir => FilePath.join dir (typePath typeName kind)
        | none =>
            let file := lastName typeName ++ kind.extension
            match (sibling.bind CompilationUnit.path?).bind FilePath.parent? with
            | some dir => FilePath.join dir file
            | none => file
      ⟨typeName, .file path, []⟩

/-- Commit an output. -/
def commit (s : UnitStore) (t : FileTree) (sink : Sink) :
    Except IoFault Unit × FileTree × UnitStore :=
  match sink.target with
  | .file path =>
      match t.makeDirAll ((FilePath.parent? path).getD "") with
      | .error fault => (.error fault, t, s)
      | .ok t =>
          match t.write path sink.buffer with
          | .error fault => (.error fault, t, s)
          | .ok t => (.ok (), t, s)
  | .artifacts map =>
      (.ok (), t, { s with memory := s.memory.map fun m => m.publish map sink.name sink.buffer })

/-- Let go of an output without committing it: artifacts in memory are published all the same,
files are not written. -/
def dropSink (s : UnitStore) (sink : Sink) : UnitStore :=
  match sink.target with
  | .file _ => s
  | .artifacts map =>
      { s with memory := s.memory.map fun m => m.publish map sink.name sink.buffer }

/-- The current map. -/
def artifacts (s : UnitStore) : ArtifactMap :=
  (s.memory.map Memory.current).getD []

/-- The number of the current map. -/
def currentMap (s : UnitStore) : Nat :=
  (s.memory.map fun m => m.closed.length).getD 0

/-- The map of a number. -/
def mapAt (s : UnitStore) (map : Nat) : ArtifactMap :=
  match s.memory with
  | none => []
  | some m => if map < m.closed.length then (m.closed[map]?).getD [] else m.current

/-- Take the artifacts out of the current map. -/
def takeArtifacts (s : UnitStore) : ArtifactMap × UnitStore :=
  (s.artifacts, { s with memory := s.memory.map fun m => { m with current := [] } })

/-- Take the fault behind the last refused input. -/
def takeDeferred (s : UnitStore) : Option PreprocessFault × UnitStore :=
  (s.memory.bind Memory.deferred,
    { s with memory := s.memory.map fun m => { m with deferred := none } })

/-- Begin a new map. -/
def close (s : UnitStore) : UnitStore :=
  { s with
    memory := s.memory.map fun m =>
      { m with closed := m.closed ++ [m.current], current := [], deferred := none } }

end UnitStore

end ProbeLang
