import ProbeLang.Files.Fault
import ProbeLang.Files.Path

/-!
# File trees

The files and directories below a working directory, by their paths from it. A path is
resolved step by step: every step but the last must lead to a directory, an empty segment or
a single dot stays, and a double dot leads back. Outside the tree nothing is known but that there
are directories above it; a path to one of them counts as one to the working directory. Two trees
with the same entries answer every question alike.
-/

namespace ProbeLang

/-- What a path may lead to. -/
inductive Entry
  | file (content : Bytes)
  | dir
  deriving Repr, DecidableEq

/-- The entries below a working directory, by the steps that lead to them. The working
directory itself is not listed. -/
structure FileTree where
  entries : List (List String × Entry)
  /-- The place of the working directory itself, as a file URI writes it. -/
  root : String := ""
  deriving Repr, DecidableEq, Inhabited

namespace FileTree

/-- The tree with nothing in it. -/
def empty : FileTree := ⟨[], ""⟩

/-- What stands at the end of the given steps. -/
def entry? (t : FileTree) (key : List String) : Option Entry :=
  if key.isEmpty then some .dir else t.entries.lookup key

/-- Put an entry at the end of the given steps. -/
def set (t : FileTree) (key : List String) (e : Entry) : FileTree :=
  if (t.entries.lookup key).isSome then
    { t with entries := t.entries.map fun (k, old) => if k = key then (k, e) else (k, old) }
  else
    { t with entries := t.entries ++ [(key, e)] }

/-- Whether segments lead to no entry of a directory, but perhaps further back. -/
def onlyBack (segments : List String) : Bool :=
  segments.all ["", ".", ".."].contains

/-- Follow segments from a place in the tree. The last one may lead to nothing. -/
def follow (t : FileTree) : List String → List String → Except FileFault (List String)
  | key, [] => .ok key
  | key, s :: rest =>
      match t.entry? key with
      | none => .error .notFound
      | some (.file _) => .error .notADirectory
      | some .dir =>
          if s = "" || s = "." then follow t key rest
          else if s = ".." then
            if !key.isEmpty then follow t key.dropLast rest
            else if onlyBack rest then .ok []
            else .error .notFound
          else if 255 < s.utf8ByteSize then .error .nameTooLong
          else follow t (key ++ [s]) rest

/-- Refuse a text that cannot be a path at all. -/
def checked (path : String) : Except IoFault Unit :=
  if path.toList.contains '\x00' then .error .zeroInPath
  else if path.isEmpty then .error (.file .notFound)
  else if 4095 < path.utf8ByteSize then .error (.file .nameTooLong)
  else .ok ()

/-- The place that a path leads to. -/
def resolve (t : FileTree) (path : String) : Except IoFault (List String) := do
  checked path
  if FilePath.isAbsolute path then
    if path.toList.all (· == '/') then .ok [] else .error (.file .notFound)
  else (follow t [] (FilePath.segments path)).mapError .file

/-- What a path leads to. -/
def find (t : FileTree) (path : String) : Except IoFault Entry := do
  let key ← t.resolve path
  match t.entry? key with
  | some e => .ok e
  | none => .error (.file .notFound)

/-- Whether a path leads anywhere. -/
def pathExists (t : FileTree) (path : String) : Bool :=
  match t.find path with
  | .ok _ => true
  | .error _ => false

/-- Whether a path leads to a regular file. -/
def isFile (t : FileTree) (path : String) : Bool :=
  match t.find path with
  | .ok (.file _) => true
  | _ => false

/-- Whether a path leads to a directory. -/
def isDir (t : FileTree) (path : String) : Bool :=
  match t.find path with
  | .ok .dir => true
  | _ => false

/-- The content of the file at a path. -/
def read (t : FileTree) (path : String) : Except IoFault Bytes := do
  match ← t.find path with
  | .file content => .ok content
  | .dir => .error (.file .isADirectory)

/-- The text in the file at a path. -/
def readText (t : FileTree) (path : String) : Except IoFault String := do
  match (← t.read path).toString? with
  | .ok s => .ok s
  | .error _ => .error .streamNotText

/-- Replace or create the file at a path, whose directory must exist. A path with a slash
behind its last step is refused as a directory, whether or not there is one. -/
def write (t : FileTree) (path : String) (content : Bytes) : Except IoFault FileTree := do
  checked path
  if let some above := FilePath.slashed? path then
    let _ ← t.find above
    .error (.file .isADirectory)
  let key ← t.resolve path
  match t.entry? key with
  | some .dir => .error (.file .isADirectory)
  | _ => .ok (t.set key (.file content))

/-- Create the directory at a path. -/
def makeDir (t : FileTree) (path : String) : Except IoFault FileTree := do
  let key ← t.resolve (FilePath.ofSegments (FilePath.trimmed path))
  match t.entry? key with
  | some _ => .error (.file .alreadyExists)
  | none => .ok (t.set key .dir)

/-- Create the directory at a path if it is missing, after the directories it needs. -/
def makeDirs : Nat → FileTree → String → Except IoFault FileTree
  | 0, t, _ => .ok t
  | fuel + 1, t, path =>
      if path.isEmpty then .ok t
      else
        let settle (r : Except IoFault FileTree) (t : FileTree) : Except IoFault FileTree :=
          match r with
          | .ok t => .ok t
          | .error e => if t.isDir path then .ok t else .error e
        match t.makeDir path with
        | .error (.file .notFound) =>
            match FilePath.parent? path with
            | none => .error (.file .notFound)
            | some above => do
                let t ← makeDirs fuel t above
                settle (t.makeDir path) t
        | r => settle r t

/-- Create the directory at a path and those above it. -/
def makeDirAll (t : FileTree) (path : String) : Except IoFault FileTree :=
  makeDirs ((FilePath.segments path).length + 1) t path

/-- Write a file after creating the directories above it. -/
def writeDeep (t : FileTree) (path : String) (content : Bytes) : Except IoFault FileTree := do
  let t ← t.makeDirAll ((FilePath.parent? path).getD "")
  t.write path content

/-- The files that are new or have another content than in an earlier tree. -/
def changedSince (t old : FileTree) : List (String × Bytes) :=
  t.entries.filterMap fun (key, e) =>
    match e with
    | .dir => none
    | .file content =>
        if old.entry? key = some (.file content) then none
        else some ("/".intercalate key, content)

end FileTree

end ProbeLang
