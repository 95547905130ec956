import ProbeLang.Artifact
import ProbeLang.Blake3
import ProbeLang.Files
import ProbeLang.JsonText

/-!
# Written artifacts and reports

The artifacts of a compilation are written below a directory, `a.b.C` as `a/b/C` with an
extension, in the order of their names. A report lists what was written, with sizes and
digests, and the classes that were verified, as text or as JSON.
-/

namespace ProbeLang

/-- The file of an artifact. -/
def artifactPath (dir name extension : String) : String :=
  let steps := FilePath.splitOnChar '.' name
  FilePath.join (steps.dropLast.foldl FilePath.join dir)
    (steps.getLast?.getD name ++ "." ++ extension)

/-- An artifact that has been written. -/
structure WrittenArtifact where
  name : String
  path : String
  size : Nat
  /-- The digest in hexadecimal digits. -/
  digest : String
  deriving Repr, DecidableEq

/-- Why an artifact could not be written. -/
inductive WriteFault
  | cannotCreate (dir : String) (fault : IoFault)
  | cannotWrite (path : String) (fault : IoFault)
  deriving Repr, DecidableEq

namespace WriteFault

/-- The wording of a fault. -/
def message : WriteFault → String
  | .cannotCreate dir _ => "cannot create " ++ dir
  | .cannotWrite path _ => "cannot write " ++ path

/-- The fault of the file system behind a fault. -/
def cause : WriteFault → IoFault
  | .cannotCreate _ fault => fault
  | .cannotWrite _ fault => fault

end WriteFault

/-- Write one artifact and the directories above it. -/
def writeArtifact (t : FileTree) (dir extension name : String) (bytes : Bytes) :
    Except WriteFault WrittenArtifact × FileTree :=
  let path := artifactPath dir name extension
  let above := (FilePath.parent? path).getD ""
  match t.makeDirAll above with
  | .error fault => (.error (.cannotCreate above fault), t)
  | .ok t =>
      match t.write path bytes with
      | .error fault => (.error (.cannotWrite path fault), t)
      | .ok t => (.ok ⟨name, path, bytes.length, (Blake3.digest bytes).hex⟩, t)

/-- Go on once an artifact has been written, with the tree that this has left. -/
def afterWriting (written : Except WriteFault WrittenArtifact × FileTree)
    (next : WrittenArtifact → FileTree → Except WriteFault (List WrittenArtifact) × FileTree) :
    Except WriteFault (List WrittenArtifact) × FileTree :=
  match written with
  | (.ok w, t) => next w t
  | (.error fault, t) => (.error fault, t)

/-- Write artifacts; those in `done` have been written, last first. -/
def writeBehind (dir extension : String) : List WrittenArtifact → FileTree → ArtifactMap →
    Except WriteFault (List WrittenArtifact) × FileTree
  | done, t, [] => (.ok done.reverse, t)
  | done, t, (name, bytes) :: rest =>
      afterWriting (writeArtifact t dir extension name bytes) fun w t =>
        writeBehind dir extension (w :: done) t rest

/-- Write artifacts in the order of their names. -/
def writeArtifacts (t : FileTree) (artifacts : ArtifactMap) (dir extension : String) :
    Except WriteFault (List WrittenArtifact) × FileTree :=
  writeBehind dir extension [] t artifacts.sorted

/-- What a compilation has done. -/
structure Report where
  success : Bool
  artifacts : List WrittenArtifact
  verified : List String
  deriving Repr, DecidableEq

namespace Report

/-- The line of an artifact, with the first digits of its digest. -/
def line (w : WrittenArtifact) : String :=
  w.name ++ " -> " ++ w.path ++ " (" ++ toString w.size ++ " bytes, blake3 " ++
    String.ofList (w.digest.toList.take 16) ++ ")\n"

/-- The report as text. -/
def text (r : Report) : String :=
  String.join (r.artifacts.map line) ++ if r.success then "" else "compilation failed\n"

/-- An artifact as a JSON value. -/
def artifactValue (w : WrittenArtifact) : JsonValue :=
  .object [("name", .string w.name), ("path", .string w.path),
    ("size", .number (toString w.size)), ("blake3", .string w.digest)]

/-- The report as JSON. -/
def json (r : Report) : String :=
  JsonText.print 0 (.object
    [("success", .bool r.success), ("artifacts", .array (r.artifacts.map artifactValue)),
     ("verified_classes", .array (r.verified.map .string))]) ++ "\n"

end Report

end ProbeLang
