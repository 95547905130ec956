import ProbeLang.Files

/-!
# Compilation units

A unit is a named piece of content: source text, an artifact or something else. Its content
is held in memory, or read from a file each time it is asked for.
-/

namespace ProbeLang

/-! ## URIs

A unit is identified by a URI made from its name: a `file` URI when the name leads to
something that exists, else an `mfm` URI that carries the name as its path. Names are
percent-encoded byte by byte. In an `mfm` URI the dot segments of the path are resolved, where
a drive such as `C:` is never left, and a question mark or number sign in the name begins a
query or a fragment. -/

namespace Uri

/-- Which characters besides controls and those beyond ASCII a part of a URI cannot hold. -/
abbrev Reserved := List Char

/-- The characters that a fragment cannot hold. -/
def fragmentReserved : Reserved := [' ', '"', '<', '>', Char.ofNat 96]

/-- The characters that a query cannot hold. -/
def queryReserved : Reserved := [' ', '"', '#', '<', '>']

/-- The characters that a path cannot hold. -/
def pathReserved : Reserved := fragmentReserved ++ ['#', '?', '{', '}']

/-- The characters that one step of a file path cannot hold. -/
def fileStepReserved : Reserved := pathReserved ++ ['/', '%', '\\']

/-- The upper-case digit of a number below sixteen. -/
def upperHexDigit (n : Nat) : Char :=
  (Text.digitChar n).toUpper

/-- A byte in percent-encoding. -/
def percentByte (b : UInt8) : List Char :=
  ['%', upperHexDigit (b.toNat / 16), upperHexDigit (b.toNat % 16)]

/-- A character, percent-encoded if it has to be. -/
def encodeChar (reserved : Reserved) (c : Char) : List Char :=
  if c.toNat < 32 || 127 ≤ c.toNat || reserved.contains c then
    (String.utf8EncodeChar c).flatMap percentByte
  else [c]

/-- A text, percent-encoded where it has to be. -/
def encode (reserved : Reserved) (cs : List Char) : List Char :=
  cs.flatMap (encodeChar reserved)

/-- Whether a segment stays where it is, in any of its spellings. -/
def isDot (segment : String) : Bool :=
  [".", "%2e", "%2E"].contains segment

/-- Whether a segment leads back, in any of its spellings. -/
def isDoubleDot (segment : String) : Bool :=
  ["..", "%2e%2e", "%2e%2E", "%2E%2e", "%2E%2E", "%2e.", "%2E.", ".%2e", ".%2E"].contains segment

/-- Whether a segment is a drive, or begins with one and a backslash: a letter and a colon or
bar. No double dot leads out of a drive. -/
def isDrive (segment : String) : Bool :=
  match segment.toList with
  | c :: mark :: rest =>
      c.isAlpha && (mark == ':' || mark == '|') && (rest.head?.all fun c => c == '\\')
  | _ => false

/-- The segments that are left where a double dot follows; the last one comes first. -/
def leave : List String → List String
  | [] => []
  | s :: before => if isDrive s then s :: before else before

/-- Resolve dot segments; `done` holds the segments before, last first. A path that ends in a
dot segment ends with a slash. -/
def resolveDots : List String → List String → List String
  | done, [] => done.reverse
  | done, [last] =>
      if isDoubleDot last then ("" :: leave done).reverse
      else if isDot last then ("" :: done).reverse
      else (last :: done).reverse
  | done, s :: rest =>
      if isDoubleDot s then resolveDots (leave done) rest
      else if isDot s then resolveDots done rest
      else resolveDots (s :: done) rest

/-- The path of an `mfm` URI. -/
def memoryPath (path : List Char) : String :=
  let segments := FilePath.segments (String.ofList (encode pathReserved path))
  "/" ++ "/".intercalate (resolveDots [] segments)

/-- The URI of a name that leads to no file. Tabs and line breaks are not part of it, nor are
controls and blanks at its end. -/
def ofMemoryName (name : String) : String :=
  let cs := name.toList.dropWhile (· == '/')
  let cs := Text.dropRightWhile (fun c => c.toNat ≤ 32) cs
  let cs := cs.filter fun c => c ≠ '\t' && c ≠ '\n' && c ≠ '\r'
  let path := cs.takeWhile fun c => c ≠ '?' && c ≠ '#'
  let query :=
    match cs.dropWhile fun c => c ≠ '?' && c ≠ '#' with
    | '?' :: rest => '?' :: encode queryReserved (rest.takeWhile (· ≠ '#'))
    | _ => []
  let fragment :=
    match cs.dropWhile (· ≠ '#') with
    | _ :: rest => '#' :: encode fragmentReserved rest
    | [] => []
  "mfm://" ++ memoryPath path ++ String.ofList (query ++ fragment)

/-- The steps of a path that lead somewhere. -/
def steps (path : String) : List String :=
  (FilePath.segments path).filter fun s => s ≠ "" && s ≠ "."

/-- The URI of a path that leads to something. -/
def ofExistingPath (t : FileTree) (path : String) : String :=
  let root := if FilePath.isAbsolute path then "" else t.root
  let tail := (steps path).map fun s => "/" ++ String.ofList (encode fileStepReserved s.toList)
  let place := root ++ String.join tail
  "file://" ++ if place.isEmpty then "/" else place

/-- The URI that identifies a name. -/
def ofName (t : FileTree) (name : String) : String :=
  if t.pathExists name then ofExistingPath t name else ofMemoryName name

end Uri

/-! ## Units -/

/-- What a unit contains. -/
inductive UnitKind
  | source
  | artifact
  | other
  deriving Repr, DecidableEq

namespace UnitKind

/-- The file extension of a kind, with its dot. -/
def extension : UnitKind → String
  | .source => ".probe"
  | .artifact => ".class"
  | .other => ""

/-- The name of a kind. -/
def name : UnitKind → String
  | .source => "source"
  | .artifact => "artifact"
  | .other => "other"

/-- The kind of a file, by the extension of its path. -/
def ofPath (path : String) : UnitKind :=
  match FilePath.extension? path with
  | some "probe" => .source
  | some "class" => .artifact
  | _ => .other

end UnitKind

/-- Where the content of a unit comes from. -/
inductive UnitOrigin
  | file (path : String)
  | text (content : String)
  deriving Repr, DecidableEq

/-- A named piece of content. -/
structure CompilationUnit where
  name : String
  kind : UnitKind
  uri : String
  origin : UnitOrigin
  deriving Repr, DecidableEq

namespace CompilationUnit

/-- A unit whose content is in a file; its name is the path. -/
def ofFile (t : FileTree) (path : String) (kind : UnitKind) : CompilationUnit :=
  ⟨path, kind, Uri.ofName t path, .file path⟩

/-- A unit whose content is held in memory. -/
def ofText (t : FileTree) (name text : String) (kind : UnitKind) : CompilationUnit :=
  ⟨name, kind, Uri.ofName t name, .text text⟩

/-- The path of a unit whose content is in a file. -/
def path? (u : CompilationUnit) : Option String :=
  match u.origin with
  | .file path => some path
  | .text _ => none

/-- The content as text. -/
def content (u : CompilationUnit) (t : FileTree) : Except IoFault String :=
  match u.origin with
  | .file path => t.readText path
  | .text content => .ok content

/-- The content as bytes. -/
def bytes (u : CompilationUnit) (t : FileTree) : Except IoFault Bytes :=
  match u.origin with
  | .file path => t.read path
  | .text content => .ok (.ofString content)

/-- The name without directories and extensions. -/
def simpleName (u : CompilationUnit) : String :=
  let last := Text.lastPiece (fun c => c = '/' || c = '\\') u.name.toList
  String.ofList (last.takeWhile (· ≠ '.'))

end CompilationUnit

end ProbeLang
