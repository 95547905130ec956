import ProbeLang.Text.Blank

/-!
# Paths

A path is a text whose segments are separated by slashes; it is absolute when it begins with
one. Empty segments and single dots name no further step, except a dot at the very start.
-/

namespace ProbeLang.FilePath

/-- Split a text at every occurrence of a character. -/
def splitAt (sep : Char) : List Char → List Char → List (List Char)
  | word, [] => [word.reverse]
  | word, c :: rest =>
      if c = sep then word.reverse :: splitAt sep [] rest else splitAt sep (c :: word) rest

/-- The pieces of a text between the occurrences of a character. -/
def splitOnChar (sep : Char) (s : String) : List String :=
  (splitAt sep [] s.toList).map String.ofList

/-- The segments of a path between its slashes. An absolute path has an empty first one. -/
def segments (path : String) : List String :=
  splitOnChar '/' path

/-- Whether a path begins at the root. -/
def isAbsolute (path : String) : Bool :=
  path.toList.head? == some '/'

/-- A path relative to a directory. An absolute path stands for itself; otherwise a slash comes
between, unless the directory is empty or ends in one. -/
def join (dir path : String) : String :=
  if isAbsolute path then path
  else if dir.isEmpty || dir.toList.getLast? == some '/' then dir ++ path
  else dir ++ "/" ++ path

/-- Reversed segments without those at the end that name no step. -/
def dropIdle : List String → List String
  | [] => []
  | [s] => [s]
  | s :: rest => if s = "" || s = "." then dropIdle rest else s :: rest

/-- The segments without those at the end that name no step. -/
def trimmed (path : String) : List String :=
  (dropIdle (segments path).reverse).reverse

/-- Segments put together again. The root alone is written as a slash. -/
def ofSegments : List String → String
  | [""] => "/"
  | segs => "/".intercalate segs

/-- The last step of a path, if it names an entry of a directory. -/
def fileName? (path : String) : Option String :=
  match (trimmed path).getLast? with
  | some s => if s = "" || s = "." || s = ".." then none else some s
  | none => none

/-- The path without its last step; the root and the empty path have no parent. -/
def parent? (path : String) : Option String :=
  match trimmed path with
  | [] | [""] => none
  | [_] => some ""
  | segs => some (ofSegments (dropIdle segs.dropLast.reverse).reverse)

/-- What stands before the last step of a path, if that step is the name of an entry with a
slash behind it. Such a path can only mean a directory. -/
def slashed? (path : String) : Option String :=
  match (segments path).reverse with
  | "" :: back =>
      match back.dropWhile (· == "") with
      | [] | "." :: _ | ".." :: _ => none
      | [_] => some "."
      | _ :: before => some ("/".intercalate (before.reverse ++ [""]))
  | _ => none

/-- Replace the last step of a path. -/
def withFileName (path name : String) : String :=
  match fileName? path with
  | some _ => join ((parent? path).getD "") name
  | none => join path name

/-- What follows the last dot of the last step, if a dot stands inside it. -/
def extension? (path : String) : Option String :=
  match fileName? path with
  | none => none
  | some name =>
      let pieces := splitOnChar '.' name
      match pieces.reverse with
      | last :: before :: more => if more.isEmpty && before.isEmpty then none else some last
      | _ => none

end ProbeLang.FilePath
