import ProbeLang.Text.Blank
import ProbeLang.Ty

/-!
# Class names

A binary name is a package, a dot and the name of a class; the names of nested classes follow
behind dollar signs.
-/

namespace ProbeLang

/-- What stands before and after the last dot. -/
def splitLastDot (name : String) : Option (String × String) :=
  let cs := name.toList
  let last := Text.lastPiece (· = '.') cs
  if last.length < cs.length then
    some (String.ofList (cs.take (cs.length - last.length - 1)), String.ofList last)
  else none

/-- The outermost class around a class. -/
def outermostName (binary : String) : String :=
  String.ofList (binary.toList.takeWhile (· ≠ '$'))

/-- What stands behind the last dollar sign. -/
def nestedName (name : String) : String :=
  String.ofList (Text.lastPiece (· = '$') name.toList)

/-- The last part of a name with dots. -/
def lastName (name : String) : String :=
  String.ofList (Text.lastPiece (· = '.') name.toList)

end ProbeLang
