import ProbeLang.Config.Setting

/-!
# Paths of keys

A key of a configuration may lead to a place inside of tables and lists: a name, and behind it
names with a dot in front and numbers in square brackets. Names have letters, digits, blanks,
underscores and hyphens. A key that is not written so is one name. A negative number counts from
the end of a list.

Whatever stands in the way of a path is replaced: a table by a list where a number leads on, and
a list or a scalar by a table where a name does.
-/

namespace ProbeLang

/-- A step of a path. -/
inductive KeyStep
  | name (s : String)
  | index (i : Int)
  deriving Repr, DecidableEq

namespace KeyPath

/-- Whether a character may stand in a name. -/
def isNameChar (c : Char) : Bool :=
  c.isAlphanum || c == ' ' || c == '_' || c == '-'

/-- Read a name, which is not empty. -/
def readName (cs : List Char) : Option (KeyStep × List Char) :=
  match cs.takeWhile isNameChar with
  | [] => none
  | name => some (.name (String.ofList name), cs.dropWhile isNameChar)

/-- Whether a character may stand around a number. -/
def isSpace (c : Char) : Bool :=
  c == ' ' || c == '\t'

/-- Read a number and the bracket behind it. -/
def readIndex (cs : List Char) : Option (KeyStep × List Char) :=
  let cs := cs.dropWhile isSpace
  let (sign, digits) :=
    match cs with
    | '-' :: rest => (['-'], rest)
    | cs => ([], cs)
  match (digits.dropWhile Char.isDigit).dropWhile isSpace with
  | ']' :: rest =>
      (Setting.int? 10 (sign ++ digits.takeWhile Char.isDigit)).map fun i => (.index i, rest)
  | _ => none

/-- Read the steps behind a name, in no more than `fuel` steps. -/
def readSteps : Nat → List Char → Option (List KeyStep)
  | 0, _ => none
  | _ + 1, [] => some []
  | fuel + 1, c :: rest => do
      let (step, rest) ← if c = '.' then readName rest else if c = '[' then readIndex rest else none
      return step :: (← readSteps fuel rest)

/-- The path that a key is written as. -/
def ofKey? (cs : List Char) : Option (List KeyStep) := do
  let (step, rest) ← readName cs
  return step :: (← readSteps (rest.length + 1) rest)

/-- Whether a path leads into a list. -/
def entersList (path : List KeyStep) : Bool :=
  path.any fun
    | .index _ => true
    | .name _ => false

/-- The path of a key. -/
def ofKey (key : String) : List KeyStep :=
  (ofKey? key.toList).getD [.name key]

end KeyPath

namespace Setting

/-- The place in a list that a number stands for. -/
def place? (length : Nat) (i : Int) : Option Nat :=
  let i := if i < 0 then length + i else i
  if i < 0 then none else some i.toNat

/-- Put a value at a place in a list, which is made long enough. -/
def setItem (items : List Setting) (i : Nat) (value : Setting) : List Setting :=
  (items ++ List.replicate (i + 1 - items.length) Setting.nil).set i value

/-- Put a value at the end of a path. -/
def putAt (value : Setting) : List KeyStep → Setting → Option Setting
  | [], root => some root
  | [.name s], root => some (root.put s value)
  | [.index i], root => do
      return .list (setItem root.items (← place? root.items.length i) value)
  | .name s :: rest, root => do
      let child ← putAt value rest ((root.entries.find? (lower s)).getD .nil)
      return .table (root.entries.put (lower s) child)
  | .index i :: rest, root => do
      let i ← place? root.items.length i
      return .list (setItem root.items i (← putAt value rest (root.items[i]?.getD Setting.nil)))

end Setting

end ProbeLang
