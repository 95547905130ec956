import ProbeLang.Binary64
import ProbeLang.Table

/-!
# Settings

The values of a configuration. A value is turned into what is asked for as far as that is
possible. Names are in lower case, however they are written. Putting a table over a table merges
the two; any other value replaces what was there.
-/

namespace ProbeLang

/-- A value of a configuration. -/
inductive Setting
  | nil
  | bool (b : Bool)
  | int (n : Int)
  | real (x : Binary64)
  | text (s : String)
  | list (items : List Setting)
  | table (entries : List (String × Setting))
  deriving Inhabited

namespace Setting

/-! ## Reading scalars -/

/-- A character in lower case. Beyond ASCII only the Kelvin sign has a letter of ASCII as its
lower case, and no other character can make up a name that is known. -/
def lowerChar (c : Char) : Char :=
  if c.toNat = 0x212a then 'k' else c.toLower

/-- A text in lower case. -/
def lower (s : String) : String :=
  String.ofList (s.toList.map lowerChar)

/-- Whether an integer fits into 64 bits with a sign. -/
def fits (n : Int) : Bool :=
  -0x8000000000000000 ≤ n && n < 0x8000000000000000

/-- The integer of 64 bits that is written in digits, perhaps with a sign. -/
def int? (radix : Nat) (cs : List Char) : Option Int := do
  let (negative, digits) := Binary64.splitSign cs
  let n : Int := Int.ofNat (← Text.ofDigits? radix digits)
  let n := if negative then -n else n
  if digits.isEmpty || !fits n then none else some n

/-- The value of an environment variable. -/
def ofVariable (s : String) : Setting :=
  if lower s = "true" then .bool true
  else if lower s = "false" then .bool false
  else
    match int? 10 s.toList, Binary64.ofText? s.toList with
    | some n, _ => .int n
    | none, some x => .real x
    | none, none => .text s

/-! ## Merging -/

/-- The entries of a table; nothing else has any. -/
def entries : Setting → Table Setting
  | .table entries => entries
  | _ => []

/-- The items of a list; nothing else has any. -/
def items : Setting → List Setting
  | .list items => items
  | _ => []

mutual

/-- Put a value under a name. -/
def put (root : Setting) (name : String) (value : Setting) : Setting :=
  match value with
  | .table entries =>
      let old := (root.entries.find? (lower name)).getD (.table [])
      .table (root.entries.put (lower name) (putAll old entries))
  | value => .table (root.entries.put (lower name) value)

/-- Put entries one after the other. -/
def putAll (root : Setting) (entries : List (String × Setting)) : Setting :=
  match entries with
  | [] => root
  | (name, value) :: rest => putAll (put root name value) rest

end

/-! ## Asking -/

/-- The value as a text. -/
def text? : Setting → Option String
  | .text s => some s
  | .bool b => some (if b then "true" else "false")
  | .int n => some (toString n)
  | .real x => some x.toText
  | .nil | .list _ | .table _ => none

/-- The value as a text that may be left out. -/
def optionalText? : Setting → Option (Option String)
  | .nil => some none
  | s => s.text?.map some

/-- The value as a switch. -/
def bool? : Setting → Option Bool
  | .bool b => some b
  | .int n => some (n != 0)
  | .real x => some !x.isZero
  | .text s =>
      let s := lower s
      if ["1", "true", "on", "yes"].contains s then some true
      else if ["0", "false", "off", "no"].contains s then some false
      else none
  | .nil | .list _ | .table _ => none

end Setting

end ProbeLang
