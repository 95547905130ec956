import ProbeLang.Binary64
import ProbeLang.Text.Digits

/-!
# JSON texts

Values as JSON writes them, a printer that puts every member on a line of its own, and a
reader. A number is kept as it is written; its value is found apart from that. What is nested too
deeply is not read.
-/

namespace ProbeLang

/-- A JSON value. -/
inductive JsonValue
  | null
  | bool (b : Bool)
  | number (text : String)
  | string (s : String)
  | array (items : List JsonValue)
  | object (members : List (String × JsonValue))
  deriving Inhabited

namespace JsonText

/-! ## Printing -/

/-- The letters that stand for characters behind a backslash. -/
def letters : List (Char × Char) :=
  [('"', '"'), ('\\', '\\'), ('\x08', 'b'), ('\x0c', 'f'), ('\n', 'n'), ('\r', 'r'), ('\t', 't')]

/-- A character inside quotes. -/
def escapeChar (c : Char) : List Char :=
  match letters.lookup c with
  | some e => ['\\', e]
  | none =>
      if c.toNat < 32 then
        ['\\', 'u', '0', '0', Text.digitChar (c.toNat / 16), Text.digitChar (c.toNat % 16)]
      else [c]

/-- A text in quotes. -/
def quoted (s : String) : String :=
  "\"" ++ String.ofList (s.toList.flatMap escapeChar) ++ "\""

/-- The beginning of a line at a depth. -/
def newLine (depth : Nat) : String :=
  "\n" ++ String.ofList (List.replicate (2 * depth) ' ')

/-- Members between brackets, each on a line of its own. -/
def bracketed (depth : Nat) (opening closing : String) (members : List String) : String :=
  if members.isEmpty then opening ++ closing
  else
    opening ++ ",".intercalate (members.map (newLine (depth + 1) ++ ·)) ++ newLine depth ++
      closing

mutual

/-- A value at a depth. -/
def print (depth : Nat) : JsonValue → String
  | .null => "null"
  | .bool b => if b then "true" else "false"
  | .number text => text
  | .string s => quoted s
  | .array items => bracketed depth "[" "]" (printItems (depth + 1) items)
  | .object members => bracketed depth "\x7b" "\x7d" (printMembers (depth + 1) members)

/-- The items of an array. -/
def printItems (depth : Nat) : List JsonValue → List String
  | [] => []
  | v :: rest => print depth v :: printItems depth rest

/-- The members of an object. -/
def printMembers (depth : Nat) : List (String × JsonValue) → List String
  | [] => []
  | (name, v) :: rest => (quoted name ++ ": " ++ print depth v) :: printMembers depth rest

end

/-! ## Reading -/

/-- The text behind white space. -/
def skip (cs : List Char) : List Char :=
  cs.dropWhile fun c => c == ' ' || c == '\n' || c == '\t' || c == '\r'

/-- The number in four hexadecimal digits, and the text behind them. -/
def hex4 : List Char → Option (Nat × List Char)
  | a :: b :: c :: d :: rest => (Text.ofDigits? 16 [a, b, c, d]).map fun n => (n, rest)
  | _ => none

/-- Read the character of one code unit or of a pair of surrogates. -/
def unicodeEscape (cs : List Char) : Option (Char × List Char) := do
  let (n, rest) ← hex4 cs
  if 0xd800 ≤ n && n < 0xdc00 then
    match rest with
    | '\\' :: 'u' :: rest =>
        let (m, rest) ← hex4 rest
        if 0xdc00 ≤ m && m < 0xe000 then
          some (Char.ofNat (0x10000 + (n - 0xd800) * 0x400 + (m - 0xdc00)), rest)
        else none
    | _ => none
  else if 0xdc00 ≤ n && n < 0xe000 then none
  else some (Char.ofNat n, rest)

/-- Read the rest of a text in quotes, in no more than `fuel` steps. -/
def readString : Nat → List Char → List Char → Option (String × List Char)
  | 0, _, _ => none
  | fuel + 1, done, cs =>
      match cs with
      | [] => none
      | '"' :: rest => some (String.ofList done.reverse, rest)
      | '\\' :: '/' :: rest => readString fuel ('/' :: done) rest
      | '\\' :: 'u' :: rest =>
          (unicodeEscape rest).bind fun (c, rest) => readString fuel (c :: done) rest
      | '\\' :: e :: rest =>
          match letters.find? fun (_, l) => l == e with
          | some (c, _) => readString fuel (c :: done) rest
          | none => none
      | c :: rest => if c.toNat < 32 then none else readString fuel (c :: done) rest

/-- Digits at the front of a text, of which there must be one, and the text behind them. -/
def digits (cs : List Char) : Option (List Char × List Char) :=
  match cs.takeWhile Char.isDigit with
  | [] => none
  | ds => some (ds, cs.dropWhile Char.isDigit)

/-- Read an optional fraction. -/
def fraction (cs : List Char) : Option (List Char × List Char) :=
  match cs with
  | '.' :: rest => (digits rest).map fun (ds, rest) => ('.' :: ds, rest)
  | cs => some ([], cs)

/-- Read an optional exponent. -/
def exponent (cs : List Char) : Option (List Char × List Char) :=
  match cs with
  | [] => some ([], [])
  | e :: rest =>
      if e == 'e' || e == 'E' then
        match rest with
        | s :: rest' =>
            if s == '+' || s == '-' then
              (digits rest').map fun (ds, rest) => (e :: s :: ds, rest)
            else (digits rest).map fun (ds, rest) => (e :: ds, rest)
        | [] => none
      else some ([], cs)

/-- Read a number; a zero stands alone before the point. -/
def readNumber (cs : List Char) : Option (JsonValue × List Char) := do
  let (sign, rest) :=
    match cs with
    | '-' :: rest => (['-'], rest)
    | cs => ([], cs)
  let (whole, rest) ← digits rest
  if whole.length ≠ 1 && whole.head? = some '0' then none
  else
    let (part, rest) ← fraction rest
    let (power, rest) ← exponent rest
    some (.number (String.ofList (sign ++ whole ++ part ++ power)), rest)

/-- Read a word that stands for a value. -/
def readWord (cs : List Char) : Option (JsonValue × List Char) :=
  match cs with
  | 'n' :: 'u' :: 'l' :: 'l' :: rest => some (.null, rest)
  | 't' :: 'r' :: 'u' :: 'e' :: rest => some (.bool true, rest)
  | 'f' :: 'a' :: 'l' :: 's' :: 'e' :: rest => some (.bool false, rest)
  | cs => readNumber cs

mutual

/-- Read a value. -/
def readValue : Nat → List Char → Option (JsonValue × List Char)
  | 0, _ => none
  | fuel + 1, cs =>
      match skip cs with
      | '"' :: rest => (readString (fuel + 1) [] rest).map fun (s, rest) => (.string s, rest)
      | '[' :: rest =>
          match skip rest with
          | ']' :: rest => some (.array [], rest)
          | rest => readItems fuel [] rest
      | '{' :: rest =>
          match skip rest with
          | '}' :: rest => some (.object [], rest)
          | rest => readMembers fuel [] rest
      | cs => readWord cs

/-- Read the items of an array. -/
def readItems : Nat → List JsonValue → List Char → Option (JsonValue × List Char)
  | 0, _, _ => none
  | fuel + 1, done, cs => do
      let (v, rest) ← readValue fuel cs
      match skip rest with
      | ',' :: rest => readItems fuel (v :: done) rest
      | ']' :: rest => some (.array (v :: done).reverse, rest)
      | _ => none

/-- Read the members of an object. -/
def readMembers : Nat → List (String × JsonValue) → List Char → Option (JsonValue × List Char)
  | 0, _, _ => none
  | fuel + 1, done, cs =>
      match skip cs with
      | '"' :: rest => do
          let (name, rest) ← readString (fuel + 1) [] rest
          match skip rest with
          | ':' :: rest => do
              let (v, rest) ← readValue fuel rest
              match skip rest with
              | ',' :: rest => readMembers fuel ((name, v) :: done) rest
              | '}' :: rest => some (.object ((name, v) :: done).reverse, rest)
              | _ => none
          | _ => none
      | _ => none

end

mutual

/-- The number of arrays and objects that lie inside of each other. -/
def depth : JsonValue → Nat
  | .array items => itemsDepth items + 1
  | .object members => membersDepth members + 1
  | _ => 0

/-- The greatest depth among items. -/
def itemsDepth : List JsonValue → Nat
  | [] => 0
  | v :: rest => max (depth v) (itemsDepth rest)

/-- The greatest depth among members. -/
def membersDepth : List (String × JsonValue) → Nat
  | [] => 0
  | (_, v) :: rest => max (depth v) (membersDepth rest)

end

/-- The greatest depth that is read. -/
def maxDepth : Nat := 127

/-- The value that takes up a whole text. -/
def parse (text : String) : Option JsonValue := do
  let cs := text.toList
  let (v, rest) ← readValue (2 * cs.length + 2) cs
  if (skip rest).isEmpty && depth v ≤ maxDepth then some v else none

/-! ## The values of numbers

A number without fraction and exponent that fits into 64 bits with a sign is an integer; any
other is a binary64 number. Of its digits those count that fit into 64 bits without a sign, the
others only for the power of ten. The digits are rounded first and then multiplied or divided by
the power, in steps of no more than `10 ^ 308`, with a rounding each time. A number that is too
large is refused. -/

/-- The value of a number. -/
inductive NumberValue
  | int (n : Int)
  | real (x : Binary64)
  deriving Repr, DecidableEq

/-- The greatest integer of 64 bits without a sign. -/
def maxSignificand : Nat := 0xFFFFFFFFFFFFFFFF

/-- Read as many digits behind others as there is room for, and count them. -/
def takeDigits : Nat → Nat → List Char → Nat × Nat × List Char
  | significand, count, [] => (significand, count, [])
  | significand, count, d :: rest =>
      let next := 10 * significand + (d.toNat - '0'.toNat)
      if maxSignificand < next then (significand, count, d :: rest)
      else takeDigits next (count + 1) rest

/-- Scale a number by a power of ten, in no more than `fuel` steps. -/
def scale : Nat → Binary64 → Int → Option Binary64
  | 0, x, _ => some x
  | fuel + 1, x, e =>
      if -308 ≤ e && e ≤ 308 then
        let ten := Binary64.ofDecimal false 1 e.natAbs
        let x := if 0 ≤ e then x.mul ten else x.div ten
        if x.isFinite then some x else none
      else if x.isZero then some x
      else if 0 < e then none
      else scale fuel (x.div (Binary64.ofDecimal false 1 308)) (e + 308)

/-- The number `significand * 10 ^ e`. A power beyond 32 bits is not added to another. -/
def scaled (negative : Bool) (significand : Nat) (e : Int) : Option Binary64 := do
  let x ← scale 8 (Binary64.ofNat significand) e
  return if negative then x.neg else x

/-- The greatest power of ten that is read. -/
def maxPower : Int := 2147483647

/-- The value of a number with a fraction, an exponent or too many digits. -/
def realValue? (negative : Bool) (whole part : List Char) (power : Int) : Option Binary64 :=
  let (significand, _, dropped) := takeDigits 0 0 whole
  let (significand, count, _) := takeDigits significand 0 part
  if maxPower < power.natAbs then
    if significand = 0 || power < 0 then scaled negative 0 0 else none
  else scaled negative significand (dropped.length - count + power)

/-- The value of a number as JSON writes it. -/
def numberValue? (cs : List Char) : Option NumberValue := do
  let (negative, cs) := Binary64.splitSign cs
  let whole := cs.takeWhile Char.isDigit
  let behind := cs.dropWhile Char.isDigit
  let (part, behind) :=
    match behind with
    | '.' :: rest => (rest.takeWhile Char.isDigit, rest.dropWhile Char.isDigit)
    | rest => ([], rest)
  let power ← Binary64.exponentValue? behind
  let n := Text.decimalValue whole
  if part.isEmpty && behind.isEmpty && n ≤ maxSignificand then
    if negative && n = 0 || 0x8000000000000000 < n || !negative && 0x8000000000000000 = n then
      return .real (if negative then (Binary64.ofNat n).neg else Binary64.ofNat n)
    else return .int (if negative then -n else n)
  else return .real (← realValue? negative whole part power)

end JsonText

end ProbeLang
