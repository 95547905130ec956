import ProbeLang.Config.Setting
import ProbeLang.JsonText
import ProbeLang.Text.Letter

/-!
# JSON and JSON5 documents

Of two members of one name in an object the last one counts. A number that is too large is refused.

JSON5 is JSON with comments, more blanks, a comma behind the last part of anything, names and single
quotes for keys, single quotes and more escapes for texts, and numbers with a plus sign, in
hexadecimal digits, with a point at either end, or that are infinite or no number. An integer has
64 bits with a sign, or 32 without one in hexadecimal digits; a number beyond is refused.

Texts and names are read into parts first, and the surrogates among the parts are joined
afterwards, so that what stands for nothing may come between two of them.
-/

namespace ProbeLang.Setting

mutual

/-- The setting of a JSON value. -/
def ofJson? : JsonValue → Option Setting
  | .null => some .nil
  | .bool b => some (.bool b)
  | .number s =>
      (JsonText.numberValue? s.toList).map fun
        | .int n => .int n
        | .real x => .real x
  | .string s => some (.text s)
  | .array items => (ofJsonItems? items).map .list
  | .object members => (ofJsonMembers? [] members).map .table

/-- The settings of JSON values. -/
def ofJsonItems? : List JsonValue → Option (List Setting)
  | [] => some []
  | v :: rest => do return (← ofJson? v) :: (← ofJsonItems? rest)

/-- The entries of the members of an object, behind those of other members. -/
def ofJsonMembers? (done : Table Setting) :
    List (String × JsonValue) → Option (List (String × Setting))
  | [] => some done
  | (name, v) :: rest => do ofJsonMembers? (done.put name (← ofJson? v)) rest

end

end ProbeLang.Setting

namespace ProbeLang.Json5

/-! ## Gaps -/

/-- Whether a character ends a line. -/
def isBreak (c : Char) : Bool :=
  c == '\n' || c == '\r' || c.toNat == 0x2028 || c.toNat == 0x2029

/-- Whether a character may stand between lexemes. -/
def isSpace (c : Char) : Bool :=
  let n := c.toNat
  isBreak c || n == 9 || n == 11 || n == 12 || n == 32 || n == 0xa0 || n == 0xfeff || n == 0x1680 ||
    0x2000 ≤ n && n ≤ 0x200a || n == 0x202f || n == 0x205f || n == 0x3000

/-- The text behind an enclosed comment. -/
def skipComment : List Char → Option (List Char)
  | [] => none
  | '*' :: '/' :: rest => some rest
  | _ :: rest => skipComment rest

/-- The text behind blanks and comments, in no more than `fuel` steps. -/
def skipGap : Nat → List Char → List Char
  | 0, cs => cs
  | fuel + 1, cs =>
      let cs := cs.dropWhile isSpace
      match cs with
      | '/' :: '/' :: rest => skipGap fuel (rest.dropWhile fun c => !isBreak c)
      | '/' :: '*' :: rest =>
          match skipComment rest with
          | some rest => skipGap fuel rest
          | none => cs
      | _ => cs

/-- The text behind blanks and comments. -/
def skip (cs : List Char) : List Char :=
  skipGap (cs.length + 1) cs

/-! ## Parts of texts and names -/

/-- A part of a text or a name. -/
inductive Part
  | plain (c : Char)
  /-- A code unit that is written in four digits. -/
  | unit (n : Nat)
  deriving Repr, DecidableEq

/-- Whether a code unit is the first of a pair. -/
def isLead (n : Nat) : Bool :=
  0xd800 ≤ n && n < 0xdc00

/-- Whether a code unit is the second of a pair. -/
def isTrail (n : Nat) : Bool :=
  0xdc00 ≤ n && n < 0xe000

/-- The character of a pair: the low ten bits of both units one behind the other, with bit 16 set
in any case. -/
def pairChar (lead trail : Nat) : Char :=
  Char.ofNat (lead % 0x400 * 0x400 ||| 0x10000 ||| trail % 0x400)

/-- The text that parts make up. Each of the units of a pair must stand beside the other. -/
def joinParts : List Char → List Part → Option String
  | done, [] => some (String.ofList done.reverse)
  | done, .plain c :: rest => joinParts (c :: done) rest
  | done, .unit n :: .unit m :: rest =>
      if isLead n then if isTrail m then joinParts (pairChar n m :: done) rest else none
      else if isTrail n then none
      else joinParts (Char.ofNat n :: done) (.unit m :: rest)
  | done, .unit n :: rest =>
      if isLead n || isTrail n then none else joinParts (Char.ofNat n :: done) rest

/-! ## Texts -/

/-- The escapes of one letter that do not stand for that letter. -/
def escapes : List (Char × Char) :=
  [('b', '\x08'), ('f', '\x0c'), ('n', '\n'), ('r', '\r'), ('t', '\t'), ('v', '\x0b'),
   ('0', '\x00')]

/-- Read the rest of an escape, which may stand for nothing. -/
def readEscape : List Char → Option (List Part × List Char)
  | '\r' :: '\n' :: rest => some ([], rest)
  | 'x' :: a :: b :: rest => (Text.hexChar? [a, b]).map fun c => ([.plain c], rest)
  | 'x' :: _ => none
  | 'u' :: rest => (JsonText.hex4 rest).map fun (n, rest) => ([.unit n], rest)
  | e :: rest =>
      if isBreak e then some ([], rest)
      else if e.isDigit && e ≠ '0' then none
      else some ([.plain ((escapes.lookup e).getD e)], rest)
  | [] => none

/-- Read the rest of a text in quotes, in no more than `fuel` steps. -/
def readText (mark : Char) : Nat → List Part → List Char → Option (String × List Char)
  | 0, _, _ => none
  | fuel + 1, done, cs =>
      match cs with
      | [] => none
      | '\\' :: rest =>
          (readEscape rest).bind fun (parts, rest) => readText mark fuel (parts ++ done) rest
      | c :: rest =>
          if c = mark then (joinParts [] done.reverse).map fun s => (s, rest)
          else if isBreak c then none
          else readText mark fuel (.plain c :: done) rest

/-- Whether a character begins a text. -/
def isQuote (c : Char) : Bool :=
  c == '"' || c == Char.ofNat 39

/-! ## Keys and numbers -/

/-- Whether a character may begin a name. -/
def beginsName (c : Char) : Bool :=
  Text.isLetter c || c == '$' || c == '_'

/-- Whether a character may stand in a name behind its first one. -/
def isNameChar (c : Char) : Bool :=
  Text.isNamePart c || c == '$'

/-- Read the rest of a name, in no more than `fuel` steps. Any code unit may be written in it. -/
def readName : Nat → List Part → List Char → Option (String × List Char)
  | 0, _, _ => none
  | fuel + 1, done, cs =>
      let finish (_ : Unit) : Option (String × List Char) :=
        if done.isEmpty then none else (joinParts [] done.reverse).map fun s => (s, cs)
      match cs with
      | '\\' :: 'u' :: rest =>
          (JsonText.hex4 rest).bind fun (n, rest) => readName fuel (.unit n :: done) rest
      | c :: rest =>
          if if done.isEmpty then beginsName c else isNameChar c then
            readName fuel (.plain c :: done) rest
          else finish ()
      | [] => finish ()

/-- Read a key. -/
def readKey (cs : List Char) : Option (String × List Char) :=
  match cs with
  | c :: rest =>
      if isQuote c then readText c (rest.length + 1) [] rest else readName (cs.length + 1) [] cs
  | [] => none

/-- The length of an exponent at the front of a text. -/
def exponentLength (cs : List Char) : Nat :=
  match cs with
  | e :: rest =>
      if e = 'e' || e = 'E' then
        let sign := if rest.head?.any fun c => c == '+' || c == '-' then 1 else 0
        match ((rest.drop sign).takeWhile Char.isDigit).length with
        | 0 => 0
        | n => 1 + sign + n
      else 0
  | [] => 0

/-- The length of a decimal number without a sign at the front of a text. -/
def decimalLength (cs : List Char) : Nat :=
  let whole :=
    match cs with
    | '0' :: _ => 1
    | cs => (cs.takeWhile Char.isDigit).length
  let front :=
    match cs.drop whole with
    | '.' :: rest =>
        let part := (rest.takeWhile Char.isDigit).length
        if whole = 0 && part = 0 then 0 else whole + 1 + part
    | _ => whole
  if front = 0 then 0 else front + exponentLength (cs.drop front)

/-- Read a number in hexadecimal digits, behind its mark. -/
def readHex (cs : List Char) : Option (Setting × List Char) := do
  let isHex (c : Char) : Bool := (Text.digitValue? 16 c).isSome
  let digits := cs.takeWhile isHex
  let n ← Text.ofDigits? 16 digits
  if digits.isEmpty || 0x100000000 ≤ n then none else some (.int n, cs.dropWhile isHex)

/-- The numbers that are written as words. None of them has a plus sign. -/
def words : List (String × Binary64) :=
  [("Infinity", .infinite false), ("-Infinity", .infinite true), ("NaN", .nan), ("-NaN", .nan)]

/-- Read a number. One with a sign is not read as hexadecimal. -/
def readNumber (cs : List Char) : Option (Setting × List Char) :=
  match words.find? fun (w, _) => w.toList.isPrefixOf cs with
  | some (w, x) => some (.real x, cs.drop w.length)
  | none =>
    match cs with
    | '0' :: 'x' :: rest => readHex rest
    | '0' :: 'X' :: rest => readHex rest
    | cs =>
        let (_, unsigned) := Binary64.splitSign cs
        let n := decimalLength unsigned
        let text := cs.take (cs.length - unsigned.length + n)
        let rest := unsigned.drop n
        if n = 0 then none
        else if text.any fun c => c == '.' || c == 'e' || c == 'E' then
          ((Binary64.ofText? text).filter Binary64.isFinite).map fun x => (.real x, rest)
        else (Setting.int? 10 text).map fun i => (.int i, rest)

/-! ## Values -/

mutual

/-- Read a value. -/
def readValue : Nat → List Char → Option (Setting × List Char)
  | 0, _ => none
  | fuel + 1, cs =>
      match skip cs with
      | '[' :: rest =>
          match skip rest with
          | ']' :: rest => some (.list [], rest)
          | rest => readItems fuel [] rest
      | '{' :: rest =>
          match skip rest with
          | '}' :: rest => some (.table [], rest)
          | rest => readMembers fuel [] rest
      | 'n' :: 'u' :: 'l' :: 'l' :: rest => some (.nil, rest)
      | 't' :: 'r' :: 'u' :: 'e' :: rest => some (.bool true, rest)
      | 'f' :: 'a' :: 'l' :: 's' :: 'e' :: rest => some (.bool false, rest)
      | c :: rest =>
          if isQuote c then
            (readText c (rest.length + 1) [] rest).map fun (s, rest) => (.text s, rest)
          else readNumber (c :: rest)
      | [] => none

/-- Read the items of an array. -/
def readItems : Nat → List Setting → List Char → Option (Setting × List Char)
  | 0, _, _ => none
  | fuel + 1, done, cs => do
      let (item, rest) ← readValue fuel cs
      let items := item :: done
      match skip rest with
      | ',' :: rest =>
          match skip rest with
          | ']' :: rest => some (.list items.reverse, rest)
          | rest => readItems fuel items rest
      | ']' :: rest => some (.list items.reverse, rest)
      | _ => none

/-- Read the members of an object. Of two members of one name the last one counts. -/
def readMembers : Nat → Table Setting → List Char → Option (Setting × List Char)
  | 0, _, _ => none
  | fuel + 1, done, cs => do
      let (key, rest) ← readKey cs
      match skip rest with
      | ':' :: rest => do
          let (v, rest) ← readValue fuel rest
          let members := done.put key v
          match skip rest with
          | ',' :: rest =>
              match skip rest with
              | '}' :: rest => some (.table members, rest)
              | rest => readMembers fuel members rest
          | '}' :: rest => some (.table members, rest)
          | _ => none
      | _ => none

end

/-- The value that takes up a whole text. -/
def parse (text : String) : Option Setting := do
  let cs := text.toList
  let (v, rest) ← readValue (2 * cs.length + 2) cs
  if (skip rest).isEmpty then some v else none

end ProbeLang.Json5
