import ProbeLang.Config.Setting
import ProbeLang.Table
import ProbeLang.Text.Digits

/-!
# Lexemes of TOML

Blanks, line ends, comments, keys and texts. A text is in double quotes, with escapes, or in
single quotes, as it stands; in three quotes it may have line breaks, of which the first is left
out if it follows the quotes, and up to two quotes before those that end it. Control characters
are refused everywhere.
-/

namespace ProbeLang.Toml

/-- The apostrophe. -/
def quote : Char := Char.ofNat 39

/-! ## Blanks, line ends and comments -/

/-- Whether a character separates words on a line. -/
def isSpace (c : Char) : Bool :=
  c == ' ' || c == '\t'

/-- The text behind blanks on the same line. -/
def skipSpace (cs : List Char) : List Char :=
  cs.dropWhile isSpace

/-- The text behind the line end with which it begins. -/
def lineEnd? : List Char → Option (List Char)
  | '\n' :: rest => some rest
  | '\r' :: '\n' :: rest => some rest
  | _ => none

/-- Whether a character may stand in a comment or a text. -/
def isPrintable (c : Char) : Bool :=
  c == '\t' || 32 ≤ c.toNat && c.toNat ≤ 126 || 128 ≤ c.toNat

/-- The text behind a comment, or as it is. -/
def skipComment : List Char → List Char
  | '#' :: rest => rest.dropWhile isPrintable
  | cs => cs

/-- The text behind a line whose content has been read. -/
def endLine (cs : List Char) : Option (List Char) :=
  match skipComment (skipSpace cs) with
  | [] => some []
  | cs => lineEnd? cs

/-- The text behind blanks, line ends and comments. -/
def skipGap : Nat → List Char → List Char
  | 0, cs => cs
  | fuel + 1, cs =>
      let cs := skipSpace cs
      match lineEnd? (skipComment cs) with
      | some rest => skipGap fuel rest
      | none => cs

/-- The text behind blanks and line ends. -/
def skipLines : Nat → List Char → List Char
  | 0, cs => cs
  | fuel + 1, cs =>
      let cs := skipSpace cs
      match lineEnd? cs with
      | some rest => skipLines fuel rest
      | none => cs

/-! ## Texts -/

/-- The escapes of one letter. -/
def escapes : List (Char × Char) :=
  [('b', '\x08'), ('t', '\t'), ('n', '\n'), ('f', '\x0c'), ('r', '\r'), ('"', '"'), ('\\', '\\')]

/-- The number of digits of the escapes that give a character by its number. -/
def numericEscapes : List (Char × Nat) :=
  [('u', 4), ('U', 8)]

/-- Read the rest of an escape. -/
def escape : List Char → Option (Char × List Char)
  | [] => none
  | e :: rest =>
      match escapes.lookup e, numericEscapes.lookup e with
      | some c, _ => some (c, rest)
      | none, some n =>
          if rest.length < n then none
          else (Text.hexChar? (rest.take n)).map fun c => (c, rest.drop n)
      | none, none => none

/-- Read the rest of a text in double quotes, in no more than `fuel` steps. -/
def basicText : Nat → List Char → List Char → Option (String × List Char)
  | 0, _, _ => none
  | fuel + 1, done, cs =>
      match cs with
      | [] => none
      | '"' :: rest => some (String.ofList done.reverse, rest)
      | '\\' :: rest => (escape rest).bind fun (c, rest) => basicText fuel (c :: done) rest
      | c :: rest => if isPrintable c then basicText fuel (c :: done) rest else none

/-- Read the rest of a text in single quotes. -/
def literalText (cs : List Char) : Option (String × List Char) :=
  let inside (c : Char) : Bool := isPrintable c && c ≠ quote
  match cs.dropWhile inside with
  | c :: rest => if c = quote then some (String.ofList (cs.takeWhile inside), rest) else none
  | [] => none

/-- The quotes at the front of a text in three quotes: those that belong to the text, whether it
ends behind them, and what follows. -/
def quotes (mark : Char) (cs : List Char) : List Char × Bool × List Char :=
  let n := (cs.takeWhile (· == mark)).length
  if n < 3 then (cs.take n, false, cs.drop n)
  else
    let inside := min (n - 3) 2
    (cs.take inside, true, cs.drop (inside + 3))

/-- Read the rest of a text in three quotes, in no more than `fuel` steps. A backslash at the end
of a line, which only double quotes have, leaves out what is blank behind it. -/
def longText (mark : Char) : Nat → List Char → List Char → Option (String × List Char)
  | 0, _, _ => none
  | fuel + 1, done, cs =>
      match cs, lineEnd? cs with
      | [], _ => none
      | _, some rest => longText mark fuel ('\n' :: done) rest
      | c :: more, none =>
          if c = mark then
            let (inside, ends, rest) := quotes mark cs
            let done := inside.reverse ++ done
            if ends then some (String.ofList done.reverse, rest) else longText mark fuel done rest
          else if c = '\\' && mark = '"' then
            match lineEnd? (skipSpace more) with
            | some rest => longText mark fuel done (skipLines fuel rest)
            | none => (escape more).bind fun (c, rest) => longText mark fuel (c :: done) rest
          else if isPrintable c then longText mark fuel (c :: done) more
          else none

/-- Read a text that stands in quotes. -/
def textValue? (cs : List Char) : Option (String × List Char) :=
  let fuel := cs.length + 1
  match cs with
  | a :: rest =>
      if a ≠ '"' && a ≠ quote then none
      else if [a, a].isPrefixOf rest then
        let rest := rest.drop 2
        longText a fuel [] ((lineEnd? rest).getD rest)
      else if a = '"' then basicText fuel [] rest
      else literalText rest
  | [] => none

/-! ## Keys -/

/-- Whether a character may stand in a key without quotes. -/
def isBare (c : Char) : Bool :=
  c.isAlphanum || c == '_' || c == '-'

/-- Read one step of a key. -/
def keyStep (cs : List Char) : Option (String × List Char) :=
  match cs with
  | '"' :: rest => basicText (rest.length + 1) [] rest
  | c :: rest =>
      if c = quote then literalText rest
      else if isBare c then some (String.ofList (cs.takeWhile isBare), cs.dropWhile isBare)
      else none
  | [] => none

/-- The number of steps that no key reaches. -/
def keyLimit : Nat := 80

/-- Read the steps of a key, in no more than `fuel` steps. -/
def keySteps : Nat → List Char → Option (List String × List Char)
  | 0, _ => none
  | fuel + 1, cs => do
      let (step, rest) ← keyStep (skipSpace cs)
      match skipSpace rest with
      | '.' :: rest => (keySteps fuel rest).map fun (steps, rest) => (step :: steps, rest)
      | rest => some ([step], rest)

/-- Read a key. -/
def keyPath (cs : List Char) : Option (List String × List Char) :=
  (keySteps (cs.length + 1) cs).filter fun (steps, _) => steps.length < keyLimit

/-! ## Numbers and dates of TOML

An integer has 64 bits with a sign and is written in decimal digits, or without a sign in
hexadecimal, octal or binary ones. Underscores may stand between digits. A real number that is
too large is refused. A date, a time or both become a text in one way of writing: a `T` between
them, no zeros at the end of a fraction of nine digits, and the difference to world time as `Z`
or as signed hours and minutes. -/

/-! ### Numbers -/

/-- Digits at the front of a text, of which there must be one, without the underscores between
them. -/
def digits (isDigit : Char → Bool) : List Char → Option (List Char × List Char)
  | [] => none
  | [c] => if isDigit c then some ([c], []) else none
  | c :: d :: rest =>
      if !isDigit c then none
      else if d = '_' then (digits isDigit rest).map fun (ds, rest) => (c :: ds, rest)
      else if isDigit d then (digits isDigit (d :: rest)).map fun (ds, rest) => (c :: ds, rest)
      else some ([c], d :: rest)

/-- The sign at the front of a text. -/
def sign : List Char → List Char × List Char
  | '-' :: rest => (['-'], rest)
  | '+' :: rest => (['+'], rest)
  | cs => ([], cs)

/-- The whole part of a decimal number; a zero stands alone. -/
def whole (cs : List Char) : Option (List Char × List Char) :=
  let (s, cs) := sign cs
  match cs with
  | '0' :: rest => some (s ++ ['0'], rest)
  | cs => (digits Char.isDigit cs).map fun (ds, rest) => (s ++ ds, rest)

/-- The exponent at the front of a text. -/
def exponent : List Char → Option (List Char × List Char)
  | e :: rest =>
      if e = 'e' || e = 'E' then
        let (s, rest) := sign rest
        (digits Char.isDigit rest).map fun (ds, rest) => (e :: (s ++ ds), rest)
      else none
  | [] => none

/-- A number with a fraction or an exponent. -/
def realNumber? (cs : List Char) : Option (Setting × List Char) := do
  let (front, rest) ← whole cs
  let (back, rest) ←
    match rest with
    | '.' :: rest => do
        let (part, rest) ← digits Char.isDigit rest
        let (power, rest) := (exponent rest).getD ([], rest)
        some ('.' :: (part ++ power), rest)
    | rest => exponent rest
  let x ← Binary64.ofText? (front ++ back)
  if x = .infinite false then none else some (.real x, rest)

/-- A word for infinity or for what is no number. -/
def specialNumber? (cs : List Char) : Option (Setting × List Char) :=
  let (s, rest) := sign cs
  match rest with
  | 'i' :: 'n' :: 'f' :: rest => some (.real (.infinite (s == ['-'])), rest)
  | 'n' :: 'a' :: 'n' :: rest => some (.real .nan, rest)
  | _ => none

/-- An integer in one of the notations with letters, behind the mark of the notation. -/
def radixNumber? (radix : Nat) (cs : List Char) : Option (Setting × List Char) := do
  let (ds, rest) ← digits (fun c => (Text.digitValue? radix c).isSome) cs
  return (.int (← Setting.int? radix ds), rest)

/-- An integer. -/
def integer? (cs : List Char) : Option (Setting × List Char) :=
  match cs with
  | '0' :: 'x' :: rest => radixNumber? 16 rest
  | '0' :: 'o' :: rest => radixNumber? 8 rest
  | '0' :: 'b' :: rest => radixNumber? 2 rest
  | cs => do
      let (ds, rest) ← whole cs
      return (.int (← Setting.int? 10 ds), rest)

/-! ### Dates and times -/

/-- A number of exactly `n` digits. -/
def fixed? (n : Nat) (cs : List Char) : Option (Nat × List Char) :=
  let ds := cs.take n
  if ds.length = n && ds.all Char.isDigit then some (Text.decimalValue ds, cs.drop n) else none

/-- A number of two digits with bounds. -/
def bounded? (low high : Nat) (cs : List Char) : Option (Nat × List Char) :=
  (fixed? 2 cs).filter fun (n, _) => low ≤ n && n ≤ high

/-- The text behind a character. -/
def behind? (c : Char) : List Char → Option (List Char)
  | d :: rest => if c = d then some rest else none
  | [] => none

/-- A number in decimal digits, with zeros in front. -/
def padded (width n : Nat) : List Char :=
  let ds := Nat.toDigits 10 n
  List.replicate (width - ds.length) '0' ++ ds

/-- The number of days of a month. -/
def daysOf (year month : Nat) : Nat :=
  if month = 2 then
    if year % 4 = 0 && (year % 100 ≠ 0 || year % 400 = 0) then 29 else 28
  else if [4, 6, 9, 11].contains month then 30
  else 31

/-- A date. -/
def date? (cs : List Char) : Option (List Char × List Char) := do
  let (year, rest) ← fixed? 4 cs
  let (month, rest) ← bounded? 1 12 (← behind? '-' rest)
  let (day, rest) ← bounded? 1 (daysOf year month) (← behind? '-' rest)
  return (padded 4 year ++ '-' :: (padded 2 month ++ '-' :: padded 2 day), rest)

/-- The fraction of a second, of which nine digits count. -/
def fraction (cs : List Char) : List Char × List Char :=
  match cs with
  | '.' :: rest =>
      match rest.takeWhile Char.isDigit with
      | [] => ([], cs)
      | ds =>
          let shown := ((ds.take 9).reverse.dropWhile (· == '0')).reverse
          (if shown.isEmpty then [] else '.' :: shown, rest.dropWhile Char.isDigit)
  | cs => ([], cs)

/-- A time of the day. -/
def time? (cs : List Char) : Option (List Char × List Char) := do
  let (hour, rest) ← bounded? 0 23 cs
  let (minute, rest) ← bounded? 0 59 (← behind? ':' rest)
  let (second, rest) ← bounded? 0 60 (← behind? ':' rest)
  let (part, rest) := fraction rest
  return (padded 2 hour ++ ':' :: (padded 2 minute ++ ':' :: (padded 2 second ++ part)), rest)

/-- The difference to world time, which may be left out. -/
def offset? (cs : List Char) : Option (List Char × List Char) :=
  match cs with
  | c :: rest =>
      if c = 'Z' || c = 'z' then some (['Z'], rest)
      else if c = '+' || c = '-' then do
        let (hour, rest) ← bounded? 0 23 rest
        let (minute, rest) ← bounded? 0 59 (← behind? ':' rest)
        let c := if hour = 0 && minute = 0 then '+' else c
        some (c :: (padded 2 hour ++ ':' :: padded 2 minute), rest)
      else some ([], cs)
  | [] => some ([], [])

/-- A date, a time, or both with or without the difference to world time. -/
def dateTime? (cs : List Char) : Option (Setting × List Char) := do
  let (shown, rest) ←
    match date? cs with
    | none => time? cs
    | some (date, rest) =>
        match rest with
        | mark :: behind =>
            match if ['T', 't', ' '].contains mark then time? behind else none with
            | none => some (date, rest)
            | some (time, rest) => do
                let (offset, rest) ← offset? rest
                some (date ++ 'T' :: (time ++ offset), rest)
        | [] => some (date, [])
  return (.text (String.ofList shown), rest)

/-- Read a value that has no quotes and no brackets. -/
def wordValue? (cs : List Char) : Option (Setting × List Char) :=
  match cs with
  | 't' :: 'r' :: 'u' :: 'e' :: rest => some (.bool true, rest)
  | 'f' :: 'a' :: 'l' :: 's' :: 'e' :: rest => some (.bool false, rest)
  | cs =>
      (dateTime? cs).orElse fun _ => (realNumber? cs).orElse fun _ =>
        (specialNumber? cs).orElse fun _ => integer? cs

end ProbeLang.Toml
