import ProbeLang.Config.Setting
import ProbeLang.Text.Blank

/-!
# RON documents

A value is a number, a text, a character, a truth value, a list in square brackets, a map in
braces, or a group in parentheses, which may have a name in front: with a colon behind its first
name it is a table, otherwise a list. A name alone and an empty group are no value. `Some` stands
around a value that may be left out, and `None` for one that is. A name may be marked as raw; then
it is a name and nothing else, whatever its letters are. A comma may follow the last part of
anything. Comments run to the end of the line or are enclosed, inside of each other too. In front
of the value, attributes may enable extensions; of these one counts here, with which `Some` needs
no parentheses around its value.
-/

namespace ProbeLang.Ron

/-! ## Gaps -/

/-- The text behind an enclosed comment, inside of `depth` others. -/
def skipComment : Nat → List Char → Option (List Char)
  | _, [] => none
  | depth, '/' :: '*' :: rest => skipComment (depth + 1) rest
  | 0, '*' :: '/' :: rest => some rest
  | depth + 1, '*' :: '/' :: rest => skipComment depth rest
  | depth, _ :: rest => skipComment depth rest

/-- The text behind blanks and comments, in no more than `fuel` steps. -/
def skipGap : Nat → List Char → Option (List Char)
  | 0, cs => some cs
  | fuel + 1, cs =>
      match cs.dropWhile fun c => c == ' ' || c == '\n' || c == '\t' || c == '\r' with
      | '/' :: '/' :: rest => skipGap fuel (rest.dropWhile (· ≠ '\n'))
      | '/' :: '*' :: rest => (skipComment 0 rest).bind (skipGap fuel)
      | '/' :: _ => none
      | cs => some cs

/-- The text behind blanks and comments. -/
def skip (cs : List Char) : Option (List Char) :=
  skipGap (cs.length + 1) cs

/-- The text behind a comma and the gaps around it, and whether there is a comma. -/
def skipComma (cs : List Char) : Option (Bool × List Char) := do
  match ← skip cs with
  | ',' :: rest => return (true, ← skip rest)
  | cs => return (false, cs)

/-! ## Names -/

/-- Whether a character may begin a name. -/
def beginsName (c : Char) : Bool :=
  c.isAlpha || c == '_'

/-- Whether a character may stand in a name. -/
def isNameChar (c : Char) : Bool :=
  c.isAlphanum || c == '_'

/-- Whether a character may stand in a name behind the mark of a raw name. -/
def isRawChar (c : Char) : Bool :=
  isNameChar c || c == '.' || c == '+' || c == '-'

/-- Read a name. -/
def readName (cs : List Char) : Option (String × List Char) :=
  match cs with
  | 'r' :: '"' :: _ => none
  | 'r' :: '#' :: rest =>
      match rest.takeWhile isRawChar with
      | [] => none
      | name => some (String.ofList name, rest.dropWhile isRawChar)
  | c :: _ =>
      if beginsName c then
        some (String.ofList (cs.takeWhile isNameChar), cs.dropWhile isNameChar)
      else none
  | [] => none

/-! ## Texts and numbers -/

/-- The escapes of one letter. -/
def escapes : List (Char × Char) :=
  [(Char.ofNat 39, Char.ofNat 39), ('"', '"'), ('\\', '\\'), ('n', '\n'), ('r', '\r'),
   ('t', '\t'), ('0', '\x00')]

/-- Read the rest of an escape. -/
def readEscape : List Char → Option (Char × List Char)
  | 'x' :: a :: b :: rest => (Text.hexChar? [a, b]).map fun c => (c, rest)
  | 'u' :: '{' :: rest =>
      let digits := rest.takeWhile (· ≠ '}')
      if digits.isEmpty || 6 < digits.length then none
      else (Text.hexChar? digits).map fun c => (c, (rest.dropWhile (· ≠ '}')).drop 1)
  | e :: rest => (escapes.lookup e).map fun c => (c, rest)
  | [] => none

/-- Read the rest of a text in quotes, in no more than `fuel` steps. -/
def readText : Nat → List Char → List Char → Option (String × List Char)
  | 0, _, _ => none
  | fuel + 1, done, cs =>
      match cs with
      | [] => none
      | '"' :: rest => some (String.ofList done.reverse, rest)
      | '\\' :: rest => (readEscape rest).bind fun (c, rest) => readText fuel (c :: done) rest
      | c :: rest => readText fuel (c :: done) rest

/-- Read a text up to a closing mark. -/
def readUntil (mark : List Char) : List Char → List Char → Option (String × List Char)
  | _, [] => none
  | done, c :: rest =>
      if mark.isPrefixOf (c :: rest) then
        some (String.ofList done.reverse, (c :: rest).drop mark.length)
      else readUntil mark (c :: done) rest

/-- Read a raw text behind its first letter: number signs, quotes and what is between them. -/
def readRawText (cs : List Char) : Option (String × List Char) :=
  let signs := cs.takeWhile (· == '#')
  match cs.drop signs.length with
  | '"' :: rest => readUntil ('"' :: signs) [] rest
  | _ => none

/-- Read the rest of a character in single quotes. -/
def readChar (cs : List Char) : Option (String × List Char) := do
  let (c, rest) ←
    match cs with
    | '\\' :: rest => readEscape rest
    | c :: rest => if c = Char.ofNat 39 then none else some (c, rest)
    | [] => none
  match rest with
  | d :: rest => if d = Char.ofNat 39 then some (c.toString, rest) else none
  | [] => none

/-- Whether a character may stand in an integer. -/
def isIntChar (c : Char) : Bool :=
  (Text.digitValue? 16 c).isSome || c == '_'

/-- Whether a character may stand in a real number. -/
def isRealChar (c : Char) : Bool :=
  c.isDigit || c == 'e' || c == 'E' || c == '.' || c == '+' || c == '-'

/-- The number that an integer is: one of 64 bits without a sign is real if it does not fit into
64 bits with one. -/
def ofInt? (signed : Bool) (n : Int) : Option Setting :=
  if Setting.fits n then some (.int n)
  else if !signed && n < 0x10000000000000000 then some (.real (.ofNat n.toNat))
  else none

/-- Read an integer behind its sign. -/
def readInt (sign : List Char) (cs : List Char) : Option (Setting × List Char) := do
  let (radix, cs) :=
    match cs with
    | '0' :: 'x' :: rest => (16, rest)
    | '0' :: 'o' :: rest => (8, rest)
    | '0' :: 'b' :: rest => (2, rest)
    | cs => (10, cs)
  let digits := cs.takeWhile isIntChar
  if digits.isEmpty || digits.head? = some '_' then none
  let n ← Text.ofDigits? radix (digits.filter (· ≠ '_'))
  let x ← ofInt? (!sign.isEmpty) (if sign = ['-'] then -n else n)
  return (x, cs.dropWhile isIntChar)

/-- The real numbers that are written as words, in front of which a sign may stand. -/
def realWords : List (String × Binary64) :=
  [("inf", .infinite false), ("NaN", .nan)]

/-- Read a real number behind its sign. -/
def readReal (sign : List Char) (cs : List Char) : Option (Setting × List Char) :=
  match realWords.lookup (String.ofList (cs.takeWhile isNameChar)) with
  | some x => some (.real (if sign = ['-'] then x.neg else x), cs.dropWhile isNameChar)
  | none =>
      (Binary64.ofText? (sign ++ cs.takeWhile isRealChar)).map fun x =>
        (.real x, cs.dropWhile isRealChar)

/-- Read a number. An integer for which there is not enough room is read as a real number. -/
def readNumber (cs : List Char) : Option (Setting × List Char) :=
  let (sign, unsigned) :=
    match cs with
    | '+' :: rest => (['+'], rest)
    | '-' :: rest => (['-'], rest)
    | cs => ([], cs)
  let isReal := (unsigned.takeWhile isIntChar).length <
    (unsigned.takeWhile fun c => isRealChar c || c == '_').length
  if isReal then readReal sign unsigned
  else (readInt sign unsigned).orElse fun _ => readReal sign unsigned

/-! ## Values -/

/-- The depth beyond which nothing is read. A container counts as one step, and what it holds as
another. -/
def maxDepth : Nat := 128

/-- The values of words. -/
def words : List (String × Setting) :=
  [("true", .bool true), ("false", .bool false), ("None", .nil)] ++
    realWords.map fun (word, x) => (word, .real x)

/-- Whether a group, whose parenthesis has been read, begins with a name and a colon. -/
def isTable (cs : List Char) : Option Bool := do
  match readName (← skip cs) with
  | none => return false
  | some (_, rest) => return (← skip rest).head? = some ':'

/-- Read a text or a character. -/
def readQuoted (cs : List Char) : Option (String × List Char) :=
  match cs with
  | '"' :: rest => readText (rest.length + 1) [] rest
  | 'r' :: rest => readRawText rest
  | c :: rest => if c = Char.ofNat 39 then readChar rest else none
  | [] => none

/-- The entries of a map or a table that have been read: those under a text or a name, and those
under a character. -/
structure Members where
  texts : Table Setting := []
  chars : Table Setting := []

/-- Add an entry. Of two with the same key the last one counts. -/
def Members.put (m : Members) (isChar : Bool) (key : String) (v : Setting) : Members :=
  if isChar then { m with chars := m.chars.put key v } else { m with texts := m.texts.put key v }

/-- The table of all entries. A text counts more than a character that is the same. -/
def Members.table (m : Members) : Table Setting :=
  m.chars.filter (fun (key, _) => !m.texts.has key) ++ m.texts

mutual

/-- Read a value at some depth; `bare` is whether `Some` needs no parentheses. -/
def readValue (bare : Bool) : Nat → Nat → List Char → Option (Setting × List Char)
  | 0, _, _ => none
  | fuel + 1, depth, cs =>
      if maxDepth < depth then none
      else
        let word := String.ofList (cs.takeWhile isNameChar)
        match words.lookup word with
        | some v => some (v, cs.dropWhile isNameChar)
        | none =>
            if word = "Some" then (skip (cs.dropWhile isNameChar)).bind (readSome bare fuel depth)
            else
              match cs with
              | '(' :: ')' :: rest => some (.nil, rest)
              | '(' :: rest => readGroup bare fuel depth rest
              | '[' :: rest => (skip rest).bind (readItems bare fuel (depth + 1) ']' true [])
              | '{' :: rest => (skip rest).bind (readMembers bare fuel (depth + 1) '}' true {})
              | cs =>
                  match readName cs with
                  | some (_, behind) => do
                      match ← skip behind with
                      | '(' :: inner => readGroup bare fuel depth inner
                      | behind => some (.nil, behind)
                  | none =>
                      match readQuoted cs with
                      | some (s, rest) => some (.text s, rest)
                      | none => readNumber cs

/-- Read the value behind `Some`. -/
def readSome (bare : Bool) : Nat → Nat → List Char → Option (Setting × List Char)
  | 0, _, _ => none
  | fuel + 1, depth, cs =>
      match cs with
      | '(' :: inner => do
          let (v, rest) ← readValue bare fuel (depth + 1) (← skip inner)
          match ← skipComma rest with
          | (_, ')' :: rest) => some (v, rest)
          | _ => none
      | cs => if bare then readValue bare fuel (depth + 1) cs else none

/-- Read the rest of a group. -/
def readGroup (bare : Bool) : Nat → Nat → List Char → Option (Setting × List Char)
  | 0, _, _ => none
  | fuel + 1, depth, cs => do
      let cs ← skip cs
      if ← isTable cs then readMembers bare fuel (depth + 1) ')' true {} cs
      else readItems bare fuel (depth + 1) ')' true [] cs

/-- Read the rest of a list; `more` is whether an item may come next. -/
def readItems (bare : Bool) : Nat → Nat → Char → Bool → List Setting → List Char →
    Option (Setting × List Char)
  | 0, _, _, _, _, _ => none
  | fuel + 1, depth, close, more, done, cs =>
      match cs with
      | [] => none
      | c :: rest =>
          if maxDepth < depth then none
          else if c = close then some (.list done.reverse, rest)
          else if !more then none
          else do
            let (item, rest) ← readValue bare fuel (depth + 1) cs
            let (more, rest) ← skipComma rest
            readItems bare fuel depth close more (item :: done) rest

/-- Read the rest of a map or a table; `more` is whether an entry may come next. The keys of a map
are texts and characters, those of a table are names. -/
def readMembers (bare : Bool) : Nat → Nat → Char → Bool → Members → List Char →
    Option (Setting × List Char)
  | 0, _, _, _, _, _ => none
  | fuel + 1, depth, close, more, done, cs =>
      match cs with
      | [] => none
      | c :: rest =>
          if maxDepth < depth then none
          else if c = close then some (.table done.table, rest)
          else if !more then none
          else do
            let (key, rest) ← if close = ')' then readName cs else readQuoted cs
            match ← skip rest with
            | ':' :: rest => do
                let (v, rest) ← readValue bare fuel (depth + 1) (← skip rest)
                let (more, rest) ← skipComma rest
                readMembers bare fuel depth close more (done.put (c = Char.ofNat 39) key v) rest
            | _ => none

end

/-! ## Texts -/

/-- The extension with which `Some` needs no parentheses. -/
def bareExtension : String := "implicit_some"

/-- The names of the extensions. -/
def extensions : List String :=
  [bareExtension, "unwrap_newtypes", "unwrap_variant_newtypes"]

/-- The text behind some marks and the gaps behind each of them. -/
def skipMarks : List String → List Char → Option (List Char)
  | [], cs => some cs
  | mark :: marks, cs =>
      if mark.toList.isPrefixOf cs then (skip (cs.drop mark.length)).bind (skipMarks marks)
      else none

/-- Read the names of extensions behind others, in no more than `fuel` steps. -/
def readExtensions : Nat → List String → List Char → Option (List String × List Char)
  | 0, _, _ => none
  | fuel + 1, done, cs => do
      let (name, rest) ← readName cs
      if !extensions.contains name then none
      let (more, rest) ← skipComma rest
      let names := name :: done
      if more && rest.head?.any isNameChar then readExtensions fuel names rest
      else some (names, rest)

/-- Read the attributes in front of a value, in no more than `fuel` steps. -/
def readAttributes : Nat → List String → List Char → Option (List String × List Char)
  | 0, _, _ => none
  | fuel + 1, done, cs =>
      if cs.head? = some '#' then do
        let rest ← skipMarks ["#", "!", "[", "enable", "("] cs
        let (names, rest) ← readExtensions fuel done rest
        readAttributes fuel names (← skipMarks [")", "]"] rest)
      else some (done, cs)

/-- The value that takes up a whole text. -/
def parse (text : String) : Option Setting := do
  let cs ← skip text.toList
  let (names, cs) ← readAttributes (cs.length + 1) [] cs
  let (v, rest) ← readValue (names.contains bareExtension) (3 * cs.length + 3) 0 cs
  if (← skip rest).isEmpty then some v else none

end ProbeLang.Ron
