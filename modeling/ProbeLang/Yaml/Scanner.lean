/-!
# Scanning YAML

The state in which a text is read into tokens, and the steps that all tokens share: moving on,
opening and closing blocks by indentation, and remembering where a key may have begun. That a key
stands somewhere is seen only at its colon, so the tokens that begin a mapping and a key are put
in front of others afterwards; they are kept apart with their place until the end.
-/

namespace ProbeLang.Yaml

/-! ## Tokens

A text is read as tokens: the scalars, the marks that are written, and the beginnings and ends of
blocks, which indentation stands for.

There are two editions of the language. In the first, a line may end in five ways, control
characters are refused, and inside brackets a colon always belongs to a value. In the second, a
line ends in a line feed or a carriage return, a comment needs a blank before it, and what is
inside brackets has to be indented like the block that they stand in. -/

/-- An edition of the language. -/
inductive Edition
  | first
  | second
  deriving Repr, DecidableEq

/-- A token of a document. -/
inductive Token
  | documentStart
  | documentEnd
  | streamEnd
  /-- The beginning of a list of dashes. -/
  | listStart
  /-- The beginning of a mapping without braces. -/
  | mappingStart
  | blockEnd
  | flowListStart
  | flowListEnd
  | flowMappingStart
  | flowMappingEnd
  /-- The dash of an item. -/
  | item
  | comma
  | key
  | value
  | scalar (plain : Bool) (text : String)
  deriving Repr, DecidableEq

/-! ## Characters -/

/-- The apostrophe. -/
def quote : Char := Char.ofNat 39

/-- Whether a character separates words on a line. -/
def isSpace (c : Char) : Bool :=
  c == ' ' || c == '\t'

/-- Whether a character belongs to the marks of lists and mappings inside brackets. -/
def isFlowMark (c : Char) : Bool :=
  [',', '[', ']', '{', '}'].contains c

/-- Whether a character ends a line. -/
def Edition.isBreak : Edition → Char → Bool
  | .first, c => [10, 13, 0x85, 0x2028, 0x2029].contains c.toNat
  | .second, c => c == '\n' || c == '\r'

/-- Whether the text or a word of it ends before a character. -/
def Edition.endsWord (ed : Edition) : Option Char → Bool
  | none => true
  | some c => isSpace c || ed.isBreak c

/-- Whether the text or a line ends before a character. -/
def Edition.endsLine (ed : Edition) : Option Char → Bool
  | none => true
  | some c => ed.isBreak c

/-- Whether a text of the first edition may have a character. -/
def isPrintable (c : Char) : Bool :=
  let n := c.toNat
  n = 9 || n = 10 || n = 13 || 32 ≤ n && n ≤ 126 || n = 0x85 || 0xa0 ≤ n && n ≤ 0xd7ff ||
    0xe000 ≤ n && n ≤ 0xfffd || 0x10000 ≤ n

/-! ## The state of reading -/

/-- A place at which a key without a mark of its own may have begun. -/
structure KeyPlace where
  /-- A colon has to follow, because the block goes on at this indentation. -/
  required : Bool
  /-- How many tokens come before it. -/
  number : Nat
  index : Nat
  line : Nat
  column : Nat
  deriving Repr, DecidableEq

/-- An indentation that was left for a deeper one. -/
structure Level where
  indent : Int
  /-- Whether the deeper one belongs to a block. -/
  isBlock : Bool
  deriving Repr, DecidableEq

/-- The state of reading. -/
structure Scanner where
  edition : Edition
  rest : List Char
  index : Nat := 0
  line : Nat := 0
  column : Nat := 0
  /-- Whether only blanks come before on the line. -/
  fresh : Bool := true
  /-- The indentation of the innermost block. -/
  indent : Int := -1
  outer : List Level := []
  /-- The number of brackets that are open. -/
  flow : Nat := 0
  /-- Where a key may have begun, outside and inside of each bracket, the innermost first. -/
  keys : List (Option KeyPlace) := [none]
  /-- Whether a key may begin. -/
  keyAllowed : Bool := true
  /-- The tokens that have been read, last first, and their number. -/
  tokens : List Token := []
  count : Nat := 0
  /-- Tokens that belong in front of the token with a number, last first. -/
  openings : List (Nat × List Token) := []
  /-- Where a colon needs no blank behind it. -/
  adjacent : Option Nat := none
  /-- Whether a mapping in braces, or one that a mark began, is open. -/
  inBraces : Bool := false
  /-- Whether a mapping inside a list in brackets is open that has no braces. -/
  inPair : Bool := false
  deriving Repr

namespace Scanner

/-! ## Moving on -/

/-- The character that is read next. -/
def peek (s : Scanner) : Option Char :=
  s.rest.head?

/-- Move behind a character that ends no line. -/
def advance (s : Scanner) : Scanner :=
  { s with
    rest := s.rest.tail
    index := s.index + 1
    column := s.column + 1
    fresh := s.fresh && s.peek.all isSpace }

/-- Move behind some characters. -/
def advanceBy : Nat → Scanner → Scanner
  | 0, s => s
  | n + 1, s => advanceBy n s.advance

/-- Move to the beginning of a line, over `n` characters. -/
def newLine (s : Scanner) (n : Nat) : Scanner :=
  { s with
    rest := s.rest.drop n, index := s.index + n, line := s.line + 1, column := 0, fresh := true }

/-- Move behind a line end; what it stands for in a scalar. -/
def takeBreak (s : Scanner) : List Char × Scanner :=
  match s.rest with
  | '\r' :: '\n' :: _ => (['\n'], s.newLine 2)
  | c :: _ => (if c.toNat = 0x2028 || c.toNat = 0x2029 then [c] else ['\n'], s.newLine 1)
  | [] => ([], s)

/-- Move to the end of the line. -/
def toLineEnd (s : Scanner) : Scanner :=
  advanceBy (s.rest.takeWhile fun c => !s.edition.isBreak c).length s

/-- Whether the marker of a document stands here. -/
def atMarker (s : Scanner) : Bool :=
  (['-', '-', '-'].isPrefixOf s.rest || ['.', '.', '.'].isPrefixOf s.rest) &&
    s.edition.endsWord (s.rest.drop 3).head?

/-- Add a token. -/
def push (s : Scanner) (t : Token) : Scanner :=
  { s with tokens := t :: s.tokens, count := s.count + 1 }

/-! ## Keys -/

/-- Replace where the innermost key may have begun. -/
def setKey (s : Scanner) (place : Option KeyPlace) : Scanner :=
  { s with keys := place :: s.keys.tail }

/-- Give up the key that may have begun. -/
def dropKey (s : Scanner) : Option Scanner :=
  match s.keys with
  | some place :: _ => if place.required then none else some (s.setKey none)
  | _ => some (s.setKey none)

/-- Remember that a key may begin here. -/
def saveKey (s : Scanner) : Option Scanner :=
  if s.keyAllowed then do
    let required := s.flow = 0 && s.indent = s.column &&
      (s.edition = .first || s.outer.head?.any Level.isBlock)
    return (← s.dropKey).setKey (some ⟨required, s.count, s.index, s.line, s.column⟩)
  else some s

/-- The greatest number of characters from the beginning of a key to its colon. -/
def maxKey : Nat := 1024

/-- Give up the keys that are too long or began on another line. In the second edition that is
no matter inside brackets. -/
def dropStaleKeys (s : Scanner) : Option Scanner := do
  let stale (place : KeyPlace) : Bool :=
    (place.line < s.line || place.index + maxKey < s.index) &&
      (s.edition = .first || s.flow = 0)
  let keys ← s.keys.mapM fun
    | some place => if stale place then if place.required then none else some none else some place
    | none => some none
  return { s with keys }

/-! ## Indentation -/

/-- Leave the indentations that are deeper than a column. -/
def leaveLevels (column : Int) : List Level → Scanner → Scanner
  | [], s => s
  | level :: outer, s =>
      if s.indent ≤ column then s
      else
        let s := if level.isBlock then s.push .blockEnd else s
        leaveLevels column outer { s with indent := level.indent, outer }

/-- End the blocks whose indentation is deeper than a column. Brackets have no indentation. -/
def endBlocks (s : Scanner) (column : Int) : Scanner :=
  if s.flow = 0 then leaveLevels column s.outer s else s

/-- Begin a block at a column, if it is deeper than the block around it; and whether it is. -/
def beginBlock (s : Scanner) (column : Int) : Bool × Scanner :=
  if s.flow ≠ 0 then (false, s)
  else
    let s :=
      match s.outer with
      | level :: outer =>
          if !level.isBlock && s.indent ≤ column then { s with indent := level.indent, outer }
          else s
      | [] => s
    if s.indent < column then
      (true, { s with indent := column, outer := ⟨s.indent, true⟩ :: s.outer })
    else (false, s)

/-- Begin a block here, with its token. -/
def openBlock (s : Scanner) (column : Nat) (t : Token) : Scanner :=
  let (opened, s) := s.beginBlock column
  if opened then s.push t else s

/-- In the second edition, what stands behind a colon or inside brackets must be indented by one
column more, unless it begins a block. -/
def deepen (s : Scanner) : Scanner :=
  if s.edition = .second && s.flow = 0 && s.outer.head?.any Level.isBlock then
    { s with indent := s.indent + 1, outer := ⟨s.indent, false⟩ :: s.outer }
  else s

/-- Take back what `deepen` did. -/
def shallow (s : Scanner) : Scanner :=
  match s.outer with
  | level :: outer => if level.isBlock then s else { s with indent := level.indent, outer }
  | [] => s

/-! ## Gaps -/

/-- The blanks and the comment up to the end of the line, in the second edition: whether there
was a tab, whether there was a space, and the state behind them. A comment needs a blank before
it. -/
def lineGap (s : Scanner) : Option (Bool × Bool × Scanner) :=
  let blanks := s.rest.takeWhile isSpace
  let s := advanceBy blanks.length s
  if s.peek = some '#' then
    if blanks.isEmpty then none else some (blanks.contains '\t', blanks.contains ' ', s.toLineEnd)
  else some (blanks.contains '\t', blanks.contains ' ', s)

/-- Go on behind a mark. In the second edition the line may only go on behind a blank with a
comment. -/
def closeGap (s : Scanner) : Option Scanner :=
  if s.edition = .second then s.lineGap.map fun (_, _, s) => s else some s

/-- Move behind a line end between tokens, where a key may begin outside of brackets. -/
def betweenLines (s : Scanner) : Scanner :=
  let (_, s) := s.takeBreak
  { s with keyAllowed := s.keyAllowed || s.flow = 0 }

/-- Move to the next token in the first edition, in no more than `fuel` steps. A tab may not
stand where a key may begin, and a byte order mark may begin a line. -/
def toTokenFirst : Nat → Scanner → Scanner
  | 0, s => s
  | fuel + 1, s =>
      match s.peek with
      | none => s
      | some c =>
          if c = '\ufeff' && s.column = 0 || c = ' ' || c = '\t' && (0 < s.flow || !s.keyAllowed)
          then toTokenFirst fuel s.advance
          else if c = '#' then
            let s := s.toLineEnd
            if s.rest.isEmpty then s else toTokenFirst fuel s.betweenLines
          else if s.edition.isBreak c then toTokenFirst fuel s.betweenLines
          else s

/-- Move to the next token in the second edition, in no more than `fuel` steps. A tab may not
stand in the indentation of a line that has content. -/
def toTokenSecond : Nat → Scanner → Option Scanner
  | 0, s => some s
  | fuel + 1, s =>
      match s.peek with
      | none => some s
      | some c =>
          if c = '\t' && !s.outer.isEmpty && s.fresh && s.column < s.indent then do
            let (_, _, s) ← s.lineGap
            if s.edition.endsLine s.peek then toTokenSecond fuel s else none
          else if isSpace c then toTokenSecond fuel s.advance
          else if s.edition.isBreak c then toTokenSecond fuel s.betweenLines
          else if c = '#' then toTokenSecond fuel s.toLineEnd
          else some s

/-- Move to the next token. -/
def toToken (s : Scanner) : Option Scanner :=
  match s.edition with
  | .first => some (toTokenFirst (s.rest.length + 1) s)
  | .second => toTokenSecond (s.rest.length + 1) s

end Scanner

end ProbeLang.Yaml
