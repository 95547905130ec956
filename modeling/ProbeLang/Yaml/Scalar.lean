import ProbeLang.Text.Digits
import ProbeLang.Yaml.Scanner

/-!
# YAML scalars

A scalar without quotes, in single or in double quotes may go on over lines. Between two words the
blanks of a line stay as they are; a line end becomes a space, and several line ends lose the
first one. A line end behind a backslash, in double quotes, leaves nothing.
-/

namespace ProbeLang.Yaml

/-! ## Escapes -/

/-- The escapes of one letter. -/
def escapes : List (Char × Nat) :=
  [('0', 0), ('a', 7), ('b', 8), ('t', 9), ('\t', 9), ('n', 10), ('v', 11), ('f', 12), ('r', 13),
   ('e', 27), (' ', 32), ('"', 34), ('/', 47), ('\\', 92), ('N', 0x85), ('_', 0xa0),
   ('L', 0x2028), ('P', 0x2029)]

/-- The number of digits of the escapes that give a character by its number. -/
def numericEscapes : List (Char × Nat) :=
  [('x', 2), ('u', 4), ('U', 8)]

/-! ## Gaps between words -/

/-- What stands between two words of a scalar. -/
structure Gap where
  /-- The blanks on the line of the first word, last first. -/
  blanks : List Char := []
  /-- Whether a line has ended. -/
  broken : Bool := false
  /-- The first line end, unless it had a backslash in front. -/
  firstBreak : List Char := []
  /-- The other line ends. -/
  moreBreaks : List Char := []

/-- What a gap means in a scalar. -/
def Gap.fold (gap : Gap) : List Char :=
  if !gap.broken then gap.blanks.reverse
  else if gap.firstBreak = ['\n'] then
    if gap.moreBreaks.isEmpty then [' '] else gap.moreBreaks
  else gap.firstBreak ++ gap.moreBreaks

namespace Scanner

/-- The character that stands `n` places further on. -/
def ahead (s : Scanner) (n : Nat) : Option Char :=
  (s.rest.drop n).head?

/-- Read a gap, in no more than `fuel` steps. What follows has to be indented by `least`, and tabs
may not take part in that; in a scalar without quotes of the second edition they may where
nothing follows on the line. -/
def readGap (quoted : Bool) (least : Int) : Nat → Gap → Scanner → Option (Gap × Scanner)
  | 0, gap, s => some (gap, s)
  | fuel + 1, gap, s =>
      match s.peek with
      | none => some (gap, s)
      | some c =>
          if isSpace c then
            if !gap.broken then
              readGap quoted least fuel { gap with blanks := c :: gap.blanks } s.advance
            else if c = '\t' && s.column < least && !(quoted && s.edition = .first) then
              if quoted || s.edition = .first then none
              else do
                let (_, _, s) ← s.lineGap
                if s.edition.endsLine s.peek then readGap quoted least fuel gap s else none
            else readGap quoted least fuel gap s.advance
          else if s.edition.isBreak c then
            let (shown, s) := s.takeBreak
            if gap.broken then
              readGap quoted least fuel { gap with moreBreaks := gap.moreBreaks ++ shown } s
            else readGap quoted least fuel { gap with broken := true, firstBreak := shown } s
          else some (gap, s)

/-! ## Scalars without quotes -/

/-- Whether a character ends a word of a scalar without quotes: a colon with a blank behind it,
or a mark inside brackets. -/
def endsPlain (s : Scanner) (c : Char) : Bool :=
  c = ':' && (s.edition.endsWord (s.ahead 1) ||
      s.edition = .second && 0 < s.flow && (s.ahead 1).any isFlowMark) ||
    0 < s.flow && isFlowMark c

/-- Whether a colon inside brackets stands where the first edition refuses it. -/
def refusesColon (s : Scanner) (c : Char) : Bool :=
  s.edition = .first && 0 < s.flow && c = ':' &&
    (s.ahead 1).any fun d => isFlowMark d || d = '?'

/-- Read a word of a scalar without quotes, in no more than `fuel` steps. -/
def plainWord : Nat → List Char → Scanner → Option (List Char × Scanner)
  | 0, done, s => some (done, s)
  | fuel + 1, done, s =>
      match s.peek with
      | none => some (done, s)
      | some c =>
          if s.edition.endsWord c then some (done, s)
          else if s.refusesColon c then none
          else if s.endsPlain c then some (done, s)
          else plainWord fuel (c :: done) s.advance

/-- Read the words of a scalar without quotes behind a gap, in no more than `fuel` steps; `done`
comes before the gap, last first. A line end behind the last word lets a key begin. -/
def plainWords (least : Int) : Nat → List Char → Gap → Scanner → Option (List Char × Scanner)
  | 0, done, _, s => some (done, s)
  | fuel + 1, done, gap, s => do
      let stop : Scanner := { s with keyAllowed := s.keyAllowed || gap.broken }
      if s.column = 0 && s.atMarker || s.peek = some '#' then return (done, stop)
      if s.edition = .second && 0 < s.flow && s.peek = some '-' && (s.ahead 1).any isFlowMark then
        none
      let (word, s) ← plainWord (s.rest.length + 1) [] s
      if word.isEmpty then return (done, stop)
      let done := word ++ (gap.fold.reverse ++ done)
      if !s.edition.endsWord s.peek || s.peek.isNone then return (done, s)
      let (gap, s) ← readGap false least (s.rest.length + 1) {} s
      if s.flow = 0 && s.column < least then
        return (done, { s with keyAllowed := s.keyAllowed || gap.broken })
      plainWords least fuel done gap s

/-- Read a scalar without quotes. -/
def plainScalar (s : Scanner) : Option Scanner := do
  let s := { (← s.saveKey) with keyAllowed := false }
  let s := s.shallow
  let least := s.indent + 1
  if s.edition = .second && 0 < s.flow && s.column < least then none
  let (text, s) ← plainWords least (s.rest.length + 1) [] {} s
  if text.isEmpty then none else some (s.push (.scalar true (String.ofList text.reverse)))

/-! ## Scalars in quotes -/

/-- Read an escape behind its backslash. -/
def readEscape (s : Scanner) : Option (Char × Scanner) := do
  let e ← s.peek
  let s := s.advance
  match escapes.lookup e, numericEscapes.lookup e with
  | some n, _ => some (Char.ofNat n, s)
  | none, some n =>
      if s.rest.length < n then none
      else (Text.hexChar? (s.rest.take n)).map fun c => (c, advanceBy n s)
  | none, none => none

/-- Read a word of a scalar in quotes, in no more than `fuel` steps, and whether it ends in a
backslash at a line end. -/
def quotedWord (mark : Char) : Nat → List Char → Scanner → Option (List Char × Bool × Scanner)
  | 0, done, s => some (done, false, s)
  | fuel + 1, done, s =>
      match s.peek with
      | none => some (done, false, s)
      | some c =>
          if s.edition.endsWord c then some (done, false, s)
          else if c = mark then
            if mark = quote && s.ahead 1 = some quote then
              quotedWord mark fuel (quote :: done) (advanceBy 2 s)
            else some (done, false, s)
          else if c = '\\' && mark = '"' then
            if (s.ahead 1).any s.edition.isBreak then some (done, true, (s.advance.takeBreak).2)
            else do
              let (c, s) ← readEscape s.advance
              quotedWord mark fuel (c :: done) s
          else quotedWord mark fuel (c :: done) s.advance

/-- Read the words of a scalar in quotes up to the quote that ends it, in no more than `fuel`
steps. -/
def quotedWords (mark : Char) : Nat → List Char → Scanner → Option (List Char × Scanner)
  | 0, _, _ => none
  | fuel + 1, done, s => do
      if s.rest.isEmpty || s.column = 0 && s.atMarker then none
      if s.edition = .second && s.column < s.indent then none
      let (done, broken, s) ← quotedWord mark (s.rest.length + 1) done s
      if s.peek = some mark then return (done, s.advance)
      let (gap, s) ← readGap true s.indent (s.rest.length + 1) { broken } s
      quotedWords mark fuel (gap.fold.reverse ++ done) s

/-- Whether the second edition accepts what follows a scalar in quotes that began on a line. -/
def followsQuoted (s : Scanner) (line : Nat) : Bool :=
  match s.peek with
  | none => true
  | some c =>
      s.edition.isBreak c || 0 < s.flow && [',', '}', ']', ':'].contains c ||
        c = ':' && s.line = line

/-- Read a scalar in quotes. -/
def quotedScalar (mark : Char) (s : Scanner) : Option Scanner := do
  let s := { (← s.saveKey) with keyAllowed := false }
  let line := s.line
  let s := s.advance
  let (text, s) ← quotedWords mark (s.rest.length + 1) [] s
  let t := Token.scalar false (String.ofList text.reverse)
  if s.edition = .first then return s.push t
  let s ← s.closeGap
  if !s.followsQuoted line then none
  let s ← s.toToken
  return { s with adjacent := some s.index }.push t

end Scanner

end ProbeLang.Yaml
