import ProbeLang.Table
import ProbeLang.Token.Scan

/-!
# Macros

A macro is a name that stands for a text. Substitution works on one line: the line is cut into
segments (comments, literals, numbers, words and single other characters), every word that
names a macro is replaced by its text, and all other segments stay as they are. Replacement
texts are not looked at again. A block comment may stay open at the end of a line; whether it
does is handed on to the next.
-/

namespace ProbeLang

/-- The macros in force and the texts that they stand for. -/
abbrev Macros := Table String

/-- A piece of a line. -/
inductive Segment
  | comment (chars : List Char)
  | quoted (chars : List Char)
  | number (chars : List Char)
  | word (chars : List Char)
  | other (c : Char)
  deriving Repr, DecidableEq

namespace Segment

/-- The characters of a segment. -/
def chars : Segment → List Char
  | .comment cs | .quoted cs | .number cs | .word cs => cs
  | .other c => [c]

/-- Cut behind the end of a block comment; the flag says whether the comment ends. -/
def cutComment : List Char → List Char → List Char × List Char × Bool
  | read, '*' :: '/' :: rest => (('/' :: '*' :: read).reverse, rest, true)
  | read, c :: rest => cutComment (c :: read) rest
  | read, [] => (read.reverse, [], false)

/-- Cut behind the closing quote of a literal, or at the end of the line. A backslash takes the
next character with it. -/
def cutQuoted (quote : Char) : List Char → List Char → List Char × List Char
  | read, '\\' :: c :: rest => cutQuoted quote (c :: '\\' :: read) rest
  | read, c :: rest =>
      if c = quote then ((c :: read).reverse, rest) else cutQuoted quote (c :: read) rest
  | read, [] => (read.reverse, [])

/-- A character that continues a number: `10L` and `0x1F` are one piece. -/
def isNumberPart (c : Char) : Bool :=
  Lexeme.isWordPart c || c == '.'

/-- The first segment of a line outside comments, the rest, and whether a comment is open. -/
def next (c : Char) (rest : List Char) : Segment × List Char × Bool :=
  if c = '"' || c = '\'' then
    let (chars, rest) := cutQuoted c [c] rest
    (.quoted chars, rest, false)
  else if c = '/' && rest.head? == some '/' then (.comment (c :: rest), [], false)
  else if c = '/' && rest.head? == some '*' then (.comment ['/', '*'], rest.tail, true)
  else if c.isDigit then
    (.number (c :: rest.takeWhile isNumberPart), rest.dropWhile isNumberPart, false)
  else if Lexeme.isWordStart c then
    (.word (c :: rest.takeWhile Lexeme.isWordPart), rest.dropWhile Lexeme.isWordPart, false)
  else (.other c, rest, false)

/-- Cut a line into segments, starting inside a block comment or not. Every segment takes a
character, so a line is never longer than `fuel`. -/
def cut : Nat → List Segment → Bool → List Char → List Segment × Bool
  | _, done, inComment, [] => (done.reverse, inComment)
  | 0, done, inComment, _ => (done.reverse, inComment)
  | fuel + 1, done, true, cs =>
      let (chars, rest, closed) := cutComment [] cs
      cut fuel (.comment chars :: done) (!closed) rest
  | fuel + 1, done, false, c :: rest =>
      let (segment, rest, inComment) := next c rest
      cut fuel (segment :: done) inComment rest

/-- A segment with macros replaced. -/
def substitute (macros : Macros) : Segment → String
  | .word cs =>
      let word := String.ofList cs
      (macros.find? word).getD word
  | s => String.ofList s.chars

end Segment

/-- The segments of a line, and whether a block comment is open behind it. -/
def lineSegments (inComment : Bool) (line : List Char) : List Segment × Bool :=
  Segment.cut line.length [] inComment line

/-- A line with macros replaced, and whether a block comment is open behind it. -/
def Macros.substitute (macros : Macros) (inComment : Bool) (line : List Char) : String × Bool :=
  let (segments, inComment) := lineSegments inComment line
  (String.join (segments.map (Segment.substitute macros)), inComment)

end ProbeLang
