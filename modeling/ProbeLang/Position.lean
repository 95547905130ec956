/-!
# Source positions

A position is a line and a column, both counted from one; the column counts characters.
Reading a line feed moves to the start of the next line and reading any other character
moves one column to the right, so the position after a text is a fold over it.
-/

namespace ProbeLang

/-- A place in a source text. Line zero stands for no place at all. -/
structure Pos where
  line : Nat
  col : Nat
  deriving Repr, DecidableEq, Inhabited

namespace Pos

/-- Where a text begins. -/
def start : Pos := ⟨1, 1⟩

/-- The place of something that has no place. -/
def none : Pos := ⟨0, 0⟩

/-- The position behind one character. -/
def advance (p : Pos) (c : Char) : Pos :=
  if c = '\n' then ⟨p.line + 1, 1⟩ else ⟨p.line, p.col + 1⟩

/-- The position behind a text. -/
def advanceAll (p : Pos) (cs : List Char) : Pos :=
  cs.foldl advance p

@[simp] theorem advanceAll_nil (p : Pos) : p.advanceAll [] = p := rfl

@[simp] theorem advanceAll_cons (p : Pos) (c : Char) (cs : List Char) :
    p.advanceAll (c :: cs) = (p.advance c).advanceAll cs := rfl

theorem advanceAll_append (p : Pos) (xs ys : List Char) :
    p.advanceAll (xs ++ ys) = (p.advanceAll xs).advanceAll ys :=
  List.foldl_append

end Pos

/-- What is wrong with a source text that is no sequence of tokens, or no unit. -/
inductive SyntaxFault
  | illegalCharacter (c : Char)
  | unclosedString
  | emptyChar
  | unclosedChar
  | illegalEscape
  | unclosedComment
  | intTooLarge
  | longTooLarge
  | endOfFile
  | expected (what : String)
  | repeatedModifier
  | tooManyDimensions
  | voidNotAllowed
  | classNotAllowed
  | illegalExpression
  deriving Repr, DecidableEq

/-- The wording of a fault. -/
def SyntaxFault.message : SyntaxFault → String
  | .illegalCharacter c => "illegal character: '" ++ c.toString ++ "'"
  | .unclosedString => "unclosed string literal"
  | .emptyChar => "empty character literal"
  | .unclosedChar => "unclosed character literal"
  | .illegalEscape => "illegal escape character"
  | .unclosedComment => "unclosed comment"
  | .intTooLarge => "integer number too large"
  | .longTooLarge => "long number too large"
  | .endOfFile => "reached end of file while parsing"
  | .expected what => what ++ " expected"
  | .repeatedModifier => "repeated modifier"
  | .tooManyDimensions => "array type has too many dimensions"
  | .voidNotAllowed => "'void' type not allowed here"
  | .classNotAllowed => "class declaration not allowed here"
  | .illegalExpression => "illegal start of expression"

/-- A fault and where it was met. -/
structure SyntaxError where
  pos : Pos
  fault : SyntaxFault
  deriving Repr, DecidableEq

end ProbeLang
