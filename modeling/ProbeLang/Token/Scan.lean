import ProbeLang.Text.Blank
import ProbeLang.Text.Digits
import ProbeLang.Text.Alphabetic
import ProbeLang.Token

/-!
# Splitting a text into tokens

A text is a sequence of lexemes separated by gaps of blanks and comments. `skipGap` passes
one gap, `Lexeme.scan` reads the lexeme that follows it, and `Token.scan` alternates the two
until the text is used up. Identifiers, keywords and numbers are as long as possible, and an
operator takes two characters whenever it can. A lexeme keeps the characters it was read
from, so the position behind it is the fold of `Pos.advance` over them.
-/

namespace ProbeLang

/-- What a scan through a gap is in the middle of. -/
inductive Gap
  | between
  | lineComment
  | blockComment (opened : Pos)

/-- Pass over blanks and comments. A block comment that stays open is a fault at its start. -/
def skipGap : Gap → Pos → List Char → Except SyntaxError (Pos × List Char)
  | .between, p, '/' :: '/' :: rest => skipGap .lineComment ((p.advance '/').advance '/') rest
  | .between, p, '/' :: '*' :: rest => skipGap (.blockComment p) ((p.advance '/').advance '*') rest
  | .between, p, c :: rest =>
      if Text.isBlank c then skipGap .between (p.advance c) rest else .ok (p, c :: rest)
  | .between, p, [] => .ok (p, [])
  | .lineComment, p, c :: rest =>
      skipGap (if c = '\n' then .between else .lineComment) (p.advance c) rest
  | .lineComment, p, [] => .ok (p, [])
  | .blockComment _, p, '*' :: '/' :: rest => skipGap .between ((p.advance '*').advance '/') rest
  | .blockComment opened, p, c :: rest => skipGap (.blockComment opened) (p.advance c) rest
  | .blockComment opened, _, [] => .error ⟨opened, .unclosedComment⟩

/-- A lexeme: its kind, its content, the characters it was read from and what follows it. -/
structure Lexeme where
  kind : Token.Kind
  content : List Char
  chars : List Char
  rest : List Char

namespace Lexeme

/-- A character that may begin an identifier. -/
def isWordStart (c : Char) : Bool :=
  Text.isAlphabetic c || c == '_' || c == '$'

/-- A character that may continue an identifier. -/
def isWordPart (c : Char) : Bool :=
  Text.isAlphanumeric c || c == '_' || c == '$'

/-- The character that an escape letter stands for. -/
def escape? : Char → Option Char
  | 'n' => some '\n'
  | 't' => some '\t'
  | 'r' => some '\r'
  | '0' => some '\x00'
  | '\\' => some '\\'
  | '"' => some '"'
  | '\'' => some '\''
  | _ => none

/-- Read a string literal behind its opening quote; `content` and `read` hold what has been
read, last character first. -/
def scanString (opened : Pos) :
    List Char → List Char → Pos → List Char → Except SyntaxError Lexeme
  | content, read, _, '"' :: rest =>
      .ok ⟨.stringLiteral, content.reverse, ('"' :: read).reverse, rest⟩
  | content, read, p, '\\' :: c :: rest =>
      match escape? c with
      | some e => scanString opened (e :: content) (c :: '\\' :: read) (p.advanceAll ['\\', c]) rest
      | none => .error ⟨p, .illegalEscape⟩
  | _, _, p, ['\\'] => .error ⟨p, .illegalEscape⟩
  | content, read, p, c :: rest =>
      if c = '\n' then .error ⟨opened, .unclosedString⟩
      else scanString opened (c :: content) (c :: read) (p.advance c) rest
  | _, _, _, [] => .error ⟨opened, .unclosedString⟩

/-- Finish a character literal whose value and characters have been read. -/
def closeChar (opened : Pos) (value : Char) (read : List Char) :
    List Char → Except SyntaxError Lexeme
  | '\'' :: rest => .ok ⟨.charLiteral, [value], read ++ ['\''], rest⟩
  | _ => .error ⟨opened, .unclosedChar⟩

/-- Read a character literal behind its opening quote. -/
def scanChar (opened : Pos) : List Char → Except SyntaxError Lexeme
  | '\\' :: c :: rest =>
      match escape? c with
      | some e => closeChar opened e ['\'', '\\', c] rest
      | none => .error ⟨opened.advance '\'', .illegalEscape⟩
  | ['\\'] => .error ⟨opened.advance '\'', .illegalEscape⟩
  | c :: rest =>
      if c = '\'' || c = '\n' then .error ⟨opened, .emptyChar⟩
      else closeChar opened c ['\'', c] rest
  | [] => .error ⟨opened, .emptyChar⟩

/-- Read a number. A following `L` makes it a `long`; its value must fit its type. -/
def scanNumber (p : Pos) (cs : List Char) : Except SyntaxError Lexeme :=
  let digits := cs.takeWhile Char.isDigit
  let wide (mark : Char) (rest : List Char) : Except SyntaxError Lexeme :=
    if Text.decimalValue digits < 0x8000000000000000 then .ok ⟨.longLiteral, digits, digits ++ [mark], rest⟩
    else .error ⟨p, .longTooLarge⟩
  match cs.dropWhile Char.isDigit with
  | 'L' :: rest => wide 'L' rest
  | 'l' :: rest => wide 'l' rest
  | rest =>
      if Text.decimalValue digits < 0x80000000 then .ok ⟨.intLiteral, digits, digits, rest⟩
      else .error ⟨p, .intTooLarge⟩

/-- Read an identifier or keyword. -/
def scanWord (cs : List Char) : Lexeme :=
  let word := cs.takeWhile isWordPart
  ⟨Token.Kind.ofWord (String.ofList word), word, word, cs.dropWhile isWordPart⟩

/-- The operators of two characters. -/
def twoCharKind? : Char → Char → Option Token.Kind
  | '=', '=' => some .equal
  | '!', '=' => some .notEqual
  | '<', '=' => some .lessEqual
  | '>', '=' => some .greaterEqual
  | '&', '&' => some .andAnd
  | '|', '|' => some .orOr
  | _, _ => none

/-- The symbols of one character. -/
def oneCharKind? : Char → Option Token.Kind
  | '{' => some .openBrace
  | '}' => some .closeBrace
  | '(' => some .openParen
  | ')' => some .closeParen
  | '[' => some .openBracket
  | ']' => some .closeBracket
  | ';' => some .semicolon
  | ',' => some .comma
  | '.' => some .dot
  | '@' => some .at
  | '=' => some .assign
  | '+' => some .plus
  | '-' => some .minus
  | '*' => some .star
  | '/' => some .slash
  | '%' => some .percent
  | '!' => some .bang
  | '<' => some .less
  | '>' => some .greater
  | _ => none

/-- A symbol at the head of the text, the two-character one if there is one. -/
def scanSymbol? : List Char → Option Lexeme
  | [] => none
  | c :: rest =>
      let short := (oneCharKind? c).map fun kind => ⟨kind, [c], [c], rest⟩
      match rest with
      | [] => short
      | d :: rest' =>
          match twoCharKind? c d with
          | some kind => some ⟨kind, [c, d], [c, d], rest'⟩
          | none => short

/-- Read the lexeme that begins with `c` at `p`. -/
def scan (p : Pos) (c : Char) (rest : List Char) : Except SyntaxError Lexeme :=
  match scanSymbol? (c :: rest) with
  | some lexeme => .ok lexeme
  | none =>
      if c = '"' then scanString p [] ['"'] (p.advance '"') rest
      else if c = '\'' then scanChar p rest
      else if c.isDigit then scanNumber p (c :: rest)
      else if isWordStart c then .ok (scanWord (c :: rest))
      else .error ⟨p, .illegalCharacter c⟩

end Lexeme

/-- Read tokens until the text ends; `done` holds those already read, last first. Every
lexeme takes a character, so a text is never longer than `fuel`. -/
def Token.scanFrom : Nat → List Token → Pos → List Char → Except SyntaxError (List Token)
  | 0, done, p, _ => .ok (⟨.eof, "", p⟩ :: done).reverse
  | fuel + 1, done, p, cs => do
      match ← skipGap .between p cs with
      | (p, []) => .ok (⟨.eof, "", p⟩ :: done).reverse
      | (p, c :: rest) =>
          let lexeme ← Lexeme.scan p c rest
          let token := ⟨lexeme.kind, String.ofList lexeme.content, p⟩
          scanFrom fuel (token :: done) (p.advanceAll lexeme.chars) lexeme.rest

/-- The tokens of a text; the last one marks its end. -/
def Token.scan (text : String) : Except SyntaxError (List Token) :=
  let cs := text.toList
  Token.scanFrom (cs.length + 1) [] Pos.start cs

end ProbeLang
