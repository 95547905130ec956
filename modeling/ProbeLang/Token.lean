import ProbeLang.Position

/-!
# Tokens

The words of the language. Most kinds have one spelling; identifiers and literals carry
their content. The content of a string or character literal is its unescaped value, that
of a `long` literal its digits, and that of every other token the text itself.
-/

namespace ProbeLang

/-- The kinds of token. -/
inductive Token.Kind
  | kwPackage | kwImport | kwClass | kwExtends
  | kwPublic | kwPrivate | kwProtected | kwStatic | kwFinal
  | kwVoid | kwInt | kwLong | kwBoolean
  | kwIf | kwElse | kwWhile | kwFor | kwReturn | kwThrow | kwSynchronized
  | kwNew | kwThis | kwTrue | kwFalse | kwNull
  | identifier | intLiteral | longLiteral | stringLiteral | charLiteral
  | openBrace | closeBrace | openParen | closeParen | openBracket | closeBracket
  | semicolon | comma | dot | at
  | assign | plus | minus | star | slash | percent | bang
  | equal | notEqual | less | lessEqual | greater | greaterEqual | andAnd | orOr
  | eof
  deriving Repr, DecidableEq, Inhabited

/-- A token with its content and the position of its first character. -/
structure Token where
  kind : Token.Kind
  text : String
  pos : Pos
  deriving Repr, DecidableEq, Inhabited

namespace Token

/-- The reserved words. -/
def keywords : List (String × Kind) :=
  [("package", .kwPackage), ("import", .kwImport), ("class", .kwClass), ("extends", .kwExtends),
   ("public", .kwPublic), ("private", .kwPrivate), ("protected", .kwProtected),
   ("static", .kwStatic), ("final", .kwFinal), ("void", .kwVoid), ("int", .kwInt),
   ("long", .kwLong), ("boolean", .kwBoolean), ("if", .kwIf), ("else", .kwElse),
   ("while", .kwWhile), ("for", .kwFor), ("return", .kwReturn), ("throw", .kwThrow),
   ("synchronized", .kwSynchronized), ("new", .kwNew), ("this", .kwThis), ("true", .kwTrue),
   ("false", .kwFalse), ("null", .kwNull)]

/-- The brackets, separators and operators. -/
def symbols : List (String × Kind) :=
  [("\x7b", .openBrace), ("\x7d", .closeBrace), ("(", .openParen), (")", .closeParen),
   ("[", .openBracket), ("]", .closeBracket), (";", .semicolon), (",", .comma), (".", .dot),
   ("@", .at), ("=", .assign), ("+", .plus), ("-", .minus), ("*", .star), ("/", .slash),
   ("%", .percent), ("!", .bang), ("==", .equal), ("!=", .notEqual), ("<", .less),
   ("<=", .lessEqual), (">", .greater), (">=", .greaterEqual), ("&&", .andAnd), ("||", .orOr)]

/-- The kind of a word: that of the keyword it spells, else an identifier. -/
def Kind.ofWord (word : String) : Kind :=
  (keywords.lookup word).getD .identifier

/-- The one spelling of a keyword or symbol. -/
def Kind.spelling? (k : Kind) : Option String :=
  (keywords ++ symbols).findSome? fun (text, kind) => if kind = k then some text else none

/-- How a kind is called in messages. -/
def Kind.display (k : Kind) : String :=
  match k with
  | .identifier => "<identifier>"
  | .intLiteral | .longLiteral => "number"
  | .stringLiteral => "string literal"
  | .charLiteral => "character literal"
  | .eof => "end of input"
  | k => "'" ++ k.spelling?.getD "" ++ "'"

end Token

end ProbeLang
