import ProbeLang.Files.Path
import ProbeLang.Text.Digits

/-!
# Options

The settings of a task: which lints report, whether line tables are written, the language
level of the source and of the artifacts, and where further classes are looked for. Options
are given as a list, of which later entries override earlier ones; a target that is older
than the source is refused.
-/

namespace ProbeLang

/-- The levels of the language. -/
inductive LanguageLevel
  | v1
  | v2
  deriving Repr, DecidableEq, Inhabited

namespace LanguageLevel

/-- The number of a level. -/
def code : LanguageLevel → Nat
  | .v1 => 1
  | .v2 => 2

/-- The level of a number. -/
def ofCode? : Nat → Option LanguageLevel
  | 1 => some .v1
  | 2 => some .v2
  | _ => none

/-- The newest level. -/
def latest : LanguageLevel := .v2

end LanguageLevel

/-- The kinds of advice that may be turned on. -/
inductive LintCategory
  | deprecation
  | empty
  deriving Repr, DecidableEq

namespace LintCategory

/-- The name of a category. -/
def name : LintCategory → String
  | .deprecation => "deprecation"
  | .empty => "empty"

/-- Every category, in order. -/
def all : List LintCategory := [.deprecation, .empty]

end LintCategory

/-- Whether artifacts tell the lines of their code. -/
inductive DebugInfo
  | none
  | lines
  deriving Repr, DecidableEq

/-- One option. -/
inductive FrontendOption
  | lint (categories : List LintCategory)
  | debug (info : DebugInfo)
  | deprecation
  | source (level : LanguageLevel)
  | target (level : LanguageLevel)
  | sourcePath (joined : String)
  | classPath (joined : String)
  deriving Repr, DecidableEq

/-- Why options are refused. -/
inductive OptionFault
  | targetOlderThanSource (target source : LanguageLevel)
  | unknownLevel (text : String)
  deriving Repr, DecidableEq

/-- The wording of a refusal. -/
def OptionFault.message : OptionFault → String
  | .targetOlderThanSource target source =>
      "target level " ++ toString target.code ++ " is older than source level " ++
        toString source.code
  | .unknownLevel text => "unknown language level '" ++ text ++ "'"

/-- Read a level: a decimal number with blanks around it and perhaps a plus sign before it. -/
def LanguageLevel.parse (text : String) : Except OptionFault LanguageLevel :=
  let digits :=
    match Text.trimBlanks text.toList with
    | '+' :: rest => rest
    | cs => cs
  let isNumber := !digits.isEmpty && digits.all Char.isDigit
  match if isNumber then ofCode? (Text.decimalValue digits) else none with
  | some level => .ok level
  | none => .error (.unknownLevel text)

/-- The settings of a task. -/
structure Options where
  lints : List LintCategory := []
  debug : DebugInfo := .none
  source : LanguageLevel := .latest
  target : LanguageLevel := .latest
  sourcePath : Option (List String) := none
  classPath : Option (List String) := none
  deriving Repr, DecidableEq

namespace Options

/-- Whether a lint reports. -/
def lintEnabled (o : Options) (category : LintCategory) : Bool :=
  o.lints.contains category

/-- The directories in a list with colons between; empty ones are dropped. -/
def splitDirs (joined : String) : List String :=
  (FilePath.splitOnChar ':' joined).filter fun dir => !dir.isEmpty

/-- Turn lints on. -/
def withLints (o : Options) (categories : List LintCategory) : Options :=
  { o with lints := LintCategory.all.filter fun c => o.lints.contains c || categories.contains c }

/-- Apply one option. -/
def apply (o : Options) : FrontendOption → Options
  | .lint categories => o.withLints categories
  | .debug info => { o with debug := info }
  | .deprecation => o.withLints [.deprecation]
  | .source level => { o with source := level }
  | .target level => { o with target := level }
  | .sourcePath joined => { o with sourcePath := some (splitDirs joined) }
  | .classPath joined => { o with classPath := some (splitDirs joined) }

/-- The settings that a list of options stands for. -/
def ofList (options : List FrontendOption) : Except OptionFault Options :=
  let o := options.foldl apply {}
  if o.target.code < o.source.code then .error (.targetOlderThanSource o.target o.source)
  else .ok o

/-- The options that the compiler always gives: all lints, line tables and the newest level. -/
def fixed : List FrontendOption :=
  [.lint LintCategory.all, .debug .lines, .deprecation, .source .latest, .target .latest]

end Options

end ProbeLang
