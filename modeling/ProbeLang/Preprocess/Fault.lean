import ProbeLang.Files.Fault

/-!
# Faults of preprocessing

Every fault names the source in which it was met, and most of them its line.
-/

namespace ProbeLang

/-- What is wrong with a directive whose name is known. -/
inductive DirectiveFlaw
  | noMacroName (directive operand : String)
  | noTarget (operand : String)
  deriving Repr, DecidableEq

/-- The wording of a flaw. -/
def DirectiveFlaw.message : DirectiveFlaw → String
  | .noMacroName directive operand =>
      "#" ++ directive ++ " expects a macro name, found '" ++ operand ++ "'"
  | .noTarget operand => "expected \"file\" or <file>, found '" ++ operand ++ "'"

/-- How conditionals fail to match up. -/
inductive Imbalance
  | elseAlone
  | secondElse
  | endifAlone
  | neverClosed
  deriving Repr, DecidableEq

/-- The wording of an imbalance. -/
def Imbalance.message : Imbalance → String
  | .elseAlone => "#else without #ifdef/#ifndef"
  | .secondElse => "duplicate #else"
  | .endifAlone => "#endif without #ifdef/#ifndef"
  | .neverClosed => "conditional block is never closed with #endif"

/-- Why preprocessing failed. -/
inductive PreprocessFault
  | fileNotFound (origin name : String)
  | unknownDirective (origin : String) (line : Nat) (directive : String)
  | malformedDirective (origin : String) (line : Nat) (flaw : DirectiveFlaw)
  | unbalanced (origin : String) (line : Nat) (how : Imbalance)
  | tooDeep (origin : String) (limit : Nat)
  | io (fault : IoFault)
  deriving Repr, DecidableEq

namespace PreprocessFault

/-- The wording of a fault. -/
def message : PreprocessFault → String
  | .fileNotFound origin name => origin ++ ": file not found: " ++ name
  | .unknownDirective origin line directive =>
      origin ++ ":" ++ toString line ++ ": unknown directive '#" ++ directive ++ "'"
  | .malformedDirective origin line flaw =>
      origin ++ ":" ++ toString line ++ ": malformed directive: " ++ flaw.message
  | .unbalanced origin line how =>
      origin ++ ":" ++ toString line ++ ": unbalanced conditional: " ++ how.message
  | .tooDeep origin limit =>
      origin ++ ": include depth limit of " ++ toString limit ++ " exceeded (include cycle?)"
  | .io fault => "I/O error: " ++ fault.message

/-- The class of input and output faults that a fault counts as. -/
def kind : PreprocessFault → IoKind
  | .fileNotFound _ _ => .notFound
  | .io fault => fault.kind
  | _ => .invalidData

/-- Whether an included file was missing. -/
def isNotFound : PreprocessFault → Bool
  | .fileNotFound _ _ => true
  | _ => false

end PreprocessFault

end ProbeLang
