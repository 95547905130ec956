import ProbeLang.Artifact.Fault
import ProbeLang.Options
import ProbeLang.Tree

/-!
# Problems

What can be wrong with a program, each with its wording. Classes in problems are given by
qualified names.
-/

namespace ProbeLang

/-- An error in a program. -/
inductive Problem
  | unparsable (fault : SyntaxFault)
  | duplicateClass (name : String)
  | memberClassTaken (simple cls : String)
  | fileLacksClass (cls : String)
  | badClassFile (unit : String) (fault : ArtifactFault)
  | wrongClassInFile (unit found : String)
  | importNotFound (simple package : String)
  | cyclicInheritance (cls : String)
  | classExpected (found : Ty)
  | fieldTaken (name cls : String)
  | methodTaken (name : String) (params : List Ty) (cls : String)
  | classNotFound (name : String)
  | incompatible (found wanted : Ty)
  | localTaken (name method : String)
  | tooManyLocals (method : String)
  | missingReturn
  | forUnsupported (level : LanguageLevel)
  | unexpectedReturnValue
  | missingReturnValue
  | referenceExpected (found : Ty)
  | notAStatement
  | variableNotFound (name : String)
  | variableNotFoundIn (name cls : String)
  | packageNotFound (name : String)
  | thisInStatic
  | variableInStatic (name : String)
  | methodInStatic (name : String) (params : List Ty)
  | constructorMismatch (simple cls : String)
  | indexNotInt (found : Ty)
  | arrayExpected (found : Ty)
  | badOperand (op : UnaryOp) (found : Ty)
  | variableExpected
  | notDereferenceable (found : Ty)
  | methodNotFound (name : String) (args : List Ty)
  | methodNotFoundIn (name : String) (args : List Ty) (cls : String)
  | methodMismatch (name cls : String)
  | incomparable (left right : Ty)
  | badOperands (op : BinaryOp) (left right : Ty)
  deriving Repr, DecidableEq

/-- Types with commas between them. -/
def joinTypes (types : List Ty) : String :=
  ",".intercalate (types.map Ty.display)

/-- A method with its parameter types. -/
def methodLabel (name : String) (params : List Ty) : String :=
  name ++ "(" ++ joinTypes params ++ ")"

/-- The spelling of a unary operator. -/
def UnaryOp.symbol : UnaryOp → String
  | .not => "!"
  | .neg => "-"

/-- The wording of a problem. -/
def Problem.message : Problem → String
  | .unparsable fault => fault.message
  | .duplicateClass name => "duplicate class: " ++ name
  | .memberClassTaken simple cls => "class " ++ simple ++ " is already defined in class " ++ cls
  | .fileLacksClass cls => "file does not contain class " ++ cls
  | .badClassFile unit fault =>
      "bad class file: " ++ unit ++ ": Malformed artifact: " ++ fault.message
  | .wrongClassInFile unit found =>
      "bad class file: " ++ unit ++ ": class file contains wrong class: " ++ found
  | .importNotFound simple package =>
      "cannot find symbol: class " ++ simple ++ " in package " ++ package
  | .cyclicInheritance cls => "cyclic inheritance involving " ++ cls
  | .classExpected found => "unexpected type: required class, found " ++ found.display
  | .fieldTaken name cls => "variable " ++ name ++ " is already defined in class " ++ cls
  | .methodTaken name params cls =>
      "method " ++ methodLabel name params ++ " is already defined in class " ++ cls
  | .classNotFound name => "cannot find symbol: class " ++ name
  | .incompatible found wanted =>
      "incompatible types: " ++ found.display ++ " cannot be converted to " ++ wanted.display
  | .localTaken name method => "variable " ++ name ++ " is already defined in method " ++ method
  | .tooManyLocals method => "too many local variables in method " ++ method
  | .missingReturn => "missing return statement"
  | .forUnsupported level =>
      "for statements are not supported in -source " ++ toString level.code
  | .unexpectedReturnValue => "incompatible types: unexpected return value"
  | .missingReturnValue => "missing return value"
  | .referenceExpected found => "unexpected type: required reference, found " ++ found.display
  | .notAStatement => "not a statement"
  | .variableNotFound name => "cannot find symbol: variable " ++ name
  | .variableNotFoundIn name cls => "cannot find symbol: variable " ++ name ++ " in class " ++ cls
  | .packageNotFound name => "package " ++ name ++ " does not exist"
  | .thisInStatic => "non-static variable this cannot be referenced from a static context"
  | .variableInStatic name =>
      "non-static variable " ++ name ++ " cannot be referenced from a static context"
  | .methodInStatic name params =>
      "non-static method " ++ methodLabel name params ++
        " cannot be referenced from a static context"
  | .constructorMismatch simple cls =>
      "constructor " ++ simple ++ " in class " ++ cls ++ " cannot be applied to given types"
  | .indexNotInt found => "incompatible types: " ++ found.display ++ " cannot be converted to int"
  | .arrayExpected found => "array required, but " ++ found.display ++ " found"
  | .badOperand op found =>
      "bad operand type " ++ found.display ++ " for unary operator '" ++ op.symbol ++ "'"
  | .variableExpected => "unexpected type: required variable, found value"
  | .notDereferenceable found => found.display ++ " cannot be dereferenced"
  | .methodNotFound name args => "cannot find symbol: method " ++ methodLabel name args
  | .methodNotFoundIn name args cls =>
      "cannot find symbol: method " ++ methodLabel name args ++ " in class " ++ cls
  | .methodMismatch name cls =>
      "method " ++ name ++ " in class " ++ cls ++ " cannot be applied to given types"
  | .incomparable left right =>
      "incomparable types: " ++ left.display ++ " and " ++ right.display
  | .badOperands op left right =>
      "bad operand types for binary operator '" ++ op.symbol ++ "': " ++ left.display ++
        " and " ++ right.display

/-- A piece of advice about a program. -/
inductive Advice
  | deprecated (simple : String) (package : Option String)
  | emptyBody (keyword : String)
  deriving Repr, DecidableEq

/-- The lint that gives a piece of advice. -/
def Advice.lint : Advice → LintCategory
  | .deprecated _ _ => .deprecation
  | .emptyBody _ => .empty

/-- The wording of a piece of advice. -/
def Advice.message : Advice → String
  | .deprecated simple package =>
      simple ++ " in " ++ package.getD "unnamed package" ++ " has been deprecated"
  | .emptyBody keyword => "empty statement after " ++ keyword

end ProbeLang
