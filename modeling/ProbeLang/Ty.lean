/-!
# Types and descriptors

A type is a primitive, a class by binary name, an array, or one of two answers of the
analysis: the type of `null` and the unknown type of an expression that is already at fault.
A descriptor writes a type as a code word: one letter for a primitive, `L` and the name up to
a semicolon for a class, `[` in front of the element for an array. No code word is the
beginning of another, so a list of them can be read back without separators.
-/

namespace ProbeLang

/-- A semantic type. -/
inductive Ty
  | void
  | int
  | long
  | boolean
  | char
  | null
  | cls (name : String)
  | array (elem : Ty)
  | unknown
  deriving Repr, DecidableEq, Inhabited

/-- The package of the built-in classes. -/
def langPackage : String := "probe.lang"

/-- The root of the class hierarchy. -/
def objectName : String := "probe.lang.Object"

/-- The class of string literals. -/
def stringName : String := "probe.lang.String"

/-- The class of what may be thrown. -/
def errorName : String := "probe.lang.Error"

/-- Replace every occurrence of a character. -/
def replaceChar (old new : Char) (s : String) : String :=
  String.ofList (s.toList.map fun c => if c = old then new else c)

/-- The qualified name of a class: nesting is written with a dot instead of a dollar sign. -/
def qualifiedName (binary : String) : String :=
  replaceChar '$' '.' binary

namespace Ty

/-- The root class as a type. -/
def object : Ty := .cls objectName

/-- The type of string literals. -/
def string : Ty := .cls stringName

/-- Whether values of the type are references. -/
def isReference : Ty → Bool
  | .cls _ | .array _ | .null => true
  | _ => false

/-- Whether the type takes part in arithmetic. -/
def isNumeric : Ty → Bool
  | .int | .long | .char => true
  | _ => false

/-- Whether the type is the built-in string class. -/
def isString : Ty → Bool
  | .cls name => name == stringName
  | _ => false

/-- How a type is written in messages. -/
def display : Ty → String
  | .void => "void"
  | .int => "int"
  | .long => "long"
  | .boolean => "boolean"
  | .char => "char"
  | .null => "<null>"
  | .cls name => qualifiedName name
  | .array elem => elem.display ++ "[]"
  | .unknown => "<any>"

/-- The code word of a class. -/
def classDescriptor (name : String) : String :=
  "L" ++ replaceChar '.' '/' name ++ ";"

/-- The code word of a type. The two answers of the analysis are written as the root class. -/
def descriptor : Ty → String
  | .void => "V"
  | .int => "I"
  | .long => "J"
  | .boolean => "Z"
  | .char => "C"
  | .cls name => classDescriptor name
  | .array elem => "[" ++ elem.descriptor
  | .null | .unknown => classDescriptor objectName

/-- Read one code word from the front of a text. -/
def readDescriptor : List Char → Option (Ty × List Char)
  | 'V' :: rest => some (.void, rest)
  | 'I' :: rest => some (.int, rest)
  | 'J' :: rest => some (.long, rest)
  | 'Z' :: rest => some (.boolean, rest)
  | 'C' :: rest => some (.char, rest)
  | 'L' :: rest =>
      match rest.takeWhile (· ≠ ';'), rest.dropWhile (· ≠ ';') with
      | _, [] => none
      | [], _ => none
      | name, _ :: rest => some (.cls (replaceChar '/' '.' (String.ofList name)), rest)
  | '[' :: rest => (readDescriptor rest).map fun (elem, rest) => (.array elem, rest)
  | _ => none

end Ty

/-- The code word of a signature: the parameters in parentheses, then the result. -/
def methodDescriptor (params : List Ty) (ret : Ty) : String :=
  "(" ++ String.join (params.map Ty.descriptor) ++ ")" ++ ret.descriptor

/-- Read parameter code words up to the closing parenthesis. Every one takes a character, so
a text is never longer than `fuel`. -/
def readParamDescriptors : Nat → List Ty → List Char → Option (List Ty × List Char)
  | _, params, ')' :: rest => some (params.reverse, rest)
  | 0, _, _ => none
  | fuel + 1, params, cs => do
      let (ty, rest) ← Ty.readDescriptor cs
      readParamDescriptors fuel (ty :: params) rest

/-- Read a signature that takes up a whole text. -/
def readMethodDescriptor (text : String) : Option (List Ty × Ty) :=
  match text.toList with
  | '(' :: cs => do
      let (params, rest) ← readParamDescriptors cs.length [] cs
      let (ret, rest) ← Ty.readDescriptor rest
      if rest.isEmpty then some (params, ret) else none
  | _ => none

end ProbeLang
