import ProbeLang.Analysis.Names

/-!
# Analysis of expressions

The analysis of an expression answers what the expression stands for and the same expression
with notes: every value has its type, and every name that means something refers to it. A
dotted name is analysed from the left, and may stand for a value, for a class, or for a
package as long as nothing else is known of it.

An expression that is at fault is reported once and has the unknown type, with which
everything agrees.
-/

namespace ProbeLang

/-- What an expression stands for. -/
inductive Operand
  | value (ty : Ty)
  /-- A class, by binary name. -/
  | type (name : String)
  /-- Names that lead to no variable and no class so far. -/
  | package (segments : List String)
  deriving Repr, DecidableEq

/-- A local variable that is in scope. -/
structure LocalSlot where
  name : String
  ty : Ty
  slot : Nat
  deriving Repr, DecidableEq

/-- Where an expression or a statement stands. -/
structure BodyScope (σ : Type) where
  names : NameScope σ
  isStatic : Bool
  /-- The local variables, last first. -/
  locals : List LocalSlot
  /-- The result type of the method. -/
  ret : Ty := .void
  /-- The method with its parameter types. -/
  label : String := ""

/-- The type of a constant. -/
def Literal.ty : Literal → Ty
  | .int _ => .int
  | .long _ => .long
  | .bool _ => .boolean
  | .char _ => .char
  | .string _ => .string
  | .null => .null

namespace Expr

/-- Change the note of an expression. -/
def mapNote (f : Note → Note) : Expr → Expr
  | .literal n v => .literal (f n) v
  | .name n s => .name (f n) s
  | .this n => .this (f n)
  | .field n target member => .field (f n) target member
  | .call n method args => .call (f n) method args
  | .invoke n target method args => .invoke (f n) target method args
  | .new n ty args => .new (f n) ty args
  | .newArray n ty len => .newArray (f n) ty len
  | .index n target i => .index (f n) target i
  | .unary n op e => .unary (f n) op e
  | .binary n op l r => .binary (f n) op l r
  | .assign n target v => .assign (f n) target v

/-- The expression with its type. -/
def withTy (ty : Ty) (e : Expr) : Expr :=
  e.mapNote fun n => { n with ty := some ty }

/-- Whether an analysed expression is a variable. -/
def isVariable : Expr → Bool
  | .index .. => true
  | e =>
      match e.note.refers with
      | some (.localVar _) | some (.field ..) => true
      | _ => false

end Expr

namespace BodyScope

variable {σ : Type}

/-- Report a problem. -/
def problem (cx : BodyScope σ) (pos : Pos) (p : Problem) : SessionM σ Unit :=
  cx.names.problem pos p

/-- Report that names lead nowhere. -/
def packageProblem (cx : BodyScope σ) (pos : Pos) : List String → SessionM σ Unit
  | [single] => cx.problem pos (.variableNotFound single)
  | segments => cx.problem pos (.packageNotFound (".".intercalate segments.dropLast))

/-- Use an operand as a value. -/
def settle (cx : BodyScope σ) : Operand × Expr → SessionM σ (Ty × Expr)
  | (.value ty, e) => return (ty, e.withTy ty)
  | (.type cls, e) => do
      cx.problem e.pos (.variableNotFound (lastName (qualifiedName cls)))
      return (.unknown, e.withTy .unknown)
  | (.package segments, e) => do
      cx.packageProblem e.pos segments
      return (.unknown, e.withTy .unknown)

/-! ## Names and fields -/

/-- A field as a referent. -/
def fieldReferent (owner : String) (f : FieldSig) : Referent :=
  .field owner f.isStatic f.ty.descriptor

/-- The field of a name in a class or its superclasses. -/
def findField (cx : BodyScope σ) (cls name : String) : SessionM σ (Option (String × FieldSig)) := do
  let _ ← cx.names.chain cls
  return SymbolTable.findField (← get).symbols cls name

/-- The field of a name in the first of some enclosing classes that has one. The fields of an
instance are out of reach in static code and from nested classes. -/
def enclosingField (cx : BodyScope σ) (pos : Pos) (name : String) (static : Bool) :
    List String → SessionM σ (Option (String × FieldSig))
  | [] => return none
  | cls :: outer => do
      match ← cx.findField cls name with
      | some (owner, f) =>
          if !f.isStatic && static then
            cx.problem pos (.variableInStatic name)
          return some (owner, f)
      | none => enclosingField cx pos name true outer

/-- What a simple name stands for, and what it refers to. -/
def nameOperand (cx : BodyScope σ) (pos : Pos) (name : String) :
    SessionM σ (Operand × Option Referent) := do
  match cx.locals.find? fun l => l.name == name with
  | some l => return (.value l.ty, some (.localVar l.slot))
  | none =>
      match ← cx.enclosingField pos name cx.isStatic cx.names.classes with
      | some (owner, f) => return (.value f.ty, some (fieldReferent owner f))
      | none =>
          match ← cx.names.resolveSimple name with
          | some cls =>
              cx.names.checkDeprecated cls pos
              return (.type cls, some (.type cls))
          | none => return (.package [name], none)

/-- What a name behind a dot stands for, and what it refers to. -/
def memberOperand (cx : BodyScope σ) (targetPos : Pos) (name : Ident) :
    Operand → SessionM σ (Operand × Option Referent)
  | .value (.cls cls) => do
      match ← cx.findField cls name.name with
      | some (owner, f) => return (.value f.ty, some (fieldReferent owner f))
      | none =>
          cx.problem name.pos (.variableNotFoundIn name.name (qualifiedName cls))
          return (.value .unknown, none)
  | .value .unknown => return (.value .unknown, none)
  | .value ty => do
      match ty, name.name with
      | .array _, "length" => return (.value .int, none)
      | _, _ =>
          cx.problem targetPos (.notDereferenceable ty)
          return (.value .unknown, none)
  | .type cls => do
      match ← cx.findField cls name.name with
      | some (owner, f) =>
          if !f.isStatic then
            cx.problem name.pos (.variableInStatic name.name)
          return (.value f.ty, some (fieldReferent owner f))
      | none =>
          match ← cx.names.memberType cls name.name with
          | some nested =>
              cx.names.checkDeprecated nested name.pos
              return (.type nested, some (.type nested))
          | none =>
              cx.problem name.pos (.variableNotFoundIn name.name (qualifiedName cls))
              return (.value .unknown, none)
  | .package segments => do
      let segments := segments ++ [name.name]
      let cls := ".".intercalate segments
      if ← SessionM.findClass cls then
        cx.names.checkDeprecated cls name.pos
        return (.type cls, some (.type cls))
      else return (.package segments, none)

/-! ## Calls -/

/-- Whether arguments may stand for parameters, one for one. -/
def applicable (cx : BodyScope σ) : List Ty → List Ty → SessionM σ Bool
  | [], [] => return true
  | a :: args, p :: params => do
      if ← cx.names.assignable a p then applicable cx args params else return false
  | _, _ => return false

/-- The first candidate that takes the arguments. -/
def select (cx : BodyScope σ) (args : List Ty) (candidates : List (String × MethodSig)) :
    SessionM σ (Option (String × MethodSig)) :=
  candidates.findSomeM? fun (owner, m) => do
    if m.params.length == args.length then
      if ← cx.applicable args m.params then return some (owner, m) else return none
    else return none

/-- The methods of a name in a class and its superclasses. -/
def findMethods (cx : BodyScope σ) (cls name : String) :
    SessionM σ (List (String × MethodSig)) := do
  let _ ← cx.names.chain cls
  return SymbolTable.findMethods (← get).symbols cls name

/-- Call a method of a class: the type of the result, and the method. `static` tells that
there is no instance to call it on. -/
def callOn (cx : BodyScope σ) (name : Ident) (args : List Ty) (cls : String) (static : Bool) :
    SessionM σ (Ty × Option Referent) := do
  let candidates ← cx.findMethods cls name.name
  if candidates.isEmpty then
    cx.problem name.pos (.methodNotFoundIn name.name args (qualifiedName cls))
    return (.unknown, none)
  else
    match ← cx.select args candidates with
    | none =>
        cx.problem name.pos (.methodMismatch name.name (qualifiedName cls))
        return (.unknown, none)
    | some (owner, m) =>
        if !m.isStatic && static then
          cx.problem name.pos (.methodInStatic name.name m.params)
        return (m.ret, some (.method owner m.isStatic m.descriptor))

/-- Call a method of the first of some enclosing classes that has one of the name. -/
def callEnclosing (cx : BodyScope σ) (name : Ident) (args : List Ty) (static : Bool) :
    List String → SessionM σ (Ty × Option Referent)
  | [] => do
      cx.problem name.pos (.methodNotFound name.name args)
      return (.unknown, none)
  | cls :: outer => do
      if (← cx.findMethods cls name.name).isEmpty then callEnclosing cx name args true outer
      else cx.callOn name args cls static

/-- Call a method on an operand. -/
def callOperand (cx : BodyScope σ) (name : Ident) (args : List Ty) :
    Operand × Expr → SessionM σ (Ty × Option Referent × Expr)
  | (.value ty, target) => do
      let target := target.withTy ty
      match ty with
      | .cls cls =>
          let (ret, m) ← cx.callOn name args cls false
          return (ret, m, target)
      | .unknown => return (.unknown, none, target)
      | _ =>
          cx.problem target.pos (.notDereferenceable ty)
          return (.unknown, none, target)
  | (.type cls, target) => do
      let (ret, m) ← cx.callOn name args cls true
      return (ret, m, target)
  | (.package segments, target) => do
      cx.packageProblem target.pos segments
      return (.unknown, none, target)

/-! ## Operators -/

/-- The type of a unary operation on a known type, if it fits. -/
def unaryTy : UnaryOp → Ty → Option Ty
  | .not, .boolean => some .boolean
  | .neg, .long => some .long
  | .neg, .int | .neg, .char => some .int
  | _, _ => none

/-- The type of a unary operation. -/
def unary (cx : BodyScope σ) (pos : Pos) (op : UnaryOp) (ty : Ty) : SessionM σ Ty := do
  match ty, unaryTy op ty with
  | .unknown, _ => return .unknown
  | _, some result => return result
  | _, none =>
      cx.problem pos (.badOperand op ty)
      return .unknown

/-- The type of an operation with an operand that is at fault. -/
def unsureTy : BinaryOp → Ty → Ty → Ty
  | .add, left, right => if left.isString || right.isString then .string else .unknown
  | .sub, _, _ | .mul, _, _ | .div, _, _ | .rem, _, _ => .unknown
  | _, _, _ => .boolean

/-- The type of arithmetic, if the operands are numbers. -/
def arithmeticTy (left right : Ty) : Option Ty :=
  if left.isNumeric && right.isNumeric then
    some (if left = .long || right = .long then .long else .int)
  else none

/-- The type of an operation on known types other than a test for equality, if they fit. -/
def binaryTy (op : BinaryOp) (left right : Ty) : Option Ty :=
  match op with
  | .add =>
      if (left.isString || right.isString) && left ≠ .void && right ≠ .void then some .string
      else arithmeticTy left right
  | .sub | .mul | .div | .rem => arithmeticTy left right
  | .lt | .le | .gt | .ge => (arithmeticTy left right).map fun _ => .boolean
  | .and | .or => if left = .boolean && right = .boolean then some .boolean else none
  | .eq | .ne => some .boolean

/-- Whether values of known types can be tested for equality. -/
def comparable (cx : BodyScope σ) (left right : Ty) : SessionM σ Bool := do
  if left.isNumeric && right.isNumeric || left = .boolean && right = .boolean then return true
  else if left.isReference && right.isReference then
    if ← cx.names.assignable left right then return true else cx.names.assignable right left
  else return false

/-- The type of a binary operation. -/
def binary (cx : BodyScope σ) (pos : Pos) (op : BinaryOp) (left right : Ty) :
    SessionM σ Ty := do
  if left = .unknown || right = .unknown then return unsureTy op left right
  else
    if op = .eq || op = .ne then
      if !(← cx.comparable left right) then
        cx.problem pos (.incomparable left right)
    match binaryTy op left right with
    | some ty => return ty
    | none =>
        cx.problem pos (.badOperands op left right)
        return .unknown

/-- Report an index or a length that is no `int`. -/
def requireIndex (cx : BodyScope σ) (pos : Pos) (ty : Ty) : SessionM σ Unit :=
  match ty with
  | .int | .char | .unknown => return ()
  | _ => cx.problem pos (.indexNotInt ty)

/-- The type of an element of an array. -/
def elementTy (cx : BodyScope σ) (pos : Pos) (ty : Ty) : SessionM σ Ty :=
  match ty with
  | .array elem => return elem
  | .unknown => return .unknown
  | _ => do
      cx.problem pos (.arrayExpected ty)
      return .unknown

/-- Create an object; constructors take no arguments. -/
def create (cx : BodyScope σ) (pos : Pos) (type : TypeRef) (args : List Ty) :
    SessionM σ (Ty × Option Referent) := do
  match ← cx.names.resolveType type with
  | .cls cls =>
      if !args.isEmpty then
        let simple := (((← get).symbols.find? cls).map ClassSymbol.simple).getD ""
        cx.problem pos (.constructorMismatch simple (qualifiedName cls))
      return (.cls cls, some (.cls cls))
  | _ => return (.unknown, none)

/-- The type of `this`. -/
def thisTy (cx : BodyScope σ) (pos : Pos) : SessionM σ Ty := do
  if cx.isStatic then
    cx.problem pos .thisInStatic
  return .cls (cx.names.classes.head?.getD objectName)

/-! ## Expressions -/

mutual

/-- Analyse an expression. -/
def operand (cx : BodyScope σ) : Expr → SessionM σ (Operand × Expr)
  | .literal n v => return (.value v.ty, .literal n v)
  | .name n name => do
      let (o, refers) ← cx.nameOperand n.pos name
      return (o, .name { n with refers } name)
  | .this n => return (.value (← cx.thisTy n.pos), .this n)
  | .field n target name => do
      let (o, target) ← operand cx target
      let target :=
        match o with
        | .value ty => target.withTy ty
        | _ => target
      let (o, refers) ← cx.memberOperand target.pos name o
      return (o, .field { n with refers } target name)
  | .call n name args => do
      let (types, args) ← values cx args
      let (ty, refers) ← cx.callEnclosing name types cx.isStatic cx.names.classes
      return (.value ty, .call { n with refers } name args)
  | .invoke n target name args => do
      let (types, args) ← values cx args
      let (ty, refers, target) ← cx.callOperand name types (← operand cx target)
      return (.value ty, .invoke { n with refers } target name args)
  | .new n type args => do
      let (types, args) ← values cx args
      let (ty, refers) ← cx.create n.pos type types
      return (.value ty, .new { n with refers } type args)
  | .newArray n elem length => do
      let (lengthTy, length) ← cx.settle (← operand cx length)
      cx.requireIndex length.pos lengthTy
      match ← cx.names.resolveType elem with
      | .unknown => return (.value .unknown, .newArray n elem length)
      | ty => return (.value (.array ty), .newArray n elem length)
  | .index n target i => do
      let (targetTy, target) ← cx.settle (← operand cx target)
      let (indexTy, i) ← cx.settle (← operand cx i)
      cx.requireIndex i.pos indexTy
      return (.value (← cx.elementTy target.pos targetTy), .index n target i)
  | .unary n op e => do
      let (ty, e) ← cx.settle (← operand cx e)
      return (.value (← cx.unary n.pos op ty), .unary n op e)
  | .binary n op lhs rhs => do
      let (left, lhs) ← cx.settle (← operand cx lhs)
      let (right, rhs) ← cx.settle (← operand cx rhs)
      return (.value (← cx.binary n.pos op left right), .binary n op lhs rhs)
  | .assign n target value => do
      let (targetTy, target) ← cx.settle (← operand cx target)
      if !target.isVariable && targetTy ≠ .unknown then
        cx.problem target.pos .variableExpected
      let (valueTy, value) ← cx.settle (← operand cx value)
      cx.names.requireAssignable value.pos valueTy targetTy
      return (.value targetTy, .assign n target value)

/-- Analyse expressions as values, from left to right. -/
def values (cx : BodyScope σ) : List Expr → SessionM σ (List Ty × List Expr)
  | [] => return ([], [])
  | e :: rest => do
      let (ty, e) ← cx.settle (← operand cx e)
      let (types, rest) ← values cx rest
      return (ty :: types, e :: rest)

end

/-- Analyse an expression as a value. -/
def value (cx : BodyScope σ) (e : Expr) : SessionM σ (Ty × Expr) := do
  cx.settle (← cx.operand e)

end BodyScope

end ProbeLang
