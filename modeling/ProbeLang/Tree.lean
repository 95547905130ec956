import ProbeLang.Position
import ProbeLang.Ty

/-!
# Syntax trees

A source unit is a package clause, imports and class declarations. Expressions carry a note
that the analysis fills in: the type of the expression, and what its name refers to. A tree
straight from the parser has only positions in its notes; nothing else about a tree changes
when it is analysed, except that local variables are given their slots.
-/

namespace ProbeLang

/-- A name and where it stands. -/
structure Ident where
  name : String
  pos : Pos
  deriving Repr, DecidableEq, Inhabited

/-- A dotted name, placed at its first segment. -/
structure Path where
  segments : List String
  pos : Pos
  deriving Repr, DecidableEq, Inhabited

/-- The name as written, with dots. -/
def Path.text (p : Path) : String :=
  ".".intercalate p.segments

/-- The last segment. -/
def Path.last (p : Path) : String :=
  p.segments.getLast?.getD ""

/-- The name of a type without its array brackets. -/
inductive TypeName
  | void
  | int
  | long
  | boolean
  | named (path : Path)
  deriving Repr, DecidableEq, Inhabited

/-- A type as written, with the number of bracket pairs behind its name. -/
structure TypeRef where
  base : TypeName
  dims : Nat
  pos : Pos
  deriving Repr, DecidableEq, Inhabited

/-- A type name as written. -/
def TypeName.text : TypeName → String
  | .void => "void"
  | .int => "int"
  | .long => "long"
  | .boolean => "boolean"
  | .named path => path.text

/-- A type as written. -/
def TypeRef.text (t : TypeRef) : String :=
  t.base.text ++ String.join (List.replicate t.dims "[]")

/-- A constant in the source. -/
inductive Literal
  | int (n : Nat)
  | long (n : Nat)
  | bool (b : Bool)
  | char (c : Char)
  | string (s : String)
  | null
  deriving Repr, DecidableEq, Inhabited

/-- The operators of one operand. -/
inductive UnaryOp
  | not
  | neg
  deriving Repr, DecidableEq

/-- The operators of two operands. -/
inductive BinaryOp
  | add | sub | mul | div | rem
  | eq | ne | lt | le | gt | ge
  | and | or
  deriving Repr, DecidableEq

/-- The spelling of a binary operator. -/
def BinaryOp.symbol : BinaryOp → String
  | .add => "+"
  | .sub => "-"
  | .mul => "*"
  | .div => "/"
  | .rem => "%"
  | .eq => "=="
  | .ne => "!="
  | .lt => "<"
  | .le => "<="
  | .gt => ">"
  | .ge => ">="
  | .and => "&&"
  | .or => "||"

/-- How tightly a binary operator binds, from one upwards. -/
def BinaryOp.level : BinaryOp → Nat
  | .or => 1
  | .and => 2
  | .eq | .ne => 3
  | .lt | .le | .gt | .ge => 4
  | .add | .sub => 5
  | .mul | .div | .rem => 6

/-- What the name in an expression refers to. Members are given by the binary name of the
class that declares them. -/
inductive Referent
  | localVar (slot : Nat)
  | field (owner : String) (isStatic : Bool) (descriptor : String)
  | method (owner : String) (isStatic : Bool) (descriptor : String)
  | type (name : String)
  | cls (name : String)
  deriving Repr, DecidableEq

/-- The position of an expression and what the analysis found out about it. -/
structure Note where
  pos : Pos
  ty : Option Ty := none
  refers : Option Referent := none
  deriving Repr, DecidableEq, Inhabited

/-- Expressions. A call without a receiver is `call`, one with a receiver is `invoke`. -/
inductive Expr
  | literal (note : Note) (value : Literal)
  | name (note : Note) (name : String)
  | this (note : Note)
  | field (note : Note) (target : Expr) (name : Ident)
  | call (note : Note) (name : Ident) (args : List Expr)
  | invoke (note : Note) (target : Expr) (name : Ident) (args : List Expr)
  | new (note : Note) (type : TypeRef) (args : List Expr)
  | newArray (note : Note) (elem : TypeRef) (length : Expr)
  | index (note : Note) (target : Expr) (at_ : Expr)
  | unary (note : Note) (op : UnaryOp) (operand : Expr)
  | binary (note : Note) (op : BinaryOp) (lhs rhs : Expr)
  | assign (note : Note) (target value : Expr)
  deriving Inhabited

/-- The note of an expression. -/
def Expr.note : Expr → Note
  | .literal note _ | .name note _ | .this note | .field note _ _ | .call note _ _
  | .invoke note _ _ _ | .new note _ _ | .newArray note _ _ | .index note _ _
  | .unary note _ _ | .binary note _ _ _ | .assign note _ _ => note

/-- Where an expression begins. -/
def Expr.pos (e : Expr) : Pos := e.note.pos

/-- The type that the analysis gave to an expression. -/
def Expr.ty? (e : Expr) : Option Ty := e.note.ty

/-- The declaration of a local variable; the analysis assigns the slot. -/
structure LocalVar where
  pos : Pos
  type : TypeRef
  name : Ident
  init : Option Expr
  slot : Option Nat := none

/-- What stands before the first semicolon of a `for` header. -/
inductive ForInit
  | none
  | declare (decl : LocalVar)
  | expr (pos : Pos) (value : Expr)

/-- Statements. A block begins where its brace stands; the block of a `synchronized`
statement has a place of its own. -/
inductive Stmt
  | block (pos : Pos) (body : List Stmt)
  | declare (decl : LocalVar)
  | ifThen (pos : Pos) (cond : Expr) (thenBranch : Stmt)
  | ifElse (pos : Pos) (cond : Expr) (thenBranch elseBranch : Stmt)
  | whileLoop (pos : Pos) (cond : Expr) (body : Stmt)
  | forLoop (pos : Pos) (init : ForInit) (cond update : Option Expr) (body : Stmt)
  | ret (pos : Pos) (value : Option Expr)
  | throw (pos : Pos) (value : Expr)
  | synchronized (pos : Pos) (lock : Expr) (bodyPos : Pos) (body : List Stmt)
  | expr (pos : Pos) (value : Expr)
  | empty (pos : Pos)

/-- Where a statement begins. -/
def Stmt.pos : Stmt → Pos
  | .block pos _ | .ifThen pos _ _ | .ifElse pos _ _ _ | .whileLoop pos _ _
  | .forLoop pos _ _ _ _ | .ret pos _ | .throw pos _ | .synchronized pos _ _ _
  | .expr pos _ | .empty pos => pos
  | .declare decl => decl.pos

/-- A block of statements and the place of its opening brace. -/
structure Block where
  pos : Pos
  body : List Stmt

/-- The modifier words. -/
inductive Modifier
  | isPublic
  | isPrivate
  | isProtected
  | isStatic
  | isFinal
  deriving Repr, DecidableEq

/-- An argument of an annotation: `name = value`, or a value alone. -/
inductive AnnotationArg
  | named (name : Ident) (value : Expr)
  | value (value : Expr)

/-- An annotation, placed at its sign. -/
structure Annotation where
  name : Path
  args : List AnnotationArg
  pos : Pos

/-- What stands before a declaration. No modifier word stands twice. -/
structure Modifiers where
  annotations : List Annotation := []
  flags : List Modifier := []

/-- Whether a modifier word is present. -/
def Modifiers.has (m : Modifiers) (flag : Modifier) : Bool :=
  m.flags.contains flag

/-- The first annotation whose last segment, or whose whole name, is the given one. -/
def Modifiers.annotation? (m : Modifiers) (name : String) : Option Annotation :=
  m.annotations.find? fun a => a.name.last == name || a.name.text == name

/-- A field, placed at its type. -/
structure FieldDecl where
  modifiers : Modifiers
  type : TypeRef
  name : Ident
  init : Option Expr
  pos : Pos

/-- A formal parameter. -/
structure Param where
  type : TypeRef
  name : Ident

/-- A method, placed at its result type. -/
structure MethodDecl where
  modifiers : Modifiers
  ret : TypeRef
  name : Ident
  params : List Param
  body : Block
  pos : Pos

mutual

/-- A class, placed at the word `class`. -/
structure ClassDecl where
  name : Ident
  modifiers : Modifiers
  superclass : Option TypeRef
  members : List Member
  pos : Pos

/-- A member of a class. -/
inductive Member
  | field (decl : FieldDecl)
  | method (decl : MethodDecl)
  | type (decl : ClassDecl)

end

namespace ClassDecl

/-- The member classes, in order. -/
def nested (c : ClassDecl) : List ClassDecl :=
  c.members.filterMap fun
    | .type decl => some decl
    | _ => none

/-- The fields, in order. -/
def fields (c : ClassDecl) : List FieldDecl :=
  c.members.filterMap fun
    | .field decl => some decl
    | _ => none

/-- The methods, in order. -/
def methods (c : ClassDecl) : List MethodDecl :=
  c.members.filterMap fun
    | .method decl => some decl
    | _ => none

end ClassDecl

/-- An import of one type, or of all types of a package. -/
structure Import where
  path : Path
  wildcard : Bool
  deriving Repr, DecidableEq

/-- A parsed source unit. -/
structure UnitTree where
  source : String
  package : Option Path
  imports : List Import
  types : List ClassDecl

/-- The name of the package, if the unit has a package clause. -/
def UnitTree.packageName? (u : UnitTree) : Option String :=
  u.package.map Path.text

/-- The binary name of a top-level class. -/
def UnitTree.binaryName (u : UnitTree) (decl : ClassDecl) : String :=
  match u.packageName? with
  | some package => package ++ "." ++ decl.name.name
  | none => decl.name.name

mutual

/-- The binary names of a class and of the classes in it, given that of the class. -/
def ClassDecl.binaryNames (binary : String) (c : ClassDecl) : List String :=
  match c with
  | ⟨_, _, _, members, _⟩ => binary :: Member.binaryNames binary members
termination_by structural c

/-- The binary names of the classes among members of a class. -/
def Member.binaryNames (binary : String) (members : List Member) : List String :=
  match members with
  | [] => []
  | .field _ :: rest => Member.binaryNames binary rest
  | .method _ :: rest => Member.binaryNames binary rest
  | .type decl :: rest =>
      decl.binaryNames (binary ++ "$" ++ decl.name.name) ++ Member.binaryNames binary rest
termination_by structural members

end

/-- The binary names of all classes of a unit. -/
def UnitTree.binaryNames (u : UnitTree) : List String :=
  u.types.flatMap fun decl => decl.binaryNames (u.binaryName decl)

/-- The class that member numbers lead to. -/
def ClassDecl.at? : ClassDecl → List Nat → Option ClassDecl
  | c, [] => some c
  | c, i :: rest =>
      match c.members[i]? with
      | some (.type decl) => decl.at? rest
      | _ => none

/-- The class that the number of a top-level class and member numbers lead to. -/
def UnitTree.at? (u : UnitTree) : List Nat → Option ClassDecl
  | [] => none
  | i :: rest => u.types[i]?.bind fun decl => decl.at? rest

end ProbeLang
