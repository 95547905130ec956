import ProbeLang.Proofs.Token.Spelling
import ProbeLang.Tree

/-!
# Printing trees

A tree is printed as tokens (`UnitTree.print`), and written with a space between any two of them
(`UnitTree.render`). Operands stand in parentheses, and so do the targets of accesses, calls and
indices. How the value of an annotation argument is printed is left open: as it is (`Expr.print`),
or in parentheses if it is an assignment (`Expr.printValue`).

Two trees that differ in their positions alone are the same without them (`UnitTree.placeless`).
-/

namespace ProbeLang

namespace Bare

/-- Tokens in parentheses. -/
def enclosed (ws : List Bare) : List Bare :=
  sign .openParen :: (ws ++ [sign .closeParen])

/-- Tokens in braces. -/
def braced (ws : List Bare) : List Bare :=
  sign .openBrace :: (ws ++ [sign .closeBrace])

/-- Items with commas between them, and the parenthesis that closes their list. -/
def listed : List (List Bare) → List Bare
  | [] => [sign .closeParen]
  | [item] => item ++ [sign .closeParen]
  | item :: items => item ++ sign .comma :: listed items

end Bare

open Bare

/-! ## Names, types and constants -/

/-- A dotted name as tokens. -/
def Path.print (p : Path) : List Bare :=
  .ident (p.segments.headD "") :: p.segments.tail.flatMap fun s => [sign .dot, .ident s]

/-- The name of a type as tokens. -/
def TypeName.print : TypeName → List Bare
  | .void => [sign .kwVoid]
  | .int => [sign .kwInt]
  | .long => [sign .kwLong]
  | .boolean => [sign .kwBoolean]
  | .named path => path.print

/-- Pairs of brackets. -/
def printDims (n : Nat) : List Bare :=
  (List.replicate n [sign .openBracket, sign .closeBracket]).flatten

/-- A type as tokens. -/
def TypeRef.print (t : TypeRef) : List Bare :=
  t.base.print ++ printDims t.dims

/-- The token of a constant. -/
def Literal.print : Literal → Bare
  | .int n => ⟨.intLiteral, Nat.repr n⟩
  | .long n => ⟨.longLiteral, Nat.repr n⟩
  | .bool true => sign .kwTrue
  | .bool false => sign .kwFalse
  | .char c => ⟨.charLiteral, String.singleton c⟩
  | .string s => ⟨.stringLiteral, s⟩
  | .null => sign .kwNull

/-- The token of a unary operator. -/
def UnaryOp.kind : UnaryOp → Token.Kind
  | .not => .bang
  | .neg => .minus

/-- The token of a binary operator. -/
def BinaryOp.kind : BinaryOp → Token.Kind
  | .add => .plus
  | .sub => .minus
  | .mul => .star
  | .div => .slash
  | .rem => .percent
  | .eq => .equal
  | .ne => .notEqual
  | .lt => .less
  | .le => .lessEqual
  | .gt => .greater
  | .ge => .greaterEqual
  | .and => .andAnd
  | .or => .orOr

/-! ## Expressions -/

mutual

/-- An expression as tokens. -/
def Expr.print : Expr → List Bare
  | .literal _ value => [value.print]
  | .name _ text => [.ident text]
  | .this _ => [sign .kwThis]
  | .field _ target member => enclosed target.print ++ [sign .dot, .ident member.name]
  | .call _ callee args => .ident callee.name :: sign .openParen :: listed (Expr.printAll args)
  | .invoke _ target callee args =>
      enclosed target.print ++
        sign .dot :: .ident callee.name :: sign .openParen :: listed (Expr.printAll args)
  | .new _ type args =>
      sign .kwNew :: (type.base.print ++ sign .openParen :: listed (Expr.printAll args))
  | .newArray _ elem length =>
      sign .kwNew :: (elem.base.print ++
        sign .openBracket :: (length.print ++ sign .closeBracket :: printDims elem.dims))
  | .index _ target i =>
      enclosed target.print ++ sign .openBracket :: (i.print ++ [sign .closeBracket])
  | .unary _ op operand => sign op.kind :: enclosed operand.print
  | .binary _ op lhs rhs => enclosed lhs.print ++ sign op.kind :: enclosed rhs.print
  | .assign _ target value => enclosed target.print ++ sign .assign :: enclosed value.print

/-- Expressions as tokens, each apart. -/
def Expr.printAll : List Expr → List (List Bare)
  | [] => []
  | e :: es => e.print :: Expr.printAll es

end

theorem Expr.length_print_pos (e : Expr) : 0 < e.print.length := by
  cases e <;> simp [Expr.print, enclosed]

/-- An expression as tokens, in parentheses if it is an assignment. -/
def Expr.printValue : Expr → List Bare
  | e@(.assign ..) => enclosed e.print
  | e => e.print

/-- An optional expression as tokens. -/
def Expr.print? : Option Expr → List Bare
  | none => []
  | some e => e.print

/-- An initialiser as tokens, if there is one. -/
def printInit : Option Expr → List Bare
  | none => []
  | some e => sign .assign :: e.print

/-! ## Statements -/

/-- The declaration of a local variable as tokens, without its semicolon. -/
def LocalVar.print (d : LocalVar) : List Bare :=
  d.type.print ++ .ident d.name.name :: printInit d.init

/-- The first part of a `for` header as tokens. -/
def ForInit.print : ForInit → List Bare
  | .none => []
  | .declare d => d.print
  | .expr _ e => e.print

mutual

/-- A statement as tokens. -/
def Stmt.print : Stmt → List Bare
  | .block _ body => braced (Stmt.printAll body)
  | .declare d => d.print ++ [sign .semicolon]
  | .ifThen _ cond s => sign .kwIf :: (enclosed cond.print ++ s.print)
  | .ifElse _ cond s t =>
      sign .kwIf :: (enclosed cond.print ++ (s.print ++ sign .kwElse :: t.print))
  | .whileLoop _ cond body => sign .kwWhile :: (enclosed cond.print ++ body.print)
  | .forLoop _ init cond update body =>
      sign .kwFor :: sign .openParen :: (init.print ++ sign .semicolon :: (Expr.print? cond ++
        sign .semicolon :: (Expr.print? update ++ sign .closeParen :: body.print)))
  | .ret _ value => sign .kwReturn :: (Expr.print? value ++ [sign .semicolon])
  | .throw _ value => sign .kwThrow :: (value.print ++ [sign .semicolon])
  | .synchronized _ lock _ body =>
      sign .kwSynchronized :: (enclosed lock.print ++ braced (Stmt.printAll body))
  | .expr _ value => value.print ++ [sign .semicolon]
  | .empty _ => [sign .semicolon]

/-- Statements as tokens. -/
def Stmt.printAll : List Stmt → List Bare
  | [] => []
  | s :: ss => s.print ++ Stmt.printAll ss

end

theorem Stmt.length_print_pos (s : Stmt) : 0 < s.print.length := by
  cases s <;> simp [Stmt.print, braced]

/-! ## Declarations -/

/-- The token of a modifier. -/
def Modifier.kind : Modifier → Token.Kind
  | .isPublic => .kwPublic
  | .isPrivate => .kwPrivate
  | .isProtected => .kwProtected
  | .isStatic => .kwStatic
  | .isFinal => .kwFinal

/-- A formal parameter as tokens. -/
def Param.print (p : Param) : List Bare :=
  p.type.print ++ [.ident p.name.name]

section

-- how the values of annotation arguments are printed
variable (value : Expr → List Bare)

/-- An argument of an annotation as tokens. -/
def AnnotationArg.print : AnnotationArg → List Bare
  | .named name e => .ident name.name :: sign .assign :: value e
  | .value e => value e

/-- An annotation as tokens. Its arguments stand in parentheses even if there are none. -/
def Annotation.print (a : Annotation) : List Bare :=
  sign .at :: (a.name.print ++ sign .openParen :: listed (a.args.map (AnnotationArg.print value)))

/-- Modifiers as tokens, the annotations first. -/
def Modifiers.print (m : Modifiers) : List Bare :=
  m.annotations.flatMap (fun a => a.print value) ++ m.flags.map fun flag => sign flag.kind

/-- A field behind its modifiers as tokens. -/
def FieldDecl.printRest (f : FieldDecl) : List Bare :=
  f.type.print ++ .ident f.name.name :: (printInit f.init ++ [sign .semicolon])

/-- A method behind its modifiers as tokens. -/
def MethodDecl.printRest (m : MethodDecl) : List Bare :=
  m.ret.print ++ .ident m.name.name :: sign .openParen ::
    (listed (m.params.map Param.print) ++ braced (Stmt.printAll m.body.body))

/-- What a class extends, as tokens. -/
def printExtends : Option TypeRef → List Bare
  | none => []
  | some t => sign .kwExtends :: t.print

/-- A class behind its modifiers as tokens, given those of its members. -/
def printClass (name : String) (superclass : Option TypeRef) (members : List Bare) : List Bare :=
  sign .kwClass :: .ident name :: (printExtends superclass ++ braced members)

mutual

/-- A class as tokens. -/
def ClassDecl.print (c : ClassDecl) : List Bare :=
  match c with
  | ⟨name, modifiers, superclass, members, _⟩ =>
      modifiers.print value ++ printClass name.name superclass (Member.printAll members)
termination_by structural c

/-- Members of a class as tokens. -/
def Member.printAll (members : List Member) : List Bare :=
  match members with
  | [] => []
  | .field f :: rest => f.modifiers.print value ++ f.printRest ++ Member.printAll rest
  | .method m :: rest => m.modifiers.print value ++ m.printRest ++ Member.printAll rest
  | .type c :: rest => c.print ++ Member.printAll rest
termination_by structural members

end

/-- A class behind its modifiers as tokens. -/
def ClassDecl.printRest (c : ClassDecl) : List Bare :=
  printClass c.name.name c.superclass (Member.printAll value c.members)

/-- A member of a class as tokens. -/
def Member.print : Member → List Bare
  | .field f => f.modifiers.print value ++ f.printRest
  | .method m => m.modifiers.print value ++ m.printRest
  | .type c => c.print value

/-- An import as tokens. -/
def Import.print (i : Import) : List Bare :=
  sign .kwImport :: (i.path.print ++
    ((if i.wildcard then [sign .dot, sign .star] else []) ++ [sign .semicolon]))

/-- A package clause as tokens, if there is one. -/
def printPackage : Option Path → List Bare
  | none => []
  | some path => sign .kwPackage :: (path.print ++ [sign .semicolon])

/-- A unit as tokens. -/
def UnitTree.print (u : UnitTree) : List Bare :=
  printPackage u.package ++
    (u.imports.flatMap Import.print ++ u.types.flatMap (ClassDecl.print value))

/-- The text of a unit. -/
def UnitTree.render (u : UnitTree) : String :=
  written (u.print value)

end

/-! ## Trees without positions -/

/-- A name without its position. -/
def Ident.placeless (i : Ident) : Ident :=
  { i with pos := .none }

/-- A dotted name without its position. -/
def Path.placeless (p : Path) : Path :=
  { p with pos := .none }

/-- The name of a type without positions. -/
def TypeName.placeless : TypeName → TypeName
  | .named path => .named path.placeless
  | base => base

/-- A type without positions. -/
def TypeRef.placeless (t : TypeRef) : TypeRef :=
  ⟨t.base.placeless, t.dims, .none⟩

/-- A note without its position. -/
def Note.placeless (n : Note) : Note :=
  { n with pos := .none }

mutual

/-- An expression without positions. -/
def Expr.placeless : Expr → Expr
  | .literal note value => .literal note.placeless value
  | .name note text => .name note.placeless text
  | .this note => .this note.placeless
  | .field note target member => .field note.placeless target.placeless member.placeless
  | .call note callee args => .call note.placeless callee.placeless (Expr.placelessAll args)
  | .invoke note target callee args =>
      .invoke note.placeless target.placeless callee.placeless (Expr.placelessAll args)
  | .new note type args => .new note.placeless type.placeless (Expr.placelessAll args)
  | .newArray note elem length => .newArray note.placeless elem.placeless length.placeless
  | .index note target i => .index note.placeless target.placeless i.placeless
  | .unary note op operand => .unary note.placeless op operand.placeless
  | .binary note op lhs rhs => .binary note.placeless op lhs.placeless rhs.placeless
  | .assign note target value => .assign note.placeless target.placeless value.placeless

/-- Expressions without positions. -/
def Expr.placelessAll : List Expr → List Expr
  | [] => []
  | e :: es => e.placeless :: Expr.placelessAll es

end

/-- The declaration of a local variable without positions. -/
def LocalVar.placeless (d : LocalVar) : LocalVar :=
  ⟨.none, d.type.placeless, d.name.placeless, d.init.map Expr.placeless, d.slot⟩

/-- The first part of a `for` header without positions. -/
def ForInit.placeless : ForInit → ForInit
  | .none => .none
  | .declare d => .declare d.placeless
  | .expr _ e => .expr .none e.placeless

mutual

/-- A statement without positions. -/
def Stmt.placeless : Stmt → Stmt
  | .block _ body => .block .none (Stmt.placelessAll body)
  | .declare d => .declare d.placeless
  | .ifThen _ cond s => .ifThen .none cond.placeless s.placeless
  | .ifElse _ cond s t => .ifElse .none cond.placeless s.placeless t.placeless
  | .whileLoop _ cond body => .whileLoop .none cond.placeless body.placeless
  | .forLoop _ init cond update body =>
      .forLoop .none init.placeless (cond.map Expr.placeless) (update.map Expr.placeless)
        body.placeless
  | .ret _ value => .ret .none (value.map Expr.placeless)
  | .throw _ value => .throw .none value.placeless
  | .synchronized _ lock _ body =>
      .synchronized .none lock.placeless .none (Stmt.placelessAll body)
  | .expr _ value => .expr .none value.placeless
  | .empty _ => .empty .none

/-- Statements without positions. -/
def Stmt.placelessAll : List Stmt → List Stmt
  | [] => []
  | s :: ss => s.placeless :: Stmt.placelessAll ss

end

/-- A block without positions. -/
def Block.placeless (b : Block) : Block :=
  ⟨.none, Stmt.placelessAll b.body⟩

/-- An argument of an annotation without positions. -/
def AnnotationArg.placeless : AnnotationArg → AnnotationArg
  | .named name e => .named name.placeless e.placeless
  | .value e => .value e.placeless

/-- An annotation without positions. -/
def Annotation.placeless (a : Annotation) : Annotation :=
  ⟨a.name.placeless, a.args.map AnnotationArg.placeless, .none⟩

/-- Modifiers without positions. -/
def Modifiers.placeless (m : Modifiers) : Modifiers :=
  ⟨m.annotations.map Annotation.placeless, m.flags⟩

/-- A field without positions. -/
def FieldDecl.placeless (f : FieldDecl) : FieldDecl :=
  ⟨f.modifiers.placeless, f.type.placeless, f.name.placeless, f.init.map Expr.placeless, .none⟩

/-- A formal parameter without positions. -/
def Param.placeless (p : Param) : Param :=
  ⟨p.type.placeless, p.name.placeless⟩

/-- A method without positions. -/
def MethodDecl.placeless (m : MethodDecl) : MethodDecl :=
  ⟨m.modifiers.placeless, m.ret.placeless, m.name.placeless, m.params.map Param.placeless,
    m.body.placeless, .none⟩

mutual

/-- A class without positions. -/
def ClassDecl.placeless (c : ClassDecl) : ClassDecl :=
  match c with
  | ⟨name, modifiers, superclass, members, _⟩ =>
      ⟨name.placeless, modifiers.placeless, superclass.map TypeRef.placeless,
        Member.placelessAll members, .none⟩
termination_by structural c

/-- Members of a class without positions. -/
def Member.placelessAll (members : List Member) : List Member :=
  match members with
  | [] => []
  | .field f :: rest => .field f.placeless :: Member.placelessAll rest
  | .method m :: rest => .method m.placeless :: Member.placelessAll rest
  | .type c :: rest => .type c.placeless :: Member.placelessAll rest
termination_by structural members

end

/-- A member of a class without positions. -/
def Member.placeless : Member → Member
  | .field f => .field f.placeless
  | .method m => .method m.placeless
  | .type c => .type c.placeless

/-- An import without positions. -/
def Import.placeless (i : Import) : Import :=
  ⟨i.path.placeless, i.wildcard⟩

/-- A unit without positions. -/
def UnitTree.placeless (u : UnitTree) : UnitTree :=
  ⟨u.source, u.package.map Path.placeless, u.imports.map Import.placeless,
    u.types.map ClassDecl.placeless⟩

end ProbeLang
