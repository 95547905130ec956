import ProbeLang.Tree

/-!
# Walks through trees

An expression comes before its operands, and these come in the order in which they are written.

A visitor walks through a whole tree. It has a hook for every kind of part: a hook is given the part
and the walk through what stands in it, which it may put anywhere in what it does, or leave out. A
part comes before what stands in it, and parts come in the order in which they are written.
Annotations are not walked.
-/

namespace ProbeLang

/-! ## Expressions -/

mutual

/-- An expression and the expressions in it, the outer one first. -/
def Expr.preorder : Expr → List Expr
  | e@(.literal _ _) | e@(.name _ _) | e@(.this _) => [e]
  | e@(.field _ target _) => e :: target.preorder
  | e@(.call _ _ args) => e :: Expr.preorderAll args
  | e@(.invoke _ target _ args) => e :: (target.preorder ++ Expr.preorderAll args)
  | e@(.new _ _ args) => e :: Expr.preorderAll args
  | e@(.newArray _ _ length) => e :: length.preorder
  | e@(.index _ target i) => e :: (target.preorder ++ i.preorder)
  | e@(.unary _ _ operand) => e :: operand.preorder
  | e@(.binary _ _ lhs rhs) => e :: (lhs.preorder ++ rhs.preorder)
  | e@(.assign _ target value) => e :: (target.preorder ++ value.preorder)

/-- The expressions in a list of expressions. -/
def Expr.preorderAll : List Expr → List Expr
  | [] => []
  | e :: rest => e.preorder ++ Expr.preorderAll rest

end

/-- The expressions in an optional expression. -/
def Expr.preorder? : Option Expr → List Expr
  | none => []
  | some e => e.preorder

/-! ## Visitors -/

/-- What is done at each part of a tree. A hook that is not given goes on with the walk. -/
structure Visitor (σ : Type) where
  cls : ClassDecl → (σ → σ) → σ → σ := fun _ walk => walk
  field : FieldDecl → (σ → σ) → σ → σ := fun _ walk => walk
  method : MethodDecl → (σ → σ) → σ → σ := fun _ walk => walk
  stmt : Stmt → (σ → σ) → σ → σ := fun _ walk => walk
  expr : Expr → (σ → σ) → σ → σ := fun _ walk => walk

namespace Visitor

variable {σ : Type} (v : Visitor σ)

mutual

/-- Walk through an expression. -/
def walkExpr : Expr → σ → σ
  | .literal .., s | .name .., s | .this _, s => s
  | .field _ target _, s => v.expr target (walkExpr target) s
  | .call _ _ args, s => visitExprs args s
  | .invoke _ target _ args, s => visitExprs args (v.expr target (walkExpr target) s)
  | .new _ _ args, s => visitExprs args s
  | .newArray _ _ length, s => v.expr length (walkExpr length) s
  | .index _ target i, s => v.expr i (walkExpr i) (v.expr target (walkExpr target) s)
  | .unary _ _ operand, s => v.expr operand (walkExpr operand) s
  | .binary _ _ lhs rhs, s => v.expr rhs (walkExpr rhs) (v.expr lhs (walkExpr lhs) s)
  | .assign _ target value, s =>
      v.expr value (walkExpr value) (v.expr target (walkExpr target) s)

/-- Visit expressions. -/
def visitExprs : List Expr → σ → σ
  | [], s => s
  | e :: rest, s => visitExprs rest (v.expr e (walkExpr e) s)

end

/-- Visit an expression. -/
def visitExpr (e : Expr) (s : σ) : σ :=
  v.expr e (v.walkExpr e) s

/-- Visit an expression that may be missing. -/
def visitExpr? : Option Expr → σ → σ
  | none, s => s
  | some e, s => v.visitExpr e s

/-- Visit the first part of a `for` header, which is a statement. -/
def visitInit : ForInit → σ → σ
  | .none, s => s
  | .declare d, s => v.stmt (.declare d) (v.visitExpr? d.init) s
  | .expr pos e, s => v.stmt (.expr pos e) (v.visitExpr e) s

mutual

/-- Walk through a statement. -/
def walkStmt : Stmt → σ → σ
  | .block _ body, s => visitStmts body s
  | .declare d, s => v.visitExpr? d.init s
  | .ifThen _ cond t, s => v.stmt t (walkStmt t) (v.visitExpr cond s)
  | .ifElse _ cond t e, s =>
      v.stmt e (walkStmt e) (v.stmt t (walkStmt t) (v.visitExpr cond s))
  | .whileLoop _ cond body, s => v.stmt body (walkStmt body) (v.visitExpr cond s)
  | .forLoop _ init cond update body, s =>
      v.stmt body (walkStmt body) (v.visitExpr? update (v.visitExpr? cond (v.visitInit init s)))
  | .ret _ value, s => v.visitExpr? value s
  | .throw _ value, s => v.visitExpr value s
  | .synchronized _ lock _ body, s => visitStmts body (v.visitExpr lock s)
  | .expr _ e, s => v.visitExpr e s
  | .empty _, s => s

/-- Visit statements. -/
def visitStmts : List Stmt → σ → σ
  | [], s => s
  | t :: rest, s => visitStmts rest (v.stmt t (walkStmt t) s)

end

mutual

/-- Walk through a class. -/
def walkClass (c : ClassDecl) : σ → σ :=
  match c with
  | ⟨_, _, _, members, _⟩ => visitMembers members
termination_by structural c

/-- Visit members of a class. -/
def visitMembers : List Member → σ → σ
  | [], s => s
  | .field f :: rest, s => visitMembers rest (v.field f (v.visitExpr? f.init) s)
  | .method m :: rest, s => visitMembers rest (v.method m (v.visitStmts m.body.body) s)
  | .type decl :: rest, s => visitMembers rest (v.cls decl (walkClass decl) s)
termination_by structural members => members

end

/-- Visit a class. -/
def visitClass (c : ClassDecl) (s : σ) : σ :=
  v.cls c (v.walkClass c) s

end Visitor

/-! ## What a walk meets -/

/-- A class or an expression. -/
inductive TreeNode
  | cls (decl : ClassDecl)
  | expr (e : Expr)

/-- The visitor that notes classes and expressions. -/
def TreeNode.recorder : Visitor (Array TreeNode) where
  cls c walk seen := walk (seen.push (.cls c))
  expr e walk seen := walk (seen.push (.expr e))

/-- The classes and expressions of a unit. -/
def UnitTree.nodes (u : UnitTree) : List TreeNode :=
  (u.types.foldl (fun seen c => TreeNode.recorder.visitClass c seen) #[]).toList

end ProbeLang
