import ProbeLang.Analysis.Expr

/-!
# Analysis of statements

Analysing a statement analyses its expressions and gives every local variable its slot. A
variable is in scope up to the end of its block; its slot is not used again in the method, and
its name must differ from those of all variables in scope. The slots of a method are numbered
from zero, and the last number that fits two bytes is left out.
-/

namespace ProbeLang

/-- The local variables at a place in a method. -/
structure Locals where
  /-- The variables in scope, last first. -/
  vars : List LocalSlot
  /-- The next slot. -/
  next : Nat
  deriving Repr, DecidableEq

/-- Whether an expression is the constant `true`. -/
def Expr.isTrue : Expr → Bool
  | .literal _ (.bool true) => true
  | _ => false

mutual

/-- Whether control can reach the end of a statement. -/
def Stmt.completes : Stmt → Bool
  | .ret _ _ | .throw _ _ => false
  | .block _ body => Stmt.allComplete body
  | .ifElse _ _ s t => s.completes || t.completes
  | .whileLoop _ cond _ => !cond.isTrue
  | .forLoop _ _ cond _ _ => cond.any fun c => !c.isTrue
  | .synchronized _ _ _ body => Stmt.allComplete body
  | .declare _ | .ifThen _ _ _ | .expr _ _ | .empty _ => true

/-- Whether control can reach the end of every statement. -/
def Stmt.allComplete : List Stmt → Bool
  | [] => true
  | s :: rest => s.completes && Stmt.allComplete rest

end

/-- Whether an expression may stand as a statement. -/
def Expr.isStatement : Expr → Bool
  | .assign .. | .call .. | .invoke .. | .new .. => true
  | _ => false

namespace BodyScope

variable {σ : Type}

/-- The first number that is no slot. -/
def slotLimit : Nat := 65535

/-- The scope with other local variables. -/
def withLocals (cx : BodyScope σ) (l : Locals) : BodyScope σ :=
  { cx with locals := l.vars }

/-- Declare a local variable. -/
def declare (cx : BodyScope σ) (l : Locals) (name : Ident) (ty : Ty) :
    SessionM σ (Locals × Nat) := do
  if l.vars.any fun v => v.name == name.name then
    cx.problem name.pos (.localTaken name.name cx.label)
  if l.next = slotLimit then
    cx.problem name.pos (.tooManyLocals cx.label)
  let slot := min l.next slotLimit
  return (⟨⟨name.name, ty, slot⟩ :: l.vars, l.next + 1⟩, slot)

/-- Analyse a declaration: its type, its value, and then the variable. -/
def localVar (cx : BodyScope σ) (l : Locals) (d : LocalVar) :
    SessionM σ (Locals × LocalVar) := do
  let ty ← cx.names.resolveType d.type
  let init ←
    match d.init with
    | none => pure none
    | some e => do
        let (valueTy, e) ← (cx.withLocals l).value e
        cx.names.requireAssignable e.pos valueTy ty
        pure (some e)
  let (l, slot) ← cx.declare l d.name ty
  return (l, { d with init, slot := some slot })

/-- Analyse a condition. -/
def condition (cx : BodyScope σ) (l : Locals) (e : Expr) : SessionM σ Expr := do
  let (ty, e) ← (cx.withLocals l).value e
  cx.names.requireAssignable e.pos ty .boolean
  return e

/-- Analyse an optional condition. -/
def condition? (cx : BodyScope σ) (l : Locals) : Option Expr → SessionM σ (Option Expr)
  | none => return none
  | some e => return some (← cx.condition l e)

/-- Analyse an optional expression. -/
def value? (cx : BodyScope σ) (l : Locals) : Option Expr → SessionM σ (Option Expr)
  | none => return none
  | some e => return some (← (cx.withLocals l).value e).2

/-- Analyse an expression that is a statement. -/
def effect (cx : BodyScope σ) (l : Locals) (e : Expr) : SessionM σ Expr := do
  if !e.isStatement then
    cx.problem e.pos .notAStatement
  return (← (cx.withLocals l).value e).2

/-- Analyse the first part of a `for` header. -/
def forInit (cx : BodyScope σ) (l : Locals) : ForInit → SessionM σ (Locals × ForInit)
  | .none => return (l, .none)
  | .declare d => do
      let (l, d) ← cx.localVar l d
      return (l, .declare d)
  | .expr pos e => return (l, .expr pos (← cx.effect l e))

/-- Advise against an empty statement as a body. -/
def adviseBody (cx : BodyScope σ) (keyword : String) : Stmt → SessionM σ Unit
  | .empty pos => do
      if (← get).options.lintEnabled .empty then
        SessionM.advise cx.names.source pos (.emptyBody keyword)
  | _ => return ()

/-- Report a `for` statement in a source of a level that has none. -/
def requireFor (cx : BodyScope σ) (pos : Pos) : SessionM σ Unit := do
  let level := (← get).options.source
  if level.code < LanguageLevel.v2.code then
    cx.problem pos (.forUnsupported level)

/-- Analyse what a `return` gives back. -/
def returned (cx : BodyScope σ) (l : Locals) (pos : Pos) :
    Option Expr → SessionM σ (Option Expr)
  | none => do
      if cx.ret ≠ .void then
        cx.problem pos .missingReturnValue
      return none
  | some e => do
      let (ty, e) ← (cx.withLocals l).value e
      if cx.ret = .void then cx.problem e.pos .unexpectedReturnValue
      else cx.names.requireAssignable e.pos ty cx.ret
      return some e

/-- Analyse what is thrown. -/
def thrown (cx : BodyScope σ) (l : Locals) (e : Expr) : SessionM σ Expr := do
  let (ty, e) ← (cx.withLocals l).value e
  cx.names.requireAssignable e.pos ty (.cls errorName)
  return e

/-- Analyse what is locked. -/
def lock (cx : BodyScope σ) (l : Locals) (e : Expr) : SessionM σ Expr := do
  let (ty, e) ← (cx.withLocals l).value e
  if !ty.isReference && ty ≠ .unknown then
    cx.problem e.pos (.referenceExpected ty)
  return e

mutual

/-- Analyse a statement. -/
def stmt (cx : BodyScope σ) (l : Locals) : Stmt → SessionM σ (Locals × Stmt)
  | .block pos body => do
      let (after, body) ← stmts cx l [] body
      return ({ after with vars := l.vars }, .block pos body)
  | .declare d => do
      let (l, d) ← cx.localVar l d
      return (l, .declare d)
  | .ifThen pos cond s => do
      let cond ← cx.condition l cond
      cx.adviseBody "if" s
      let (l, s) ← stmt cx l s
      return (l, .ifThen pos cond s)
  | .ifElse pos cond s t => do
      let cond ← cx.condition l cond
      cx.adviseBody "if" s
      let (l, s) ← stmt cx l s
      let (l, t) ← stmt cx l t
      return (l, .ifElse pos cond s t)
  | .whileLoop pos cond body => do
      let cond ← cx.condition l cond
      cx.adviseBody "while" body
      let (l, body) ← stmt cx l body
      return (l, .whileLoop pos cond body)
  | .forLoop pos init cond update body => do
      cx.requireFor pos
      let (inner, init) ← cx.forInit l init
      let cond ← cx.condition? inner cond
      let update ← cx.value? inner update
      cx.adviseBody "for" body
      let (after, body) ← stmt cx inner body
      return ({ after with vars := l.vars }, .forLoop pos init cond update body)
  | .ret pos value => return (l, .ret pos (← cx.returned l pos value))
  | .throw pos value => return (l, .throw pos (← cx.thrown l value))
  | .synchronized pos lock bodyPos body => do
      let lock ← cx.lock l lock
      let (after, body) ← stmts cx l [] body
      return ({ after with vars := l.vars }, .synchronized pos lock bodyPos body)
  | .expr pos value => return (l, .expr pos (← cx.effect l value))
  | .empty pos => return (l, .empty pos)

/-- Analyse statements one after the other; those in `done` come first, last first. -/
def stmts (cx : BodyScope σ) (l : Locals) (done : List Stmt) :
    List Stmt → SessionM σ (Locals × List Stmt)
  | [] => return (l, done.reverse)
  | s :: rest => do
      let (l, s) ← stmt cx l s
      stmts cx l (s :: done) rest

end

end BodyScope

end ProbeLang
