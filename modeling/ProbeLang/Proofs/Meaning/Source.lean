import ProbeLang.Tree

/-!
# What a method on local variables means

A method that uses only constants, local variables, operators and the statements that need nothing
else is given a meaning here: a function of what its slots hold. The values and the primitive
operators are left open (`Interpretation`). Expressions are evaluated from left to right; `&&` and
`||` leave their right side out when the left one decides; an assignment gives the value that it
stores; a declaration without a value leaves its slot as it is.

Only loops can run for ever. So the meaning of a statement has a bound on the rounds of each loop,
and no outcome if the bound is too low; a statement runs for ever if no bound gives an outcome.
-/

namespace ProbeLang

/-- Values and what the primitive operators do with them. An operator may have no result. -/
structure Interpretation (V : Type) where
  int : UInt32 → V
  long : UInt64 → V
  text : String → V
  null : V
  /-- Whether a condition with a value is met. -/
  isTrue : V → Bool
  unary : UnaryOp → V → Option V
  binary : BinaryOp → V → V → Option V
  concat : V → V → Option V

/-- What the slots of a method hold. -/
abbrev Slots (V : Type) := Nat → V

/-- Put a value into a slot. -/
def Slots.set {V : Type} (l : Slots V) (slot : Nat) (v : V) : Slots V :=
  fun k => if k = slot then v else l k

namespace Interpretation

variable {V : Type}

/-- The value of a constant: the truth values are one and zero, a character is its code point. -/
def literal (I : Interpretation V) : Literal → V
  | .int n => I.int (UInt32.ofNat n)
  | .bool b => I.int (if b then 1 else 0)
  | .char c => I.int c.val
  | .long n => I.long (UInt64.ofNat n)
  | .string s => I.text s
  | .null => I.null

/-- The result of an operator that takes both values. Addition with a text as its result puts texts
together. -/
def operate (I : Interpretation V) (text : Bool) (op : BinaryOp) (a b : V) : Option V :=
  if op = .add && text then I.concat a b else I.binary op a b

end Interpretation

/-- The truth of the left value with which an operator leaves out its right side. -/
def BinaryOp.skipsOn : BinaryOp → Option Bool
  | .and => some false
  | .or => some true
  | _ => none

/-! ## The fragment -/

/-- Whether a name refers to a local variable. -/
def Note.isLocal (n : Note) : Bool :=
  match n.refers with
  | some (.localVar _) => true
  | _ => false

/-- Whether an expression has only constants, local variables, operators and assignments to local
variables. -/
def Expr.isLocal : Expr → Bool
  | .literal _ _ => true
  | .name n _ => n.isLocal
  | .unary _ _ e => e.isLocal
  | .binary _ _ l r => l.isLocal && r.isLocal
  | .assign _ (.name n _) value => n.isLocal && value.isLocal
  | _ => false

/-- Whether the first part of a `for` header is in the fragment. -/
def ForInit.isLocal : ForInit → Bool
  | .none => true
  | .declare d => d.init.all Expr.isLocal
  | .expr _ e => e.isLocal

mutual

/-- Whether a statement is in the fragment. -/
def Stmt.isLocal : Stmt → Bool
  | .block _ body => Stmt.allLocal body
  | .declare d => d.init.all Expr.isLocal
  | .ifThen _ cond s => cond.isLocal && s.isLocal
  | .ifElse _ cond s t => cond.isLocal && s.isLocal && t.isLocal
  | .whileLoop _ cond body => cond.isLocal && body.isLocal
  | .forLoop _ init cond update body =>
      init.isLocal && cond.all Expr.isLocal && update.all Expr.isLocal && body.isLocal
  | .ret _ value => value.all Expr.isLocal
  | .expr _ e => e.isLocal
  | .empty _ => true
  | .throw _ _ | .synchronized _ _ _ _ => false

/-- Whether statements are in the fragment. -/
def Stmt.allLocal : List Stmt → Bool
  | [] => true
  | s :: rest => s.isLocal && Stmt.allLocal rest

end

theorem Note.refers_of_isLocal {n : Note} (h : n.isLocal = true) :
    ∃ slot, n.refers = some (.localVar slot) := by
  rcases hr : n.refers with _ | (slot | ⟨owner, st, d⟩ | ⟨owner, st, d⟩ | cls | cls)
  case some.localVar => exact ⟨slot, rfl⟩
  all_goals
    rw [isLocal, hr] at h
    cases h

/-! ## Expressions -/

section

variable {V : Type} (I : Interpretation V)

/-- The value of an expression, and what the slots hold then. -/
def Expr.eval : Expr → Slots V → Option (V × Slots V)
  | .literal _ v, l => some (I.literal v, l)
  | .name n _, l =>
      match n.refers with
      | some (.localVar slot) => some (l slot, l)
      | _ => none
  | .unary _ op e, l => do
      let (v, l) ← e.eval l
      return (← I.unary op v, l)
  | .binary n op lhs rhs, l => do
      let (a, l) ← lhs.eval l
      match op.skipsOn with
      | some truth => if I.isTrue a = truth then return (a, l) else rhs.eval l
      | none =>
          let (b, l) ← rhs.eval l
          return (← I.operate (n.ty.any Ty.isString) op a b, l)
  | .assign _ (.name n _) value, l => do
      let (v, l) ← value.eval l
      match n.refers with
      | some (.localVar slot) => return (v, l.set slot v)
      | _ => none
  | _, _ => none

/-! ## Statements -/

/-- How a statement ends: control goes on behind it, the method returns, or an operator has no
result. -/
inductive Outcome (V : Type)
  | next (l : Slots V)
  | returned (value : Option V) (l : Slots V)
  | fault

/-- What follows a statement. -/
def Outcome.andThen (o : Option (Outcome V)) (f : Slots V → Option (Outcome V)) :
    Option (Outcome V) :=
  match o with
  | some (.next l) => f l
  | o => o

/-- How an expression ends whose value goes to what follows. -/
def Expr.evalThen (e : Expr) (l : Slots V) (f : V → Slots V → Option (Outcome V)) :
    Option (Outcome V) :=
  match e.eval I l with
  | some (v, l) => f v l
  | none => some .fault

/-- How a declaration ends. -/
def LocalVar.exec (d : LocalVar) (l : Slots V) : Option (Outcome V) :=
  match d.init, d.slot with
  | some e, some slot => e.evalThen I l fun v l => some (.next (l.set slot v))
  | some _, none => some .fault
  | none, _ => some (.next l)

/-- How the first part of a `for` header ends. -/
def ForInit.exec (l : Slots V) : ForInit → Option (Outcome V)
  | .none => some (.next l)
  | .declare d => d.exec I l
  | .expr _ e => e.evalThen I l fun _ l => some (.next l)

/-- How an expression ends whose value is not used. -/
def Expr.execDiscarded (e : Option Expr) (l : Slots V) : Option (Outcome V) :=
  match e with
  | none => some (.next l)
  | some e => e.evalThen I l fun _ l => some (.next l)

/-- What follows a condition if it is met. No condition is always met. -/
def Expr.test (cond : Option Expr) (l : Slots V) (f : Slots V → Option (Outcome V)) :
    Option (Outcome V) :=
  match cond with
  | none => f l
  | some e => e.evalThen I l fun v l => if I.isTrue v then f l else some (.next l)

/-- Rounds of a loop, of which there are no more than a number. -/
def loop (cond update : Option Expr) (body : Slots V → Option (Outcome V)) :
    Nat → Slots V → Option (Outcome V)
  | 0, _ => none
  | rounds + 1, l =>
      Expr.test I cond l fun l =>
        Outcome.andThen (body l) fun l =>
          Outcome.andThen (Expr.execDiscarded I update l) (loop cond update body rounds)

mutual

/-- How a statement ends if no loop in it takes more than a number of rounds. -/
def Stmt.exec (rounds : Nat) : Stmt → Slots V → Option (Outcome V)
  | .block _ body, l => Stmt.execAll rounds body l
  | .declare d, l => d.exec I l
  | .ifThen _ cond s, l => Expr.test I (some cond) l fun l => s.exec rounds l
  | .ifElse _ cond s t, l =>
      cond.evalThen I l fun v l => if I.isTrue v then s.exec rounds l else t.exec rounds l
  | .whileLoop _ cond body, l => loop I (some cond) none (fun l => body.exec rounds l) rounds l
  | .forLoop _ init cond update body, l =>
      Outcome.andThen (init.exec I l) (loop I cond update (fun l => body.exec rounds l) rounds)
  | .ret _ none, l => some (.returned none l)
  | .ret _ (some e), l => e.evalThen I l fun v l => some (.returned (some v) l)
  | .expr _ e, l => e.evalThen I l fun _ l => some (.next l)
  | .empty _, l => some (.next l)
  | .throw _ _, _ | .synchronized _ _ _ _, _ => some .fault

/-- How statements end that follow one another. -/
def Stmt.execAll (rounds : Nat) : List Stmt → Slots V → Option (Outcome V)
  | [], l => some (.next l)
  | s :: rest, l => Outcome.andThen (s.exec rounds l) fun l => Stmt.execAll rounds rest l

end

/-! ## Methods -/

/-- Whether a method returns, with a value or with nothing. A method without a result also returns
at its end. -/
def MethodDecl.Returns (m : MethodDecl) (ret : Ty) (l : Slots V) (value : Option V)
    (l' : Slots V) : Prop :=
  ∃ rounds, Stmt.execAll I rounds m.body.body l = some (.returned value l') ∨
    (ret = .void ∧ value = none ∧ Stmt.execAll I rounds m.body.body l = some (.next l'))

/-- Whether a method runs for ever. -/
def MethodDecl.RunsForever (m : MethodDecl) (l : Slots V) : Prop :=
  ∀ rounds, Stmt.execAll I rounds m.body.body l = none

end

end ProbeLang
