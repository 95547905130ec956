import ProbeLang.Analysis.Stmt
import ProbeLang.Proofs.Analysis.Expr
import ProbeLang.Proofs.Session.Soundness

/-!
# Analysed statements are fit for code

A statement that is analysed without an error evaluates attributed expressions only, and every
local variable that it declares has a slot. The types of the variables in scope stay known from
statement to statement. Control leaves the statement as it did before, and with a value if the
method has a result.
-/

namespace ProbeLang

open SessionM

/-! ## Where control leaves statements

The analysis changes nothing of what decides whether control can reach the end of a statement: a
condition that is the constant `true` stays so, and no other condition becomes it. In a method with a
result it lets every `return` give back a value (`Stmt.Concludes`). -/

mutual

/-- What is given back at the `return` statements in a statement. -/
def Stmt.returned : Stmt → List (Option Expr)
  | .block _ body | .synchronized _ _ _ body => Stmt.allReturned body
  | .ifThen _ _ s | .whileLoop _ _ s | .forLoop _ _ _ _ s => s.returned
  | .ifElse _ _ s t => s.returned ++ t.returned
  | .ret _ value => [value]
  | .declare _ | .throw _ _ | .expr _ _ | .empty _ => []

/-- What is given back at the `return` statements in statements. -/
def Stmt.allReturned : List Stmt → List (Option Expr)
  | [] => []
  | s :: rest => s.returned ++ Stmt.allReturned rest

end

/-- Whether control reaches the end of a statement that has been analysed if it reaches that of the
original, and every `return` in it gives back a value if the method has a result. -/
structure Stmt.Concludes (ret : Ty) (st st' : Stmt) : Prop where
  completes : st'.completes = st.completes
  returned : ret ≠ .void → ∀ v ∈ st'.returned, v.isSome = true

/-- Whether control does not reach the end of the body of a method that gives back a value, and every
`return` in it gives back one. -/
def MethodDecl.Concludes (m : MethodDecl) : Prop :=
  m.ret.base ≠ .void → Stmt.allComplete m.body.body = false ∧
    ∀ v ∈ Stmt.allReturned m.body.body, v.isSome = true

section

variable {ret : Ty} {ss ss' : List Stmt}

theorem Stmt.allComplete_of_concludes (h : List.Forall₂ (Stmt.Concludes ret) ss ss') :
    Stmt.allComplete ss' = Stmt.allComplete ss := by
  induction h with
  | nil => rfl
  | cons hs _ ih => rw [Stmt.allComplete, Stmt.allComplete, hs.completes, ih]

theorem Stmt.allReturned_of_concludes (h : List.Forall₂ (Stmt.Concludes ret) ss ss')
    (hret : ret ≠ .void) : ∀ v ∈ Stmt.allReturned ss', v.isSome = true := by
  induction h with
  | nil => exact nofun
  | cons hs _ ih => exact List.forall_mem_append.mpr ⟨hs.returned hret, ih⟩

end

/-! ### Conditions -/

namespace SessionM

variable {σ α β : Type} {m : SessionM σ α} {f : α → SessionM σ β} {Q : β → Prop}

/-- Whether a property holds of whatever a step gives. -/
def Gives (m : SessionM σ β) (Q : β → Prop) : Prop :=
  ∀ s b t, m.run.run s = (.ok b, t) → Q b

namespace Gives

theorem pure {b : β} (h : Q b) : Gives (pure b : SessionM σ β) Q := by
  intro s b' t hrun
  cases hrun
  exact h

/-- What a sequence of steps gives is what the last one does. -/
theorem behind (h : ∀ a, (f a).Gives Q) : (m >>= f).Gives Q := by
  intro s b t hrun
  obtain ⟨a, u, -, hrun⟩ := of_run_bind hrun
  exact h a u b t hrun

theorem bind {R : α → Prop} (hm : m.Gives R) (h : ∀ a, R a → (f a).Gives Q) :
    (m >>= f).Gives Q := by
  intro s b t hrun
  obtain ⟨a, u, hrun', hrun⟩ := of_run_bind hrun
  exact h a (hm s a u hrun') u b t hrun

end Gives

end SessionM

theorem Expr.isTrue_withTy (ty : Ty) (e : Expr) : (e.withTy ty).isTrue = e.isTrue := by
  cases e with
  | literal n v =>
      cases v with
      | bool b => cases b <;> rfl
      | _ => rfl
  | _ => rfl

namespace BodyScope

variable {σ : Type} {cx : BodyScope σ} {l : Locals}

theorem gives_operand (e : Expr) :
    (cx.operand e).Gives fun r => r.2.isTrue = e.isTrue := by
  unfold operand
  cases e with
  | literal n v => exact .pure rfl
  | name n ident | this n => exact .behind fun _ => .pure rfl
  | field n target member | call n callee args | new n type args =>
      exact .behind fun _ => .behind fun _ => .pure rfl
  | invoke n target callee args | unary n op operand =>
      exact .behind fun _ => .behind fun _ => .behind fun _ => .pure rfl
  | newArray n elem length =>
      refine .behind fun _ => .behind fun _ => .behind fun _ => .behind fun ty => ?_
      cases ty <;> exact .pure rfl
  | binary n op lhs rhs =>
      exact .behind fun _ => .behind fun _ => .behind fun _ => .behind fun _ => .behind fun _ =>
        .pure rfl
  | index n target i =>
      exact .behind fun _ => .behind fun _ => .behind fun _ => .behind fun _ => .behind fun _ =>
        .behind fun _ => .pure rfl
  | assign n target value =>
      refine .behind fun _ => .behind fun _ => ?_
      dsimp only
      split
      · exact .behind fun _ => .behind fun _ => .behind fun _ => .behind fun _ => .pure rfl
      · exact .behind fun _ => .behind fun _ => .behind fun _ => .pure rfl

theorem gives_settle (r : Operand × Expr) :
    (cx.settle r).Gives fun r' => r'.2.isTrue = r.2.isTrue := by
  obtain ⟨ty | cls | segments, e⟩ := r
  · exact .pure (e.isTrue_withTy ty)
  · exact .behind fun _ => .pure (e.isTrue_withTy .unknown)
  · exact .behind fun _ => .pure (e.isTrue_withTy .unknown)

theorem gives_value (e : Expr) : (cx.value e).Gives fun r => r.2.isTrue = e.isTrue :=
  (gives_operand e).bind fun r hr => hr ▸ gives_settle r

/-- A condition is the constant `true` when it has been analysed if it was before. -/
theorem gives_condition (e : Expr) : (cx.condition l e).Gives fun e' => e'.isTrue = e.isTrue :=
  (gives_value e).bind fun _ hr => .behind fun _ => .pure hr

theorem gives_condition? (e : Option Expr) :
    (cx.condition? l e).Gives fun e' =>
      (e'.any fun c => !c.isTrue) = e.any fun c => !c.isTrue := by
  cases e with
  | none => exact .pure rfl
  | some e => exact (gives_condition e).bind fun e' he => .pure (by simp [he])

end BodyScope

/-! ## Fit statements -/

/-- Whether the types of the variables in scope are known. -/
def Locals.Known (l : Locals) : Prop :=
  ∀ v ∈ l.vars, v.ty.Known

theorem Expr.FitFor.append {isStatic : Bool} {es es' : List Expr}
    (h : ∀ x ∈ es, x.FitFor isStatic) (h' : ∀ x ∈ es', x.FitFor isStatic) :
    ∀ x ∈ es ++ es', x.FitFor isStatic :=
  List.forall_mem_append.mpr ⟨h, h'⟩

/-- Whether all expressions that are evaluated in a statement are fit for code and all local
variables that are declared in it have a slot. -/
structure Stmt.FitFor (isStatic : Bool) (s : Stmt) : Prop where
  evaluated : ∀ x ∈ s.evaluated, x.FitFor isStatic
  declared : ∀ d ∈ s.localVars, d.slot.isSome = true

theorem Stmt.allFitFor_iff {isStatic : Bool} : ∀ {ss : List Stmt},
    Stmt.AllFitFor isStatic ss ↔ ∀ s ∈ ss, s.FitFor isStatic
  | [] => ⟨fun _ => nofun, fun _ => ⟨nofun, nofun⟩⟩
  | s :: ss => by
      rw [List.forall_mem_cons, ← Stmt.allFitFor_iff]
      constructor
      · rintro ⟨hevaluated, hdeclared⟩
        obtain ⟨he, hes⟩ := List.forall_mem_append.mp hevaluated
        obtain ⟨hd, hds⟩ := List.forall_mem_append.mp hdeclared
        exact ⟨⟨he, hd⟩, hes, hds⟩
      · rintro ⟨⟨he, hd⟩, hes, hds⟩
        exact ⟨List.forall_mem_append.mpr ⟨he, hes⟩, List.forall_mem_append.mpr ⟨hd, hds⟩⟩

namespace BodyScope

variable {σ : Type} {s : Session σ} {P : Prop} {cx : BodyScope σ} {l : Locals}

/-- Declaring a variable keeps what holds of the types of all variables. -/
theorem keeps_declare_all {T : Ty → Prop} (name : Ident) (ty : Ty)
    (hP : P → (∀ v ∈ l.vars, T v.ty) ∧ T ty) :
    Keeps s P (cx.declare l name ty) fun r _ => ∀ v ∈ r.1.vars, T v.ty := by
  have hrest : ∀ {s P'}, (P' → P) → Keeps (σ := σ) s P' (pure
      ((⟨⟨name.name, ty, min l.next slotLimit⟩ :: l.vars, l.next + 1⟩ : Locals),
        min l.next slotLimit)) fun r _ => ∀ v ∈ r.1.vars, T v.ty := by
    intro s P' hP'
    refine .pure fun h _ v hv => ?_
    rcases List.mem_cons.mp hv with rfl | hv
    · exact (hP (hP' h)).2
    · exact (hP (hP' h)).1 v hv
  unfold declare
  dsimp only
  split
  · refine .problem_bind fun _ => ?_
    split
    · exact .problem_bind fun _ => hrest False.elim
    · exact hrest False.elim
  · split
    · exact .problem_bind fun _ => hrest False.elim
    · exact hrest id

theorem keeps_declare (name : Ident) (ty : Ty) (hP : P → l.Known ∧ ty.Known) :
    Keeps s P (cx.declare l name ty) fun r _ => r.1.Known :=
  keeps_declare_all name ty hP

/-- An expression that is analysed behind local variables. -/
theorem keeps_valueWith (hns : cx.names.Steady) (e : Expr) (hP : P → l.Known ∧ e.Parsed) :
    Keeps s P ((cx.withLocals l).value e) fun r _ =>
      r.1.Known ∧ ∀ x ∈ r.2.evaluated, x.FitFor cx.isStatic := by
  have hinner : (cx.withLocals l).names.Steady := fun cls {_ _} => hns cls
  refine (keeps_value hinner e hP).mono id fun _ _ _ h => ?_
  exact ⟨h.1, fun x hx => (h.2.2 x hx).toFitFor⟩

theorem keeps_localVar (hns : cx.names.Steady) (d : LocalVar)
    (hP : P → l.Known ∧ d.Parsed) :
    Keeps s P (cx.localVar l d) fun r _ => r.1.Known ∧ r.2.slot.isSome = true ∧
      ∀ x ∈ Expr.evaluated? r.2.init, x.FitFor cx.isStatic := by
  unfold localVar
  refine (NameScope.keeps_resolveType hns d.type).bind fun ty _ _ => ?_
  have hrest : ∀ {s P'} (init : Option Expr), (P' → l.Known ∧ ty.Known ∧
      ∀ x ∈ Expr.evaluated? init, x.FitFor cx.isStatic) →
      Keeps s P' (do
        let r ← cx.declare l d.name ty
        return (r.1, { d with init, slot := some r.2 })) fun r _ => r.1.Known ∧
          r.2.slot.isSome = true ∧ ∀ x ∈ Expr.evaluated? r.2.init, x.FitFor cx.isStatic := by
    intro s P' init hP'
    refine (keeps_declare d.name ty fun h => ⟨(hP' h).1, (hP' h).2.1⟩).bind fun r _ _ => ?_
    exact .pure fun h _ => ⟨h.2, rfl, (hP' h.1).2.2⟩
  dsimp only
  split
  · exact hrest none fun h => ⟨(hP h.1).1, h.2.known, List.forall_mem_nil _⟩
  · next e he =>
      refine (keeps_valueWith hns e fun h => ⟨(hP h.1).1, ?_⟩).bind fun r _ _ => ?_
      · have hparsed := (hP h.1).2.init
        rwa [he] at hparsed
      refine (NameScope.keeps_requireAssignable hns _ _ _).bind fun _ _ _ => ?_
      exact hrest (some r.2) fun h => ⟨(hP h.1.1.1).1, h.1.1.2.known, h.1.2.2⟩

theorem keeps_condition (hns : cx.names.Steady) (e : Expr) (hP : P → l.Known ∧ e.Parsed) :
    Keeps s P (cx.condition l e) fun e' _ => ∀ x ∈ e'.evaluated, x.FitFor cx.isStatic :=
  (keeps_valueWith hns e hP).bind fun _ _ _ =>
    (NameScope.keeps_requireAssignable hns _ _ _).bind fun _ _ _ => .pure fun h _ => h.1.2.2

theorem keeps_condition? (hns : cx.names.Steady) (e : Option Expr)
    (hP : P → l.Known ∧ Expr.Parsed? e) :
    Keeps s P (cx.condition? l e) fun e' _ =>
      ∀ x ∈ Expr.evaluated? e', x.FitFor cx.isStatic := by
  cases e with
  | none => exact .pure fun _ _ => nofun
  | some e => exact (keeps_condition hns e hP).bind fun _ _ _ => .pure fun h _ => h.2

theorem keeps_value? (hns : cx.names.Steady) (e : Option Expr)
    (hP : P → l.Known ∧ Expr.Parsed? e) :
    Keeps s P (cx.value? l e) fun e' _ => ∀ x ∈ Expr.evaluated? e', x.FitFor cx.isStatic := by
  cases e with
  | none => exact .pure fun _ _ => nofun
  | some e => exact (keeps_valueWith hns e hP).bind fun _ _ _ => .pure fun h _ => h.2.2

theorem keeps_effect (hns : cx.names.Steady) (e : Expr) (hP : P → l.Known ∧ e.Parsed) :
    Keeps s P (cx.effect l e) fun e' _ => ∀ x ∈ e'.evaluated, x.FitFor cx.isStatic := by
  unfold effect
  dsimp only
  split
  · exact .problem_bind fun _ => (keeps_valueWith hns e fun h => h.elim).bind fun _ _ _ =>
      .pure fun h => h.1.elim
  · exact (keeps_valueWith hns e hP).bind fun _ _ _ => .pure fun h _ => h.2.2

theorem keeps_forInit (hns : cx.names.Steady) (init : ForInit)
    (hP : P → l.Known ∧ init.Parsed) :
    Keeps s P (cx.forInit l init) fun r _ => r.1.Known ∧
      (∀ x ∈ r.2.evaluated, x.FitFor cx.isStatic) ∧
        ∀ d ∈ r.2.localVars, d.slot.isSome = true := by
  cases init with
  | none => exact .pure fun h _ => ⟨(hP h).1, nofun, nofun⟩
  | declare d =>
      refine (keeps_localVar hns d hP).bind fun r _ _ => .pure fun h _ => ?_
      exact ⟨h.2.1, h.2.2.2, by simpa [ForInit.localVars] using h.2.2.1⟩
  | expr pos e =>
      refine (keeps_effect hns e hP).bind fun e' _ _ => .pure fun h _ => ?_
      exact ⟨(hP h.1).1, h.2, nofun⟩

theorem keeps_adviseBody (keyword : String) (body : Stmt) :
    Keeps s P (cx.adviseBody keyword body) fun _ _ => True := by
  unfold adviseBody
  split
  · refine .get ?_
    split
    · exact .advise _ _ _
    · exact .pure fun _ _ => trivial
  · exact .pure fun _ _ => trivial

theorem keeps_requireFor (pos : Pos) : Keeps s P (cx.requireFor pos) fun _ _ => True := by
  refine .get ?_
  dsimp only
  split
  · exact .problem
  · exact .pure fun _ _ => trivial

theorem keeps_returned (hns : cx.names.Steady) (pos : Pos) (e : Option Expr)
    (hP : P → l.Known ∧ Expr.Parsed? e) :
    Keeps s P (cx.returned l pos e) fun e' _ =>
      (∀ x ∈ Expr.evaluated? e', x.FitFor cx.isStatic) ∧
        (cx.ret ≠ .void → e'.isSome = true) := by
  cases e with
  | none =>
      unfold returned
      dsimp only
      split
      · exact .problem_bind fun _ => .pure fun h => h.elim
      · next hret => exact .pure fun _ _ => ⟨nofun, fun h => absurd h hret⟩
  | some e =>
      refine (keeps_valueWith hns e hP).bind fun r _ _ => ?_
      dsimp only
      split
      · exact .problem_bind fun _ => .pure fun h => h.elim
      · exact (NameScope.keeps_requireAssignable hns _ _ _).bind fun _ _ _ =>
          .pure fun h _ => ⟨h.1.2.2, fun _ => rfl⟩

theorem keeps_thrown (hns : cx.names.Steady) (e : Expr) (hP : P → l.Known ∧ e.Parsed) :
    Keeps s P (cx.thrown l e) fun e' _ => ∀ x ∈ e'.evaluated, x.FitFor cx.isStatic :=
  (keeps_valueWith hns e hP).bind fun _ _ _ =>
    (NameScope.keeps_requireAssignable hns _ _ _).bind fun _ _ _ => .pure fun h _ => h.1.2.2

theorem keeps_lock (hns : cx.names.Steady) (e : Expr) (hP : P → l.Known ∧ e.Parsed) :
    Keeps s P (cx.lock l e) fun e' _ => ∀ x ∈ e'.evaluated, x.FitFor cx.isStatic := by
  refine (keeps_valueWith hns e hP).bind fun r _ _ => ?_
  dsimp only
  split
  · exact .problem_bind fun _ => .pure fun h => h.elim
  · exact .pure fun h _ => h.2.2

/-! ### Statements -/

mutual

/-- A statement that is analysed without an error is fit for code, and control leaves it as it did
before. -/
theorem keeps_stmt (hns : cx.names.Steady) : ∀ (st : Stmt) (l : Locals) {s : Session σ} {P : Prop},
    (P → l.Known ∧ st.Parsed) →
      Keeps s P (cx.stmt l st) fun r _ =>
        r.1.Known ∧ r.2.FitFor cx.isStatic ∧ Stmt.Concludes cx.ret st r.2
  | .block pos body, l, _, _, hP => by
      unfold stmt
      refine (keeps_stmts hns body l [] fun h => ⟨(hP h).1, (hP h).2, nofun⟩).bind
        fun r _ _ => .pure fun h _ => ⟨(hP h.1).1, ?_, ?_⟩
      · exact ⟨h.2.2.1.evaluated, h.2.2.1.declared⟩
      · obtain ⟨body', hbody, hconclude⟩ := h.2.2.2
        rw [hbody]
        exact ⟨Stmt.allComplete_of_concludes hconclude, Stmt.allReturned_of_concludes hconclude⟩
  | .declare d, l, _, _, hP => by
      unfold stmt
      refine (keeps_localVar hns d hP).bind fun r _ _ =>
        .pure fun h _ => ⟨h.2.1, ⟨h.2.2.2, ?_⟩, rfl, fun _ => nofun⟩
      simpa [Stmt.localVars] using h.2.2.1
  | .ifThen pos cond st, l, _, _, hP => by
      unfold stmt
      refine (keeps_condition hns cond fun h => ⟨(hP h).1, ?_⟩).bind fun cond' _ _ => ?_
      · exact (hP h).2.1
      refine (keeps_adviseBody _ _).bind fun _ _ _ => ?_
      refine (keeps_stmt hns st l fun h => ⟨(hP h.1.1).1, ?_⟩).bind fun r _ _ => ?_
      · exact (hP h.1.1).2.2
      refine .pure fun h _ => ⟨h.2.1, ⟨?_, h.2.2.1.declared⟩, rfl, h.2.2.2.returned⟩
      exact .append h.1.1.2 h.2.2.1.evaluated
  | .ifElse pos cond st st', l, _, _, hP => by
      unfold stmt
      refine (keeps_condition hns cond fun h => ⟨(hP h).1, ?_⟩).bind fun cond' _ _ => ?_
      · exact (hP h).2.1
      refine (keeps_adviseBody _ _).bind fun _ _ _ => ?_
      refine (keeps_stmt hns st l fun h => ⟨(hP h.1.1).1, ?_⟩).bind fun r _ _ => ?_
      · exact (hP h.1.1).2.2.1
      refine (keeps_stmt hns st' r.1 fun h => ⟨h.2.1, ?_⟩).bind fun r' _ _ => ?_
      · exact (hP h.1.1.1).2.2.2
      refine .pure fun h _ => ⟨h.2.1, ⟨?_, ?_⟩, ?_, fun hret => ?_⟩
      · exact .append (.append h.1.1.1.2 h.1.2.2.1.evaluated) h.2.2.1.evaluated
      · exact List.forall_mem_append.mpr ⟨h.1.2.2.1.declared, h.2.2.1.declared⟩
      · exact congrArg₂ or h.1.2.2.2.completes h.2.2.2.completes
      · exact List.forall_mem_append.mpr
          ⟨h.1.2.2.2.returned hret, h.2.2.2.returned hret⟩
  | .whileLoop pos cond body, l, _, _, hP => by
      unfold stmt
      refine (keeps_condition hns cond fun h => ⟨(hP h).1, ?_⟩).bind fun cond' _ hcond => ?_
      · exact (hP h).2.1
      refine (keeps_adviseBody _ _).bind fun _ _ _ => ?_
      refine (keeps_stmt hns body l fun h => ⟨(hP h.1.1).1, ?_⟩).bind fun r _ _ => ?_
      · exact (hP h.1.1).2.2
      refine .pure fun h _ => ⟨h.2.1, ⟨?_, h.2.2.1.declared⟩, ?_, h.2.2.2.returned⟩
      · exact .append h.1.1.2 h.2.2.1.evaluated
      · exact congrArg not (gives_condition cond _ _ _ hcond)
  | .forLoop pos init cond update body, l, _, P, hP => by
      unfold stmt
      refine (keeps_requireFor pos).bind fun _ _ _ => ?_
      refine (keeps_forInit hns init fun h => ⟨(hP h.1).1, (hP h.1).2.1⟩).bind
        fun r _ _ => ?_
      refine (keeps_condition? hns cond fun h => ⟨h.2.1, (hP h.1.1).2.2.1⟩).bind
        fun cond' _ hcond => ?_
      refine (keeps_value? hns update fun h => ⟨h.1.2.1, (hP h.1.1.1).2.2.2.1⟩).bind
        fun update' _ _ => ?_
      refine (keeps_adviseBody _ _).bind fun _ _ _ => ?_
      refine (keeps_stmt hns body r.1 fun h =>
        ⟨h.1.1.1.2.1, (hP h.1.1.1.1.1).2.2.2.2⟩).bind fun r' _ _ => .pure fun h _ => ?_
      obtain ⟨⟨⟨⟨⟨⟨h, -⟩, -, hinit, hvars⟩, hbool⟩, hupdate⟩, -⟩, -, hbody, hleft⟩ := h
      refine ⟨(hP h).1, ⟨?_, List.forall_mem_append.mpr ⟨hvars, hbody.declared⟩⟩, ?_,
        hleft.returned⟩
      · exact .append (.append (.append hinit hbool) hupdate) hbody.evaluated
      · exact gives_condition? cond _ _ _ hcond
  | .ret pos value, l, _, _, hP => by
      unfold stmt
      refine (keeps_returned hns pos value hP).bind fun _ _ _ =>
        .pure fun h _ => ⟨(hP h.1).1, ⟨h.2.1, nofun⟩, rfl, fun hret => ?_⟩
      exact List.forall_mem_singleton.mpr (h.2.2 hret)
  | .throw pos value, l, _, _, hP => by
      unfold stmt
      exact (keeps_thrown hns value hP).bind fun _ _ _ =>
        .pure fun h _ => ⟨(hP h.1).1, ⟨h.2, nofun⟩, rfl, fun _ => nofun⟩
  | .synchronized pos locked bodyPos body, l, _, _, hP => by
      unfold stmt
      refine (keeps_lock hns locked fun h => ⟨(hP h).1, ?_⟩).bind fun locked' _ _ => ?_
      · exact (hP h).2.1
      refine (keeps_stmts hns body l [] fun h => ⟨(hP h.1).1, ?_, nofun⟩).bind
        fun r _ _ => .pure fun h _ => ⟨(hP h.1.1).1, ⟨?_, h.2.2.1.declared⟩, ?_⟩
      · exact (hP h.1).2.2
      · exact .append h.1.2 h.2.2.1.evaluated
      · obtain ⟨body', hbody, hconclude⟩ := h.2.2.2
        rw [hbody]
        exact ⟨Stmt.allComplete_of_concludes hconclude, Stmt.allReturned_of_concludes hconclude⟩
  | .expr pos value, l, _, _, hP => by
      unfold stmt
      exact (keeps_effect hns value hP).bind fun _ _ _ =>
        .pure fun h _ => ⟨(hP h.1).1, ⟨h.2, nofun⟩, rfl, fun _ => nofun⟩
  | .empty pos, l, _, _, hP =>
      .pure fun h _ => ⟨(hP h).1, ⟨nofun, nofun⟩, rfl, fun _ => nofun⟩

theorem keeps_stmts (hns : cx.names.Steady) : ∀ (ss : List Stmt) (l : Locals) (done : List Stmt)
    {s : Session σ} {P : Prop},
    (P → l.Known ∧ Stmt.AllParsed ss ∧ ∀ st ∈ done, st.FitFor cx.isStatic) →
      Keeps s P (cx.stmts l done ss) fun r _ => r.1.Known ∧ Stmt.AllFitFor cx.isStatic r.2 ∧
        ∃ ss', r.2 = done.reverse ++ ss' ∧ List.Forall₂ (Stmt.Concludes cx.ret) ss ss'
  | [], l, done, _, _, hP => .pure fun h _ => by
      refine ⟨(hP h).1, Stmt.allFitFor_iff.mpr fun st hst => ?_, [],
        (List.append_nil _).symm, .nil⟩
      exact (hP h).2.2 st (List.mem_reverse.mp hst)
  | st :: rest, l, done, _, _, hP => by
      unfold stmts
      refine (keeps_stmt hns st l fun h => ⟨(hP h).1, ?_⟩).bind fun r _ _ => ?_
      · exact (hP h).2.1.1
      refine (keeps_stmts hns rest r.1 (r.2 :: done) fun h => ⟨h.2.1, ?_, ?_⟩).mono id
        fun r' _ h h' => ⟨h'.1, h'.2.1, ?_⟩
      · exact (hP h.1).2.1.2
      · exact List.forall_mem_cons.mpr ⟨h.2.2.1, (hP h.1).2.2⟩
      · obtain ⟨ss', hss', hconclude⟩ := h'.2.2
        refine ⟨r.2 :: ss', ?_, .cons h.2.2.2 hconclude⟩
        rw [hss', List.reverse_cons, List.append_assoc, List.singleton_append]

end

end BodyScope

end ProbeLang
