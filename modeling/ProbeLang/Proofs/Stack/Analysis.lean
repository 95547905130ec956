import ProbeLang.Proofs.Analysis.Stmt
import ProbeLang.Proofs.Stack.Methods
import ProbeLang.Proofs.Stack.Values

/-!
# Analysed code has what it uses on the stack

Whatever is analysed without an error in a plain session uses values only: expressions by induction,
and then statements. Where a value is stored, tested, returned or thrown the type that is asked for is
one of values, and a reference is asked for where one is locked.
-/

namespace ProbeLang

open SessionM

namespace BodyScope

variable {σ : Type} {s : Session σ} {P : Prop} {cx : BodyScope σ}

/-! ## Expressions -/

/-- An operand uses values if it does by itself and all that is evaluated before it does. -/
theorem usesOperand_value {e : Expr} {ty : Ty} (hty : ty.Yielded) (hself : (e.withTy ty).Uses)
    (hused : ∀ x ∈ Expr.evaluatedAll (e.withTy ty).used, x.Uses) : UsesOperand (.value ty, e) := by
  intro ty' hty'
  cases hty'
  refine ⟨hty, fun x hx => ?_⟩
  rw [Expr.evaluated_eq] at hx
  rcases List.mem_cons.mp hx with rfl | hx
  · exact hself
  · exact hused x hx

theorem UsesValue.ty?_ne {ty : Ty} {e : Expr} (h : UsesValue ty e) (hty : ty ≠ .void) :
    e.ty? ≠ some .void := by
  rw [h.ty?]
  exact fun heq => hty (Option.some.inj heq)

/-- Values that are used one after the other. -/
theorem uses_of_values (es : List Expr)
    (h : ∀ e ∈ es, e.ty? ≠ some .void ∧ ∀ x ∈ e.evaluated, x.Uses) :
    (∀ e ∈ es, e.ty? ≠ some .void) ∧ ∀ x ∈ Expr.evaluatedAll es, x.Uses := by
  refine ⟨fun e he => (h e he).1, fun x hx => ?_⟩
  obtain ⟨e, he, hx⟩ := Expr.mem_evaluatedAll.mp hx
  exact (h e he).2 x hx

/-- A variable is a value. -/
theorem ne_void_of_isVariable {e : Expr} (h : e.Uses) (hv : e.isVariable = true) :
    e.ty? ≠ some .void := by
  cases e with
  | call n callee args | invoke n target callee args =>
      obtain ⟨owner, isStatic, d, params, ret, hr, -⟩ : n.Calls callee.name args := h.own
      simp [Expr.isVariable, Expr.note, hr] at hv
  | new n type args => exact h.own.1
  | _ => exact h.own

/-- Whether types are those of expressions, which use values only. -/
structure UsesValues (types : List Ty) (es : List Expr) : Prop where
  types : List.Forall₂ (fun ty e => e.ty? = some ty) types es
  evaluated : ∀ x ∈ Expr.evaluatedAll es, x.Uses

/-- A call of the method that has been found has an argument for each of its parameters. -/
theorem Callee.calls {types : List Ty} {r : Ty × Option Referent} {owner : String} {m : MethodSig}
    (h : Callee types r owner m) {n : Note} {name : String} {args : List Expr} (hname : Word name)
    (hrefers : n.refers = r.2) (hty : n.ty = some r.1) (hargs : UsesValues types args) :
    n.Calls name args := by
  have hread : readMethodDescriptor m.descriptor = some (m.params, m.ret) :=
    readMethodDescriptor_methodDescriptor (fun p hp => (h.callable.params p hp).2.encodable)
      h.callable.ret.2.encodable
  have htext : m.descriptor.toList =
      '(' :: (String.join (m.params.map Ty.descriptor) ++ ")" ++ m.ret.descriptor).toList := by
    simp [MethodSig.descriptor, methodDescriptor, String.toList_append]
  refine ⟨owner, m.isStatic, m.descriptor, m.params, m.ret, hrefers.trans h.refers, hread, ?_,
    h.params.trans hargs.types.length_eq, by rw [hty, h.ret]⟩
  rw [referredSignature?_methodReference h.callable.owner.no_parenthesis
    hname.spelled.no_parenthesis htext, hread]

/-- The arguments of the method that has been found are values. -/
theorem Callee.args {types : List Ty} {r : Ty × Option Referent} {owner : String} {m : MethodSig}
    (h : Callee types r owner m) {args : List Expr} (hargs : UsesValues types args) :
    ∀ e ∈ args, e.ty? ≠ some .void := by
  intro e he
  obtain ⟨ty, hmem, hty⟩ := exists_of_mem_right hargs.types he
  rw [hty]
  exact fun heq => h.values ty hmem (Option.some.inj heq)

theorem keeps_settle_value (r : Operand × Expr) (hP : P → UsesOperand r) :
    Keeps s P (cx.settle r) fun r' _ => UsesValue r'.1 r'.2 := by
  obtain ⟨ty | cls | segments, e⟩ := r
  · exact .pure fun h _ => ⟨(hP h ty rfl).1, ty?_withTy ty e, (hP h ty rfl).2⟩
  · exact .problem_bind fun _ => .pure fun h => h.elim
  · unfold settle packageProblem
    dsimp only
    split <;> exact .problem_bind fun _ => .pure fun h => h.elim

/-- What is assigned to and what is assigned are values. -/
theorem usesOperand_assign {n : Note} {target value : Expr} {ty ty' : Ty}
    (htarget : UsesValue ty target) (hvalue : UsesValue ty' value) (hty' : ty' ≠ .void)
    (hplace : target.isVariable = true) : UsesOperand (.value ty, .assign n target value) := by
  have hself := htarget.evaluated target target.mem_evaluated_self
  have hne := ne_void_of_isVariable hself hplace
  have hsub : ∀ x ∈ target.used, ∀ y ∈ x.evaluated, y.Uses := fun x hx y hy => by
    refine htarget.evaluated y ?_
    rw [Expr.evaluated_eq]
    exact List.mem_cons_of_mem _ (Expr.mem_evaluatedAll.mpr ⟨x, hx, hy⟩)
  have hof : ∀ x ∈ target.used, x.ty? ≠ some .void ∧ ∀ y ∈ x.evaluated, y.Uses :=
    fun x hx => ⟨hself.used x hx, hsub x hx⟩
  have hlast : ∀ x ∈ [value], x.ty? ≠ some .void ∧ ∀ y ∈ x.evaluated, y.Uses :=
    List.forall_mem_singleton.mpr ⟨hvalue.ty?_ne hty', hvalue.evaluated⟩
  have hused : ∀ x ∈ ((Expr.assign n target value).withTy ty).used,
      x.ty? ≠ some .void ∧ ∀ y ∈ x.evaluated, y.Uses := by
    cases target with
    | field m of member => exact List.forall_mem_append.mpr ⟨hof, hlast⟩
    | index m of at_ => exact List.forall_mem_append.mpr ⟨hof, hlast⟩
    | _ => exact hlast
  obtain ⟨hvalues, hevaluated⟩ := uses_of_values _ hused
  refine usesOperand_value htarget.yielded ⟨hvalues, ?_⟩ hevaluated
  rw [htarget.ty?] at hne
  exact hne

mutual

/-- An expression that is analysed without an error uses values. -/
theorem ensures_operand (hns : cx.names.Steady) : ∀ (e : Expr) {s : Session σ} {P : Prop},
    (P → cx.LocalsValued ∧ e.Parsed) → Ensures s P (cx.operand e) fun r _ => UsesOperand r
  | .literal n v, _, _, _ => by
      refine .pure fun _ _ _ => ?_
      have hty : v.ty.Valued := by cases v <;> trivial
      exact usesOperand_value hty.yielded
        ⟨List.forall_mem_nil _, fun h => hty.ne_void (Option.some.inj h)⟩ (List.forall_mem_nil _)
  | .name n name, _, _, hP => by
      unfold operand
      refine (ensures_nameOperand hns n.pos name fun h => (hP h).1).bind fun r _ _ => ?_
      refine .pure fun h _ _ ty hty => ?_
      have hvalued := h.2 ty hty
      exact usesOperand_value hvalued.yielded
        ⟨List.forall_mem_nil _, fun h => hvalued.ne_void (Option.some.inj h)⟩
        (List.forall_mem_nil _) ty rfl
  | .this n, _, _, _ => by
      unfold operand
      refine .bind_keeps (keeps_thisTy_value n.pos) fun ty _ _ => .pure fun h _ _ => ?_
      exact usesOperand_value h.2.yielded
        ⟨List.forall_mem_nil _, fun heq => h.2.ne_void (Option.some.inj heq)⟩
        (List.forall_mem_nil _)
  | .field n target name, _, _, hP => by
      unfold operand
      refine (ensures_operand hns target fun h => ⟨(hP h).1, (hP h).2.operand ?_⟩).bind
        fun r _ _ => ?_
      · exact List.mem_cons_self
      obtain ⟨o, target⟩ := r
      refine (ensures_memberOperand hns _ name o fun h ty hty => (h.2 ty hty).1).bind
        fun r _ _ => .pure fun h _ _ ty hty => ?_
      obtain ⟨hvalued, hof⟩ := h.2 ty hty
      have hown : some ty ≠ some .void := fun h => hvalued.ne_void (Option.some.inj h)
      rcases hof with ⟨owner, d, hr⟩ | ⟨ty', rfl, hty'⟩
      · have hstatic : Note.isStaticField { n with refers := r.2, ty := some ty } = true := by
          simp [Note.isStaticField, hr]
        refine usesOperand_value hvalued.yielded ⟨fun x hx => ?_, hown⟩ (fun x hx => ?_) ty rfl
        all_goals
          simp only [Expr.withTy, Expr.mapNote, Expr.used, hstatic, if_true] at hx
          cases hx
      · have huses : ∀ x ∈ [target.withTy ty'], x.ty? ≠ some .void ∧ ∀ y ∈ x.evaluated, y.Uses := by
          refine List.forall_mem_singleton.mpr ⟨?_, (h.1.2 ty' rfl).2⟩
          rw [ty?_withTy]
          exact fun h => hty' (Option.some.inj h)
        obtain ⟨hvalues, hevaluated⟩ := uses_of_values
          (if Note.isStaticField { n with refers := r.2, ty := some ty } then []
            else [target.withTy ty']) fun x hx => huses x (List.mem_ite_nil_left.mp hx).2
        have hfield : UsesOperand
            (.value ty, .field { n with refers := r.2 } (target.withTy ty') name) :=
          usesOperand_value hvalued.yielded ⟨hvalues, hown⟩ hevaluated
        exact hfield ty rfl
  | .call n name args, _, _, hP => by
      unfold operand
      refine (ensures_values hns args fun h => ⟨(hP h).1, (hP h).2.operands⟩).bind fun r _ _ => ?_
      refine (ensures_callEnclosing hns name r.1 _ _).bind fun r' _ _ => .pure fun h _ _ => ?_
      obtain ⟨owner, m, hcallee⟩ := h.2
      refine usesOperand_value (hcallee.ret ▸ hcallee.callable.ret.1) ⟨hcallee.args h.1.2, ?_⟩
        h.1.2.evaluated
      exact hcallee.calls (hP h.1.1).2.self.2 rfl rfl h.1.2
  | .invoke n target name args, _, _, hP => by
      unfold operand
      refine (ensures_values hns args fun h => ⟨(hP h).1, ?_⟩).bind fun r _ _ => ?_
      · exact Parse.allParsed_iff.mpr fun e he =>
          (hP h).2.operand (List.mem_cons_of_mem _ he)
      refine (ensures_operand hns target fun h => ⟨(hP h.1).1, (hP h.1).2.operand ?_⟩).bind
        fun r' _ _ => ?_
      · exact List.mem_cons_self
      refine (ensures_callOperand hns name r.1 r' fun h => h.2).bind fun r'' _ _ =>
        .pure fun h _ _ => ?_
      obtain ⟨owner, m, hcallee, htarget⟩ := h.2
      have huses : ∀ x ∈ (if Note.isStaticMethod { n with refers := r''.2.1, ty := some r''.1 } then []
          else [r''.2.2]) ++ r.2, x.ty? ≠ some .void ∧ ∀ y ∈ x.evaluated, y.Uses := by
        refine List.forall_mem_append.mpr ⟨fun x hx => ?_, fun x hx => ⟨?_, fun y hy => ?_⟩⟩
        · obtain ⟨hstatic, hx⟩ := List.mem_ite_nil_left.mp hx
          obtain rfl := List.mem_singleton.mp hx
          rcases htarget with htarget | ⟨ty, hty, htarget⟩
          · have hrefers : r''.2.1 = some (.method owner m.isStatic m.descriptor) := hcallee.refers
            simp [Note.isStaticMethod, hrefers, htarget] at hstatic
          · exact ⟨htarget.ty?_ne hty, htarget.evaluated⟩
        · exact hcallee.args h.1.1.2 x hx
        · exact h.1.1.2.evaluated y (Expr.mem_evaluatedAll.mpr ⟨x, hx, hy⟩)
      obtain ⟨hvalues, hevaluated⟩ := uses_of_values _ huses
      refine usesOperand_value (hcallee.ret ▸ hcallee.callable.ret.1) ⟨hvalues, ?_⟩ hevaluated
      exact hcallee.calls (hP h.1.1.1).2.self.2 rfl rfl h.1.1.2
  | .new n type args, _, _, hP => by
      unfold operand
      refine (ensures_values hns args fun h => ⟨(hP h).1, (hP h).2.operands⟩).bind fun r _ _ => ?_
      refine (ensures_create hns n.pos type r.1 fun h => (hP h.1).2.self.2).bind
        fun r' _ _ => .pure fun h _ _ => ?_
      obtain ⟨cls, hty, hr, hspelled⟩ := h.2
      refine usesOperand_value (hty ▸ .inr trivial) ⟨List.forall_mem_nil _, ?_, fun cls' hcls => ?_⟩
        (List.forall_mem_nil _)
      · exact fun heq => by
          rw [hty] at heq
          cases heq
      · obtain rfl : cls = cls' := by
          have hcls : r'.2 = some (.cls cls') := hcls
          rw [hr] at hcls
          cases hcls
          rfl
        exact callEffect?_initReference hspelled
  | .newArray n elem length, _, _, hP => by
      unfold operand
      refine (ensures_operand hns length fun h => ⟨(hP h).1, (hP h).2.operand ?_⟩).bind
        fun r _ _ => ?_
      · exact List.mem_cons_self
      refine .bind_keeps (keeps_settle_value r fun h => h.2) fun r' _ _ => ?_
      refine .bind_keeps (keeps_requireIndex_value _ r'.1 fun h => h.2.yielded) fun _ _ _ => ?_
      refine .bind_keeps (NameScope.keeps_resolveType hns elem) fun ty _ _ => ?_
      split
      · exact .pure fun h => h.2.known.elim
      · refine .pure fun h _ _ => ?_
        have helem : ty.Valued := h.2.valued (hP h.1.1.1.1).2.self.2
        obtain ⟨hvalues, hevaluated⟩ := uses_of_values [r'.2]
          (List.forall_mem_singleton.mpr ⟨h.1.1.2.ty?_ne h.1.2, h.1.1.2.evaluated⟩)
        exact usesOperand_value (.inr helem) ⟨hvalues, nofun⟩ hevaluated
  | .index n target i, _, _, hP => by
      unfold operand
      refine (ensures_operand hns target fun h => ⟨(hP h).1, (hP h).2.operand ?_⟩).bind
        fun r _ _ => ?_
      · exact List.mem_cons_self
      refine .bind_keeps (keeps_settle_value r fun h => h.2) fun target' _ _ => ?_
      refine (ensures_operand hns i fun h => ⟨(hP h.1.1).1, (hP h.1.1).2.operand ?_⟩).bind
        fun r' _ _ => ?_
      · exact List.mem_cons_of_mem _ List.mem_cons_self
      refine .bind_keeps (keeps_settle_value r' fun h => h.2) fun i' _ _ => ?_
      refine .bind_keeps (keeps_requireIndex_value _ i'.1 fun h => h.2.yielded) fun _ _ _ => ?_
      refine .bind_keeps (keeps_elementTy_value _ target'.1 fun h => h.1.1.1.2.yielded)
        fun ty _ _ => .pure fun h _ _ => ?_
      obtain ⟨⟨⟨⟨⟨-, htarget⟩, -⟩, hi⟩, hindex⟩, hvalued, harray⟩ := h
      obtain ⟨hvalues, hevaluated⟩ := uses_of_values [target'.2, i'.2]
        (List.forall_mem_cons.mpr ⟨⟨htarget.ty?_ne harray, htarget.evaluated⟩,
          List.forall_mem_singleton.mpr ⟨hi.ty?_ne hindex, hi.evaluated⟩⟩)
      exact usesOperand_value hvalued.yielded
        ⟨hvalues, fun h => hvalued.ne_void (Option.some.inj h)⟩ hevaluated
  | .unary n op e, _, _, hP => by
      unfold operand
      refine (ensures_operand hns e fun h => ⟨(hP h).1, (hP h).2.operand ?_⟩).bind fun r _ _ => ?_
      · exact List.mem_cons_self
      refine .bind_keeps (keeps_settle_value r fun h => h.2) fun e' _ _ => ?_
      refine .bind_keeps (keeps_unary_value n.pos op e'.1 fun h => h.2.yielded) fun ty _ _ =>
        .pure fun h _ _ => ?_
      obtain ⟨⟨-, he⟩, hvalued, hne⟩ := h
      obtain ⟨hvalues, hevaluated⟩ := uses_of_values [e'.2]
        (List.forall_mem_singleton.mpr ⟨he.ty?_ne hne, he.evaluated⟩)
      exact usesOperand_value hvalued.yielded
        ⟨hvalues, fun h => hvalued.ne_void (Option.some.inj h)⟩ hevaluated
  | .binary n op lhs rhs, _, _, hP => by
      unfold operand
      refine (ensures_operand hns lhs fun h => ⟨(hP h).1, (hP h).2.operand ?_⟩).bind
        fun r _ _ => ?_
      · exact List.mem_cons_self
      refine .bind_keeps (keeps_settle_value r fun h => h.2) fun lhs' _ _ => ?_
      refine (ensures_operand hns rhs fun h => ⟨(hP h.1.1).1, (hP h.1.1).2.operand ?_⟩).bind
        fun r' _ _ => ?_
      · exact List.mem_cons_of_mem _ List.mem_cons_self
      refine .bind_keeps (keeps_settle_value r' fun h => h.2) fun rhs' _ _ => ?_
      refine .bind_keeps (keeps_binary_values hns n.pos op lhs'.1 rhs'.1 fun h =>
        ⟨h.1.1.2.yielded, h.2.yielded⟩) fun ty _ _ => .pure fun h _ _ => ?_
      obtain ⟨⟨⟨⟨-, hlhs⟩, -⟩, hrhs⟩, hvalued, hl, hr⟩ := h
      obtain ⟨hvalues, hevaluated⟩ := uses_of_values [lhs'.2, rhs'.2]
        (List.forall_mem_cons.mpr ⟨⟨hlhs.ty?_ne hl, hlhs.evaluated⟩,
          List.forall_mem_singleton.mpr ⟨hrhs.ty?_ne hr, hrhs.evaluated⟩⟩)
      exact usesOperand_value hvalued.yielded
        ⟨hvalues, fun h => hvalued.ne_void (Option.some.inj h)⟩ hevaluated
  | .assign n target value, _, _, hP => by
      unfold operand
      refine (ensures_operand hns target fun h => ⟨(hP h).1, (hP h).2.operand ?_⟩).bind
        fun r _ _ => ?_
      · exact List.mem_cons_self
      refine .bind_keeps (keeps_settle_value r fun h => h.2) fun target' _ _ => ?_
      dsimp only
      split
      · exact .problem_bind fun _ => (ensures_operand hns value fun h => h.elim).bind fun r' _ _ =>
          .bind_keeps (keeps_settle_value r' fun h => h.1.elim) fun value' _ _ =>
            .bind_keeps (NameScope.keeps_requireAssignable hns _ _ _) fun _ _ _ =>
              .pure fun h => h.1.1.1.elim
      · next hvariable =>
          refine (ensures_operand hns value fun h => ⟨(hP h.1.1).1, (hP h.1.1).2.operand ?_⟩).bind
            fun r' _ _ => ?_
          · exact List.mem_cons_of_mem _ List.mem_cons_self
          refine .bind_keeps (keeps_settle_value r' fun h => h.2) fun value' _ _ => ?_
          refine .bind_keeps (NameScope.keeps_require_value hns _ _ _) fun _ _ _ =>
            .pure fun h _ _ => ?_
          obtain ⟨⟨⟨⟨-, htarget⟩, -⟩, hvalue⟩, hassigned⟩ := h
          have hplace : target'.2.isVariable = true := by
            simpa [htarget.yielded.ne_unknown] using hvariable
          have hself := htarget.evaluated target'.2 target'.2.mem_evaluated_self
          have hne := ne_void_of_isVariable hself hplace
          rw [htarget.ty?] at hne
          refine usesOperand_assign htarget hvalue (hassigned (htarget.yielded.valued ?_)) hplace
          exact fun h => hne (congrArg some h)

theorem ensures_values (hns : cx.names.Steady) : ∀ (es : List Expr) {s : Session σ} {P : Prop},
    (P → cx.LocalsValued ∧ Expr.AllParsed es) →
      Ensures s P (cx.values es) fun r _ => UsesValues r.1 r.2
  | [], _, _, _ => .pure fun _ _ _ => ⟨.nil, List.forall_mem_nil _⟩
  | e :: rest, _, _, hP => by
      unfold values
      refine (ensures_operand hns e fun h => ⟨(hP h).1, ?_⟩).bind fun r _ _ => ?_
      · exact Parse.allParsed_iff.mp (hP h).2 e List.mem_cons_self
      refine .bind_keeps (keeps_settle_value r fun h => h.2) fun e' _ _ => ?_
      refine (ensures_values hns rest fun h => ⟨(hP h.1.1).1, ?_⟩).bind fun rest' _ _ =>
        .pure fun h _ _ => ?_
      · exact Parse.allParsed_iff.mpr fun x hx =>
          Parse.allParsed_iff.mp (hP h.1.1).2 x (List.mem_cons_of_mem _ hx)
      · exact ⟨.cons h.1.2.ty? h.2.types,
          List.forall_mem_append.mpr ⟨h.1.2.evaluated, h.2.evaluated⟩⟩

end

/-- An expression that is analysed as a value without an error uses values. -/
theorem ensures_value (hns : cx.names.Steady) (e : Expr) (hP : P → cx.LocalsValued ∧ e.Parsed) :
    Ensures s P (cx.value e) fun r _ => UsesValue r.1 r.2 :=
  (ensures_operand hns e hP).bind fun r _ _ => .of_keeps (keeps_settle_value r And.right)

theorem UsesValue.consumes {ty : Ty} {e : Expr} (h : UsesValue ty e) (hty : ty ≠ .void) :
    Expr.Consumes e.evaluated [e] :=
  ⟨h.evaluated, List.forall_mem_singleton.mpr (h.ty?_ne hty)⟩

end BodyScope

/-! ## Parts of statements -/

/-- Whether the variables in scope have values. -/
def Locals.Valued (l : Locals) : Prop :=
  ∀ v ∈ l.vars, v.ty.Valued

theorem Stmt.consumesAll_iff {ss : List Stmt} :
    Expr.Consumes (Stmt.evaluatedAll ss) (Stmt.usedAll ss) ↔
      ∀ st ∈ ss, Expr.Consumes st.evaluated st.used := by
  induction ss with
  | nil => exact iff_of_true .nil (List.forall_mem_nil _)
  | cons st ss ih =>
      rw [List.forall_mem_cons, ← ih]
      constructor
      · intro h
        obtain ⟨he, hes⟩ := List.forall_mem_append.mp h.evaluated
        obtain ⟨hu, hus⟩ := List.forall_mem_append.mp h.used
        exact ⟨⟨he, hu⟩, hes, hus⟩
      · intro h
        exact h.1.append h.2

namespace BodyScope

variable {σ : Type} {s : Session σ} {P : Prop} {cx : BodyScope σ} {l : Locals}

/-- An expression that is analysed behind local variables. -/
theorem ensures_valueWith (hns : cx.names.Steady) (e : Expr) (hP : P → l.Valued ∧ e.Parsed) :
    Ensures s P ((cx.withLocals l).value e) fun r _ => UsesValue r.1 r.2 := by
  have hinner : (cx.withLocals l).names.Steady := fun cls {_ _} => hns cls
  exact ensures_value hinner e hP

/-- An expression whose value goes where a type of values is asked for. -/
theorem ensures_required (hns : cx.names.Steady) (e : Expr) (ty : Ty)
    (hP : P → l.Valued ∧ e.Parsed ∧ ty.Valued) :
    Ensures s P (do
      let (found, e) ← (cx.withLocals l).value e
      cx.names.requireAssignable e.pos found ty
      return e) fun e' _ => Expr.Consumes e'.evaluated [e'] :=
  (ensures_valueWith hns e fun h => ⟨(hP h).1, (hP h).2.1⟩).bind fun _ _ _ =>
    .bind_keeps (NameScope.keeps_require_value hns _ _ _) fun _ _ _ => .pure fun h _ _ =>
      h.1.2.consumes (h.2 (hP h.1.1).2.2)

theorem ensures_localVar (hns : cx.names.Steady) (d : LocalVar) (hP : P → l.Valued ∧ d.Parsed) :
    Ensures s P (cx.localVar l d) fun r _ => r.1.Valued ∧
      Expr.Consumes (Expr.evaluated? r.2.init) (Expr.used? r.2.init) := by
  unfold localVar
  refine .bind_keeps (NameScope.keeps_resolveType hns d.type) fun ty t _ => ?_
  have hvalued (h : P ∧ d.type.Denotes t.symbols ty) : ty.Valued := h.2.valued (hP h.1).2.base
  have hrest : ∀ {s P'} (init : Option Expr), (P' → l.Valued ∧ ty.Valued ∧
      Expr.Consumes (Expr.evaluated? init) (Expr.used? init)) →
      Ensures s P' (do
        let r ← cx.declare l d.name ty
        return (r.1, { d with init, slot := some r.2 })) fun r _ => r.1.Valued ∧
          Expr.Consumes (Expr.evaluated? r.2.init) (Expr.used? r.2.init) := by
    intro s P' init hP'
    refine .bind_keeps (keeps_declare_all d.name ty fun h => ⟨(hP' h).1, (hP' h).2.1⟩)
      fun r _ _ => .pure fun h _ _ => ⟨h.2, (hP' h.1).2.2⟩
  dsimp only
  split
  · exact hrest none fun h => ⟨(hP h.1).1, hvalued h, .nil⟩
  · next e he =>
      refine (ensures_valueWith hns e fun h => ⟨(hP h.1).1, ?_⟩).bind fun r _ _ => ?_
      · have hparsed := (hP h.1).2.init
        rwa [he] at hparsed
      refine .bind_keeps (NameScope.keeps_require_value hns _ _ _) fun _ _ _ => ?_
      exact hrest (some r.2) fun h => ⟨(hP h.1.1.1).1, hvalued h.1.1,
        h.1.2.consumes (h.2 (hvalued h.1.1))⟩

theorem ensures_condition (hns : cx.names.Steady) (e : Expr) (hP : P → l.Valued ∧ e.Parsed) :
    Ensures s P (cx.condition l e) fun e' _ => Expr.Consumes e'.evaluated [e'] :=
  ensures_required hns e .boolean fun h => ⟨(hP h).1, (hP h).2, trivial⟩

theorem ensures_condition? (hns : cx.names.Steady) (e : Option Expr)
    (hP : P → l.Valued ∧ Expr.Parsed? e) :
    Ensures s P (cx.condition? l e) fun e' _ =>
      Expr.Consumes (Expr.evaluated? e') (Expr.used? e') := by
  cases e with
  | none => exact .pure fun _ _ _ => .nil
  | some e => exact (ensures_condition hns e hP).bind fun _ _ _ => .pure fun h _ _ => h.2

theorem ensures_value? (hns : cx.names.Steady) (e : Option Expr)
    (hP : P → l.Valued ∧ Expr.Parsed? e) :
    Ensures s P (cx.value? l e) fun e' _ => Expr.Consumes (Expr.evaluated? e') [] := by
  cases e with
  | none => exact .pure fun _ _ _ => .nil
  | some e =>
      exact (ensures_valueWith hns e hP).bind fun _ _ _ => .pure fun h _ _ =>
        ⟨h.2.evaluated, List.forall_mem_nil _⟩

theorem ensures_effect (hns : cx.names.Steady) (e : Expr) (hP : P → l.Valued ∧ e.Parsed) :
    Ensures s P (cx.effect l e) fun e' _ => Expr.Consumes e'.evaluated [] := by
  unfold effect
  dsimp only
  split
  · exact .problem_bind fun _ => (ensures_valueWith hns e fun h => h.elim).bind fun _ _ _ =>
      .pure fun h => h.1.elim
  · exact (ensures_valueWith hns e hP).bind fun _ _ _ => .pure fun h _ _ =>
      ⟨h.2.evaluated, List.forall_mem_nil _⟩

theorem ensures_forInit (hns : cx.names.Steady) (init : ForInit)
    (hP : P → l.Valued ∧ init.Parsed) :
    Ensures s P (cx.forInit l init) fun r _ => r.1.Valued ∧
      Expr.Consumes r.2.evaluated r.2.used := by
  cases init with
  | none => exact .pure fun h _ _ => ⟨(hP h).1, .nil⟩
  | declare d =>
      exact (ensures_localVar hns d hP).bind fun r _ _ => .pure fun h _ _ => h.2
  | expr pos e =>
      exact (ensures_effect hns e hP).bind fun e' _ _ => .pure fun h _ _ => ⟨(hP h.1).1, h.2⟩

theorem ensures_returned (hns : cx.names.Steady) (pos : Pos) (e : Option Expr)
    (hP : P → l.Valued ∧ cx.ret.Yielded ∧ Expr.Parsed? e) :
    Ensures s P (cx.returned l pos e) fun e' _ =>
      Expr.Consumes (Expr.evaluated? e') (Expr.used? e') := by
  cases e with
  | none =>
      unfold returned
      dsimp only
      split
      · exact .problem_bind fun _ => .pure fun h => h.elim
      · exact .pure fun _ _ _ => .nil
  | some e =>
      refine (ensures_valueWith hns e fun h => ⟨(hP h).1, (hP h).2.2⟩).bind fun r _ _ => ?_
      dsimp only
      split
      · exact .problem_bind fun _ => .pure fun h => h.elim
      · next hret =>
          exact .bind_keeps (NameScope.keeps_require_value hns _ _ _) fun _ _ _ =>
            .pure fun h _ _ => h.1.2.consumes (h.2 ((hP h.1.1).2.1.valued hret))

theorem ensures_thrown (hns : cx.names.Steady) (e : Expr) (hP : P → l.Valued ∧ e.Parsed) :
    Ensures s P (cx.thrown l e) fun e' _ => Expr.Consumes e'.evaluated [e'] :=
  ensures_required hns e (.cls errorName) fun h => ⟨(hP h).1, (hP h).2, trivial⟩

theorem ensures_lock (hns : cx.names.Steady) (e : Expr) (hP : P → l.Valued ∧ e.Parsed) :
    Ensures s P (cx.lock l e) fun e' _ => Expr.Consumes e'.evaluated [e'] := by
  refine (ensures_valueWith hns e hP).bind fun r _ _ => ?_
  dsimp only
  split
  · exact .problem_bind fun _ => .pure fun h => h.elim
  · next hreference =>
      refine .pure fun h _ _ => h.2.consumes (isReference_ne_void ?_)
      simpa [h.2.yielded.ne_unknown] using hreference

/-! ## Statements -/

mutual

/-- A statement that is analysed without an error uses values. -/
theorem ensures_stmt (hns : cx.names.Steady) : ∀ (st : Stmt) (l : Locals) {s : Session σ}
    {P : Prop}, (P → l.Valued ∧ cx.ret.Yielded ∧ st.Parsed) →
      Ensures s P (cx.stmt l st) fun r _ => r.1.Valued ∧ Expr.Consumes r.2.evaluated r.2.used
  | .block pos body, l, _, _, hP => by
      unfold stmt
      exact (ensures_stmts hns body l [] fun h => ⟨(hP h).1, (hP h).2.1, (hP h).2.2, nofun⟩).bind
        fun r _ _ => .pure fun h _ _ => ⟨(hP h.1).1, h.2.2⟩
  | .declare d, l, _, _, hP => by
      unfold stmt
      exact (ensures_localVar hns d fun h => ⟨(hP h).1, (hP h).2.2⟩).bind fun r _ _ =>
        .pure fun h _ _ => h.2
  | .ifThen pos cond st, l, _, _, hP => by
      unfold stmt
      refine (ensures_condition hns cond fun h => ⟨(hP h).1, (hP h).2.2.1⟩).bind fun cond' _ _ => ?_
      refine .bind_keeps (keeps_adviseBody _ _) fun _ _ _ => ?_
      refine (ensures_stmt hns st l fun h =>
        ⟨(hP h.1.1).1, (hP h.1.1).2.1, (hP h.1.1).2.2.2⟩).bind fun r _ _ => ?_
      exact .pure fun h _ _ => ⟨h.2.1, h.1.1.2.append h.2.2⟩
  | .ifElse pos cond st st', l, _, _, hP => by
      unfold stmt
      refine (ensures_condition hns cond fun h => ⟨(hP h).1, (hP h).2.2.1⟩).bind fun cond' _ _ => ?_
      refine .bind_keeps (keeps_adviseBody _ _) fun _ _ _ => ?_
      refine (ensures_stmt hns st l fun h =>
        ⟨(hP h.1.1).1, (hP h.1.1).2.1, (hP h.1.1).2.2.2.1⟩).bind fun r _ _ => ?_
      refine (ensures_stmt hns st' r.1 fun h =>
        ⟨h.2.1, (hP h.1.1.1).2.1, (hP h.1.1.1).2.2.2.2⟩).bind fun r' _ _ => ?_
      refine .pure fun h _ _ => ⟨h.2.1, ?_⟩
      have hall := (h.1.1.1.2.append h.1.2.2).append h.2.2
      rwa [List.append_assoc [cond']] at hall
  | .whileLoop pos cond body, l, _, _, hP => by
      unfold stmt
      refine (ensures_condition hns cond fun h => ⟨(hP h).1, (hP h).2.2.1⟩).bind fun cond' _ _ => ?_
      refine .bind_keeps (keeps_adviseBody _ _) fun _ _ _ => ?_
      refine (ensures_stmt hns body l fun h =>
        ⟨(hP h.1.1).1, (hP h.1.1).2.1, (hP h.1.1).2.2.2⟩).bind fun r _ _ => ?_
      exact .pure fun h _ _ => ⟨h.2.1, h.1.1.2.append h.2.2⟩
  | .forLoop pos init cond update body, l, _, P, hP => by
      unfold stmt
      refine .bind_keeps (keeps_requireFor pos) fun _ _ _ => ?_
      refine (ensures_forInit hns init fun h => ⟨(hP h.1).1, (hP h.1).2.2.1⟩).bind fun r _ _ => ?_
      refine (ensures_condition? hns cond fun h => ⟨h.2.1, (hP h.1.1).2.2.2.1⟩).bind
        fun cond' _ _ => ?_
      refine (ensures_value? hns update fun h => ⟨h.1.2.1, (hP h.1.1.1).2.2.2.2.1⟩).bind
        fun update' _ _ => ?_
      refine .bind_keeps (keeps_adviseBody _ _) fun _ _ _ => ?_
      refine (ensures_stmt hns body r.1 fun h => ⟨h.1.1.1.2.1, (hP h.1.1.1.1.1).2.1,
        (hP h.1.1.1.1.1).2.2.2.2.2⟩).bind fun r' _ _ => .pure fun h _ _ => ?_
      obtain ⟨⟨⟨⟨⟨⟨h, -⟩, -, hinit⟩, hcond⟩, hupdate⟩, -⟩, -, hbody⟩ := h
      have hall := ((hinit.append hcond).append hupdate).append hbody
      rw [List.append_nil] at hall
      exact ⟨(hP h).1, hall⟩
  | .ret pos value, l, _, _, hP => by
      unfold stmt
      exact (ensures_returned hns pos value hP).bind fun _ _ _ =>
        .pure fun h _ _ => ⟨(hP h.1).1, h.2⟩
  | .throw pos value, l, _, _, hP => by
      unfold stmt
      exact (ensures_thrown hns value fun h => ⟨(hP h).1, (hP h).2.2⟩).bind fun _ _ _ =>
        .pure fun h _ _ => ⟨(hP h.1).1, h.2⟩
  | .synchronized pos locked bodyPos body, l, _, _, hP => by
      unfold stmt
      refine (ensures_lock hns locked fun h => ⟨(hP h).1, (hP h).2.2.1⟩).bind
        fun locked' _ _ => ?_
      refine (ensures_stmts hns body l [] fun h =>
        ⟨(hP h.1).1, (hP h.1).2.1, (hP h.1).2.2.2, nofun⟩).bind fun r _ _ => .pure fun h _ _ => ?_
      exact ⟨(hP h.1.1).1, h.1.2.append h.2.2⟩
  | .expr pos value, l, _, _, hP => by
      unfold stmt
      exact (ensures_effect hns value fun h => ⟨(hP h).1, (hP h).2.2⟩).bind fun _ _ _ =>
        .pure fun h _ _ => ⟨(hP h.1).1, h.2⟩
  | .empty pos, l, _, _, hP => .pure fun h _ _ => ⟨(hP h).1, .nil⟩

theorem ensures_stmts (hns : cx.names.Steady) : ∀ (ss : List Stmt) (l : Locals)
    (done : List Stmt) {s : Session σ} {P : Prop},
    (P → l.Valued ∧ cx.ret.Yielded ∧ Stmt.AllParsed ss ∧
      ∀ st ∈ done, Expr.Consumes st.evaluated st.used) →
      Ensures s P (cx.stmts l done ss) fun r _ => r.1.Valued ∧
        Expr.Consumes (Stmt.evaluatedAll r.2) (Stmt.usedAll r.2)
  | [], l, done, _, _, hP => .pure fun h _ _ => by
      refine ⟨(hP h).1, Stmt.consumesAll_iff.mpr fun st hst => ?_⟩
      exact (hP h).2.2.2 st (List.mem_reverse.mp hst)
  | st :: rest, l, done, _, _, hP => by
      unfold stmts
      refine (ensures_stmt hns st l fun h => ⟨(hP h).1, (hP h).2.1, (hP h).2.2.1.1⟩).bind
        fun r _ _ => ?_
      refine ensures_stmts hns rest r.1 (r.2 :: done) fun h =>
        ⟨h.2.1, (hP h.1).2.1, (hP h.1).2.2.1.2, ?_⟩
      exact List.forall_mem_cons.mpr ⟨h.2.2, (hP h.1).2.2.2⟩

end

end BodyScope

end ProbeLang
