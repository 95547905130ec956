import ProbeLang.Proofs.Analysis.Attribution

/-!
# Code leaves nothing out

Code for an expression that refers to nothing of its kind falls back on less than what the
expression asks for: on nothing, on the value alone of an assignment, or, where a local variable has
no slot, on leaving out its value. With resolved expressions and slots for all local variables this
does not happen. All instructions that evaluated expressions contribute themselves are in the code,
in their order.
-/

namespace ProbeLang

open CodeM Code SymbolicCode

/-! ## Pieces of code -/

/-- Whether code has instructions in their order, wherever jumps lead and whatever lies in
between. -/
def SymbolicCode.Has (code own : SymbolicCode) : Prop :=
  own.Sublist (code.map Instr.untargeted)

namespace SymbolicCode.Has

variable {c d own own' : SymbolicCode}

theorem append (hc : Has c own) (hd : Has d own') : Has (c ++ d) (own ++ own') := by
  unfold Has
  rw [List.map_append]
  exact List.Sublist.append hc hd

theorem left (h : Has c own) (d : SymbolicCode) : Has (c ++ d) own :=
  List.append_nil own ▸ h.append (d := d) (List.nil_sublist _)

theorem right (c : SymbolicCode) (h : Has d own) : Has (c ++ d) own :=
  List.nil_append own ▸ append (c := c) (List.nil_sublist _) h

/-- Code without jumps has all its instructions. -/
theorem self (h : ∀ i ∈ c, i.untargeted = i) : Has c c := by
  have hmap : c.map Instr.untargeted = c := (List.map_congr_left h).trans (List.map_id' c)
  simp [Has, hmap]

end SymbolicCode.Has

/-! ## Expressions -/

mutual

/-- The code of an expression leaves out no instruction of what is evaluated with it. -/
theorem Expr.code_has : ∀ (e : Expr) {pc : Nat} {x : Expr}, (∀ y ∈ e.evaluated, y.Resolved) →
    x ∈ e.evaluated → Has (e.code pc) x.own
  | .literal n v, pc, x, _, hx => by
      obtain rfl := List.mem_singleton.mp hx
      exact .self (constant_untargeted v)
  | .name n ident, pc, x, h, hx => by
      obtain rfl := List.mem_singleton.mp hx
      rcases h _ List.mem_cons_self with ⟨slot, hr⟩ | ⟨owner, _ | _, d, hr⟩ <;>
        exact .self (by simp [Expr.code, hr, SymbolicCode.self, Instr.untargeted])
  | .this n, pc, x, _, hx => by
      obtain rfl := List.mem_singleton.mp hx
      exact .self (by simp [Expr.code, SymbolicCode.self, Instr.untargeted])
  | .field n target member, pc, x, h, hx => by
      rcases h _ List.mem_cons_self with ⟨owner, _ | _, d, hr⟩ | ⟨hr, -, elem, hty⟩
      all_goals simp only [Expr.evaluated, Note.isStaticField, hr, if_true, Bool.false_eq_true,
        if_false] at h hx
      all_goals simp only [Expr.code, hr]
      · rcases List.mem_cons.mp hx with rfl | hx
        · simp only [Expr.own, hr]
          exact .right _ (.self (by simp [Instr.untargeted]))
        · exact (target.code_has (List.forall_mem_cons.mp h).2 hx).left _
      · obtain rfl := List.mem_singleton.mp hx
        simp only [Expr.own, hr]
        exact .self (by simp [Instr.untargeted])
      · simp only [hty]
        rcases List.mem_cons.mp hx with rfl | hx
        · simp only [Expr.own, hr, hty]
          exact .right _ (.self (by simp [Instr.untargeted]))
        · exact (target.code_has (List.forall_mem_cons.mp h).2 hx).left _
  | .call n callee args, pc, x, h, hx => by
      have hargs := (List.forall_mem_cons.mp h).2
      obtain ⟨owner, _ | _, d, hr⟩ := h _ List.mem_cons_self
      all_goals simp only [Expr.code, hr]
      · rcases List.mem_cons.mp hx with rfl | hx
        · simp only [Expr.own, hr]
          refine .append (.left ?_ _) (.self (by simp [Instr.untargeted]))
          exact .self (by simp [SymbolicCode.self, Instr.untargeted])
        · exact .left (.right _ (Expr.codeAll_has args hargs hx)) _
      · rcases List.mem_cons.mp hx with rfl | hx
        · simp only [Expr.own, hr]
          exact .right _ (.self (by simp [Instr.untargeted]))
        · exact (Expr.codeAll_has args hargs hx).left _
  | .invoke n target callee args, pc, x, h, hx => by
      obtain ⟨owner, _ | _, d, hr⟩ := h _ List.mem_cons_self
      all_goals simp only [Expr.evaluated, Note.isStaticMethod, hr, if_true, Bool.false_eq_true,
        if_false, List.nil_append] at h hx
      all_goals simp only [Expr.code, hr]
      · obtain ⟨htarget, hargs⟩ := List.forall_mem_append.mp (List.forall_mem_cons.mp h).2
        rcases List.mem_cons.mp hx with rfl | hx
        · simp only [Expr.own, hr]
          exact .right _ (.self (by simp [Instr.untargeted]))
        · rcases List.mem_append.mp hx with hx | hx
          · exact ((target.code_has htarget hx).left _).left _
          · exact .left (.right _ (Expr.codeAll_has args hargs hx)) _
      · rcases List.mem_cons.mp hx with rfl | hx
        · simp only [Expr.own, hr]
          exact .right _ (.self (by simp [Instr.untargeted]))
        · exact (Expr.codeAll_has args (List.forall_mem_cons.mp h).2 hx).left _
  | .new n type args, pc, x, h, hx => by
      obtain rfl := List.mem_singleton.mp hx
      obtain ⟨cls, hr⟩ := h _ List.mem_cons_self
      simp only [Expr.code, Expr.own, hr]
      exact .self (by simp [SymbolicCode.create, Instr.untargeted])
  | .newArray n elem length, pc, x, h, hx => by
      rcases List.mem_cons.mp hx with rfl | hx
      · exact .right _ (.self (by simp [Instr.untargeted]))
      · exact (length.code_has (List.forall_mem_cons.mp h).2 hx).left _
  | .index n target at_, pc, x, h, hx => by
      obtain ⟨htarget, hat⟩ := List.forall_mem_append.mp (List.forall_mem_cons.mp h).2
      rcases List.mem_cons.mp hx with rfl | hx
      · exact .right _ (.self (by simp [Instr.untargeted]))
      · rcases List.mem_append.mp hx with hx | hx
        · exact ((target.code_has htarget hx).left _).left _
        · exact .left (.right _ (at_.code_has hat hx)) _
  | .unary n op operand, pc, x, h, hx => by
      rcases List.mem_cons.mp hx with rfl | hx
      · exact .right _ (.self (by cases op <;> simp [unaryInstr, Instr.untargeted]))
      · exact (operand.code_has (List.forall_mem_cons.mp h).2 hx).left _
  | .binary n op lhs rhs, pc, x, h, hx => by
      obtain ⟨hlhs, hrhs⟩ := List.forall_mem_append.mp (List.forall_mem_cons.mp h).2
      simp only [Expr.code]
      split
      · next skip hskip =>
          rcases List.mem_cons.mp hx with rfl | hx
          · simp only [Expr.own, hskip]
            refine .left (.right _ ?_) _
            cases op <;> cases hskip <;> exact .refl _
          · rcases List.mem_append.mp hx with hx | hx
            · exact ((lhs.code_has hlhs hx).left _).left _
            · exact .right _ (rhs.code_has hrhs hx)
      · next hskip =>
          rcases List.mem_cons.mp hx with rfl | hx
          · simp only [Expr.own, hskip]
            refine .right _ (.self ?_)
            cases n.ty.any Ty.isString <;> cases op <;> simp [binaryInstr, Instr.untargeted]
          · rcases List.mem_append.mp hx with hx | hx
            · exact ((lhs.code_has hlhs hx).left _).left _
            · exact .left (.right _ (rhs.code_has hrhs hx)) _
  | .assign n target value, pc, x, h, hx => by
      obtain ⟨-, hplace⟩ := h _ (Expr.mem_evaluated_self _)
      have hvalue := fun y hy => h y (Expr.evaluated_value_subset n target value hy)
      cases target with
      | name m ident =>
          have hput {pc : Nat} {c : SymbolicCode} (hx : x ∈ value.evaluated) :
              Has (value.code pc ++ c) x.own := (value.code_has hvalue hx).left c
          rcases hplace with ⟨slot, hr⟩ | ⟨owner, _ | _, d, hr⟩
          all_goals simp only [Expr.code, hr, Bool.false_eq_true, if_false, if_true]
          · rcases List.mem_cons.mp hx with rfl | hx
            · simp only [Expr.own, Expr.stores, Expr.note, hr]
              exact .right _ (.self (by simp [Instr.untargeted]))
            · exact hput hx
          · rcases List.mem_cons.mp hx with rfl | hx
            · simp only [Expr.own, Expr.stores, Expr.note, hr]
              refine .append (.self (by simp [SymbolicCode.self, Instr.untargeted])) (.right _ ?_)
              exact .self (by simp [Instr.untargeted])
            · exact .right _ (hput hx)
          · rcases List.mem_cons.mp hx with rfl | hx
            · simp only [Expr.own, Expr.stores, Expr.note, hr]
              exact .right _ (.right _ (.self (by simp [Instr.untargeted])))
            · exact .right _ (hput hx)
      | field m of member =>
          obtain ⟨owner, _ | _, d, hr⟩ := hplace
          all_goals simp only [Expr.evaluated, Note.isStaticField, hr, if_true, Bool.false_eq_true,
            if_false, List.nil_append] at h hx
          all_goals simp only [Expr.code, hr]
          · obtain ⟨hof, -⟩ := List.forall_mem_append.mp (List.forall_mem_cons.mp h).2
            rcases List.mem_cons.mp hx with rfl | hx
            · simp only [Expr.own, Expr.stores, Expr.note, hr]
              exact .right _ (.right _ (.self (by simp [Instr.untargeted])))
            · rcases List.mem_append.mp hx with hx | hx
              · exact (of.code_has hof hx).left _
              · exact .right _ ((value.code_has hvalue hx).left _)
          · rcases List.mem_cons.mp hx with rfl | hx
            · simp only [Expr.own, Expr.stores, Expr.note, hr]
              exact .right _ (.self (by simp [Instr.untargeted]))
            · exact (value.code_has hvalue hx).left _
      | index m of at_ =>
          have hr : m.refers = none := hplace
          simp only [Expr.evaluated] at h hx
          simp only [Expr.code, hr]
          obtain ⟨hof, hat⟩ := List.forall_mem_append.mp
            (List.forall_mem_append.mp (List.forall_mem_cons.mp h).2).1
          rcases List.mem_cons.mp hx with rfl | hx
          · simp only [Expr.own, Expr.stores, Expr.note, hr]
            exact .right _ (.self (by simp [Instr.untargeted]))
          · rcases List.mem_append.mp hx with hx | hx
            · rcases List.mem_append.mp hx with hx | hx
              · exact (((of.code_has hof hx).left _).left _).left _
              · exact ((at_.code_has hat hx).right _ |>.left _).left _
            · exact .left (.right _ (value.code_has hvalue hx)) _
      | _ => exact hplace.elim

theorem Expr.codeAll_has : ∀ (es : List Expr) {pc : Nat} {x : Expr},
    (∀ y ∈ Expr.evaluatedAll es, y.Resolved) → x ∈ Expr.evaluatedAll es →
      Has (Expr.codeAll pc es) x.own
  | e :: rest, pc, x, h, hx => by
      obtain ⟨he, hrest⟩ := List.forall_mem_append.mp h
      rcases List.mem_append.mp hx with hx | hx
      · exact (e.code_has he hx).left _
      · exact .right _ (Expr.codeAll_has rest hrest hx)

end

/-! ## Statements -/

section

variable {pc slot : Nat} {x : Expr}

theorem Expr.discardedCode_has {e : Expr} (h : ∀ y ∈ e.evaluated, y.Resolved)
    (hx : x ∈ e.evaluated) : Has (e.discardedCode pc) x.own := by
  unfold Expr.discardedCode
  split
  · exact e.code_has h hx
  · exact (e.code_has h hx).left _

theorem Expr.discardedCode?_has {e : Option Expr} (h : ∀ y ∈ Expr.evaluated? e, y.Resolved)
    (hx : x ∈ Expr.evaluated? e) : Has (Expr.discardedCode? pc e) x.own := by
  cases e with
  | none => cases hx
  | some e => exact Expr.discardedCode_has h hx

/-- The value of a local variable is not left out if the variable has a slot. -/
theorem LocalVar.code_has {d : LocalVar} (hslot : d.slot.isSome = true)
    (h : ∀ y ∈ Expr.evaluated? d.init, y.Resolved) (hx : x ∈ Expr.evaluated? d.init) :
    Has (d.code pc) x.own := by
  obtain ⟨k, hk⟩ := Option.isSome_iff_exists.mp hslot
  unfold LocalVar.code
  cases hinit : d.init with
  | none =>
      rw [hinit] at hx
      cases hx
  | some e =>
      rw [hinit] at h hx
      simp only [hk]
      exact (e.code_has h hx).left _

theorem ForInit.code_has {init : ForInit} (hslots : ∀ d ∈ init.localVars, d.slot.isSome = true)
    (h : ∀ y ∈ init.evaluated, y.Resolved) (hx : x ∈ init.evaluated) :
    Has (init.code pc) x.own := by
  cases init with
  | none => cases hx
  | declare d => exact d.code_has (hslots d List.mem_cons_self) h hx
  | expr pos e => exact Expr.discardedCode_has h hx

end

mutual

/-- The code of a statement leaves out no instruction of what is evaluated in it. -/
theorem Stmt.code_has : ∀ (s : Stmt) {pc slot : Nat} {x : Expr},
    (∀ d ∈ s.localVars, d.slot.isSome = true) → (∀ y ∈ s.evaluated, y.Resolved) →
      x ∈ s.evaluated → Has (s.code pc slot) x.own
  | .block _ body, _, _, _, hslots, h, hx => Stmt.codeAll_has body hslots h hx
  | .declare d, _, _, _, hslots, h, hx => d.code_has (hslots d List.mem_cons_self) h hx
  | .ifThen _ cond s, _, _, _, hslots, h, hx => by
      obtain ⟨hcond, hs⟩ := List.forall_mem_append.mp h
      rcases List.mem_append.mp hx with hx | hx
      · exact (cond.code_has hcond hx).left _
      · exact .right _ (.right [_] (s.code_has hslots hs hx))
  | .ifElse _ cond s t, _, _, _, hslots, h, hx => by
      obtain ⟨hslots, hslots'⟩ := List.forall_mem_append.mp hslots
      obtain ⟨h, ht⟩ := List.forall_mem_append.mp h
      obtain ⟨hcond, hs⟩ := List.forall_mem_append.mp h
      rcases List.mem_append.mp hx with hx | hx
      · rcases List.mem_append.mp hx with hx | hx
        · exact ((cond.code_has hcond hx).left _).left _
        · exact .left (.right _ (.right [_] (s.code_has hslots hs hx))) _
      · exact .right _ (.right [_] (t.code_has hslots' ht hx))
  | .whileLoop _ cond body, _, _, _, hslots, h, hx => by
      obtain ⟨hcond, hbody⟩ := List.forall_mem_append.mp h
      rcases List.mem_append.mp hx with hx | hx
      · exact ((cond.code_has hcond hx).left _).left _
      · exact .left (.right _ (.right [_] (body.code_has hslots hbody hx))) _
  | .forLoop _ init cond update body, _, _, _, hslots, h, hx => by
      obtain ⟨hfirst, hlast⟩ := List.forall_mem_append.mp hslots
      obtain ⟨h, hbody⟩ := List.forall_mem_append.mp h
      obtain ⟨h, hupdate⟩ := List.forall_mem_append.mp h
      obtain ⟨hinit, hcond⟩ := List.forall_mem_append.mp h
      cases cond with
      | none =>
          rcases List.mem_append.mp hx with hx | hx
          · rcases List.mem_append.mp hx with hx | hx
            · rcases List.mem_append.mp hx with hx | hx
              · exact (((init.code_has hfirst hinit hx).left _).left _).left _
              · cases hx
            · exact .left (.right _ (Expr.discardedCode?_has hupdate hx)) _
          · exact .left (.left (.right _ (body.code_has hlast hbody hx)) _) _
      | some cond =>
          rcases List.mem_append.mp hx with hx | hx
          · rcases List.mem_append.mp hx with hx | hx
            · rcases List.mem_append.mp hx with hx | hx
              · exact ((((init.code_has hfirst hinit hx).left _).left _).left _).left _
              · exact .left (.left (.left (.right _ (cond.code_has hcond hx)) _) _) _
            · exact .left (.right _ (Expr.discardedCode?_has hupdate hx)) _
          · exact .left (.left (.right _ (.right [_] (body.code_has hlast hbody hx))) _) _
  | .ret _ value, _, _, _, _, h, hx => by
      cases value with
      | none => cases hx
      | some e => exact (e.code_has h hx).left _
  | .throw _ value, _, _, _, _, h, hx => (value.code_has h hx).left _
  | .synchronized _ lock _ body, _, _, _, hslots, h, hx => by
      obtain ⟨hlock, hbody⟩ := List.forall_mem_append.mp h
      rcases List.mem_append.mp hx with hx | hx
      · exact (((lock.code_has hlock hx).left _).left _).left _
      · exact .left (.right _ (Stmt.codeAll_has body hslots hbody hx)) _
  | .expr _ e, _, _, _, _, h, hx => Expr.discardedCode_has h hx
  | .empty _, _, _, _, _, _, hx => by cases hx

theorem Stmt.codeAll_has : ∀ (ss : List Stmt) {pc slot : Nat} {x : Expr},
    (∀ d ∈ Stmt.allLocalVars ss, d.slot.isSome = true) →
      (∀ y ∈ Stmt.evaluatedAll ss, y.Resolved) → x ∈ Stmt.evaluatedAll ss →
        Has (Stmt.codeAll pc slot ss) x.own
  | s :: rest, _, _, _, hslots, h, hx => by
      obtain ⟨hslots, hslots'⟩ := List.forall_mem_append.mp hslots
      obtain ⟨hs, hrest⟩ := List.forall_mem_append.mp h
      rcases List.mem_append.mp hx with hx | hx
      · exact (s.code_has hslots hs hx).left _
      · exact .right _ (Stmt.codeAll_has rest hslots' hrest hx)

end

end ProbeLang
