import ProbeLang.Proofs.Stack.Code

/-!
# Where expressions and statements begin

The code of every expression that is evaluated in a piece of code stands somewhere in it, and so does
that of every statement: at the place that `Stmt.spots` says, at which the stack is as high as where
the whole piece begins.
-/

namespace ProbeLang

open CodeM Code SymbolicCode

/-! ## Pieces of code -/

namespace Code

variable {κ : Type} {pc p q : Nat} {c d e : List (Instr κ)}

/-- Whether a piece of code stands at a place in code that stands at a place itself. -/
def Stands (pc : Nat) (c : List (Instr κ)) (p : Nat) (d : List (Instr κ)) : Prop :=
  ∃ before behind, c = before ++ d ++ behind ∧ p = pc + size before

namespace Stands

theorem refl (pc : Nat) (c : List (Instr κ)) : Stands pc c pc c :=
  ⟨[], [], by simp, rfl⟩

theorem trans (h : Stands pc c p d) (h' : Stands p d q e) : Stands pc c q e := by
  obtain ⟨before, behind, rfl, rfl⟩ := h
  obtain ⟨before', behind', rfl, rfl⟩ := h'
  exact ⟨before ++ before', behind' ++ behind, by simp, by simp [Nat.add_assoc]⟩

theorem left (h : Stands pc c p d) (e : List (Instr κ)) : Stands pc (c ++ e) p d := by
  obtain ⟨before, behind, rfl, rfl⟩ := h
  exact ⟨before, behind ++ e, by simp, rfl⟩

theorem right (c : List (Instr κ)) (h : Stands (pc + size c) e p d) : Stands pc (c ++ e) p d := by
  obtain ⟨before, behind, rfl, rfl⟩ := h
  exact ⟨c ++ before, behind, by simp, by simp [Nat.add_assoc]⟩

/-- A piece of code that stands behind another. -/
theorem behind (c : List (Instr κ)) (h : Stands q e p d) (hq : q = pc + size c) :
    Stands pc (c ++ e) p d :=
  right c (hq ▸ h)

theorem cons {i : Instr κ} (h : Stands (pc + i.size) c p d) : Stands pc (i :: c) p d :=
  right [i] h

end Stands

/-- Heights in code are heights in each of its pieces. -/
theorem Linear.of_stands {call : κ → Option (Nat × Nat)} {height : Nat → Nat}
    (h : Linear call height pc c) (hd : Stands pc c p d) : Linear call height p d := by
  obtain ⟨before, behind, rfl, rfl⟩ := hd
  exact h.left.right

end Code

/-! ## Expressions -/

theorem Expr.codeAll_stands : ∀ (es : List Expr) (pc : Nat) {x : Expr}, x ∈ es →
    ∃ p, Stands pc (Expr.codeAll pc es) p (x.code p)
  | e :: rest, pc, x, hx => by
      rcases List.mem_cons.mp hx with rfl | hx
      · exact ⟨pc, (Stands.refl pc _).left _⟩
      · obtain ⟨p, hp⟩ := codeAll_stands rest (pc + size (e.code pc)) hx
        exact ⟨p, .right _ hp⟩

/-- The code of what an expression uses stands in the code of the expression. -/
theorem Expr.used_stands {e x : Expr} (pc : Nat) (h : e.Resolved) (hx : x ∈ e.used) :
    ∃ p, Stands pc (e.code pc) p (x.code p) := by
  cases e with
  | literal n v | name n ident | this n | new n type args => cases hx
  | field n target member =>
      rcases h with ⟨owner, _ | _, d, hr⟩ | ⟨hr, -, elem, hty⟩ <;>
        simp only [used, Note.isStaticField, hr] at hx <;> simp only [code, hr]
      · obtain rfl := List.mem_singleton.mp hx
        exact ⟨pc, (Stands.refl pc _).left _⟩
      · cases hx
      · obtain rfl := List.mem_singleton.mp hx
        rw [hty]
        exact ⟨pc, (Stands.refl pc _).left _⟩
  | call n callee args =>
      obtain ⟨owner, _ | _, d, hr⟩ := h <;> simp only [code, hr]
      · obtain ⟨p, hp⟩ := Expr.codeAll_stands args (pc + size self) hx
        exact ⟨p, (hp.right _).left _⟩
      · obtain ⟨p, hp⟩ := Expr.codeAll_stands args pc hx
        exact ⟨p, hp.left _⟩
  | invoke n target callee args =>
      obtain ⟨owner, _ | _, d, hr⟩ := h <;>
        simp only [used, Note.isStaticMethod, hr] at hx <;> simp only [code, hr]
      · rcases List.mem_cons.mp hx with rfl | hx
        · exact ⟨pc, ((Stands.refl pc _).left _).left _⟩
        · obtain ⟨p, hp⟩ := Expr.codeAll_stands args (pc + size (target.code pc)) hx
          exact ⟨p, (hp.right _).left _⟩
      · obtain ⟨p, hp⟩ := Expr.codeAll_stands args pc hx
        exact ⟨p, hp.left _⟩
  | newArray n elem length | unary n op operand =>
      obtain rfl := List.mem_singleton.mp hx
      exact ⟨pc, (Stands.refl pc _).left _⟩
  | index n target i =>
      obtain ⟨p, hp⟩ := Expr.codeAll_stands [target, i] pc hx
      simp only [codeAll, List.append_nil] at hp
      exact ⟨p, hp.left _⟩
  | binary n op lhs rhs =>
      rcases List.mem_cons.mp hx with rfl | hx
      · refine ⟨pc, ?_⟩
        cases op <;> simp only [code, skipInstr, List.append_assoc] <;> exact (Stands.refl pc _).left _
      · obtain rfl := List.mem_singleton.mp hx
        cases op with
        | and | or =>
            have hplace (gap : SymbolicCode) (hgap : size gap = 7) :
                pc + size (lhs.code pc ++ gap) = pc + size (lhs.code pc) + 7 := by
              rw [size_append, hgap, Nat.add_assoc]
            refine ⟨pc + size (lhs.code pc) + 7, Stands.right _ ?_⟩
            rw [hplace _ rfl]
            exact .refl _ _
        | add | sub | mul | div | rem | eq | ne | lt | le | gt | ge =>
            exact ⟨_, (Stands.right _ (Stands.refl _ _)).left _⟩
  | assign n target value =>
      have hplace := h.2
      cases target with
      | name m ident =>
          obtain rfl := List.mem_singleton.mp hx
          rcases hplace with ⟨slot, hr⟩ | ⟨owner, _ | _, d, hr⟩ <;> simp only [code, hr]
          · exact ⟨pc, (Stands.refl pc _).left _⟩
          · exact ⟨_, ((Stands.refl _ _).left _).right _⟩
          · exact ⟨pc, (Stands.refl pc (x.code pc)).left [.dup, .putStatic (fieldReference owner ident d)]⟩
      | field m of member =>
          obtain ⟨owner, _ | _, d, hr⟩ := hplace <;>
            simp only [used, Note.isStaticField, hr] at hx <;> simp only [code, hr]
          · obtain ⟨p, hp⟩ := Expr.codeAll_stands [of, value] pc hx
            simp only [codeAll, List.append_nil] at hp
            rw [SymbolicCode.keepField, ← List.append_assoc]
            exact ⟨p, hp.left _⟩
          · obtain rfl := List.mem_singleton.mp hx
            exact ⟨pc, (Stands.refl pc _).left _⟩
      | index m of at_ =>
          have hr : m.refers = none := hplace
          simp only [code, hr]
          obtain ⟨p, hp⟩ := Expr.codeAll_stands [of, at_, value] pc hx
          simp only [codeAll, List.append_nil, ← List.append_assoc] at hp
          exact ⟨p, hp.left _⟩
      | _ => exact hplace.elim

theorem Expr.sizeOf_used {e x : Expr} (hx : x ∈ e.used) : sizeOf x < sizeOf e := by
  cases e with
  | call n callee args =>
      have := List.sizeOf_lt_of_mem (show x ∈ args from hx)
      simp only [Expr.call.sizeOf_spec]
      omega
  | invoke n target callee args =>
      simp only [Expr.invoke.sizeOf_spec]
      rcases List.mem_append.mp hx with hx | hx
      · rw [List.mem_ite_nil_left, List.mem_singleton] at hx
        obtain ⟨-, rfl⟩ := hx
        omega
      · have := List.sizeOf_lt_of_mem hx
        omega
  | field n target member =>
      rw [used, List.mem_ite_nil_left, List.mem_singleton] at hx
      obtain ⟨-, rfl⟩ := hx
      simp only [Expr.field.sizeOf_spec]
      omega
  | assign n target value =>
      simp only [Expr.assign.sizeOf_spec]
      cases target with
      | field m of member =>
          simp only [Expr.field.sizeOf_spec]
          rcases List.mem_append.mp hx with hx | hx
          · rw [List.mem_ite_nil_left, List.mem_singleton] at hx
            obtain ⟨-, rfl⟩ := hx
            omega
          · obtain rfl := List.mem_singleton.mp hx
            omega
      | index m of at_ =>
          simp only [Expr.index.sizeOf_spec]
          simp only [used, List.mem_cons, List.not_mem_nil, or_false] at hx
          rcases hx with rfl | rfl | rfl <;> omega
      | _ =>
          obtain rfl := List.mem_singleton.mp hx
          omega
  | literal n v | name n ident | this n | new n type args => cases hx
  | newArray n elem length | unary n op operand =>
      obtain rfl := List.mem_singleton.mp hx
      simp only [Expr.newArray.sizeOf_spec, Expr.unary.sizeOf_spec]
      omega
  | index n target i | binary n op target i =>
      simp only [Expr.index.sizeOf_spec, Expr.binary.sizeOf_spec]
      simp only [used, List.mem_cons, List.not_mem_nil, or_false] at hx
      rcases hx with rfl | rfl <;> omega

/-- The code of what is evaluated with an expression stands in the code of the expression. -/
theorem Expr.evaluated_stands : ∀ {e x : Expr} (pc : Nat), (∀ y ∈ e.evaluated, y.Resolved) →
    x ∈ e.evaluated → ∃ p, Stands pc (e.code pc) p (x.code p) := by
  intro e x pc h hx
  rw [Expr.evaluated_eq] at hx
  rcases List.mem_cons.mp hx with rfl | hx
  · exact ⟨pc, .refl pc _⟩
  obtain ⟨y, hy, hx⟩ := Expr.mem_evaluatedAll.mp hx
  obtain ⟨p, hp⟩ := e.used_stands pc (h e e.mem_evaluated_self) hy
  have hrest : ∀ z ∈ y.evaluated, z.Resolved := fun z hz => h z (by
    rw [Expr.evaluated_eq]
    exact List.mem_cons_of_mem _ (Expr.mem_evaluatedAll.mpr ⟨y, hy, hz⟩))
  obtain ⟨q, hq⟩ := evaluated_stands p hrest hx
  exact ⟨q, hp.trans hq⟩
termination_by e => sizeOf e
decreasing_by exact Expr.sizeOf_used hy

/-! ## Statements -/

mutual

/-- The statements in a statement, itself first, each with the place where its code begins and the
first slot that is free there. -/
def Stmt.spots (pc slot : Nat) : Stmt → List (Nat × Nat × Stmt)
  | s@(.block _ body) => (pc, slot, s) :: Stmt.allSpots pc slot body
  | s@(.ifThen _ cond t) =>
      (pc, slot, s) :: t.spots (pc + size (cond.code pc) + jumpSize) slot
  | s@(.ifElse _ cond t u) =>
      let start := pc + size (cond.code pc) + jumpSize
      (pc, slot, s) :: (t.spots start slot ++
        u.spots (start + size (t.code start slot) + jumpSize) (slot + t.locks))
  | s@(.whileLoop _ cond body) =>
      (pc, slot, s) :: body.spots (pc + size (cond.code pc) + jumpSize) slot
  | s@(.forLoop _ init cond _ body) =>
      let start := pc + size (init.code pc)
      match cond with
      | none => (pc, slot, s) :: body.spots start slot
      | some cond => (pc, slot, s) :: body.spots (start + size (cond.code start) + jumpSize) slot
  | s@(.synchronized _ lock _ body) =>
      let enter := lock.code pc ++ [.dup, .store (UInt16.ofNat slot), .monitorEnter]
      (pc, slot, s) :: Stmt.allSpots (pc + size enter) (slot + 1) body
  | s@(.declare _) | s@(.ret _ _) | s@(.throw _ _) | s@(.expr _ _) | s@(.empty _) =>
      [(pc, slot, s)]

/-- The statements in statements that come one after the other. -/
def Stmt.allSpots (pc slot : Nat) : List Stmt → List (Nat × Nat × Stmt)
  | [] => []
  | s :: rest =>
      s.spots pc slot ++ Stmt.allSpots (pc + size (s.code pc slot)) (slot + s.locks) rest

end

/-- The code of a statement that is spotted at a place. -/
def Stmt.spotCode (q : Nat × Nat × Stmt) : SymbolicCode :=
  q.2.2.code q.1 q.2.1

mutual

/-- The code of every statement in a statement stands where it is spotted. -/
theorem Stmt.spots_stand : ∀ (s : Stmt) (pc slot : Nat), ∀ q ∈ s.spots pc slot,
    Stands pc (s.code pc slot) q.1 (spotCode q)
  | .block pos body, pc, slot, q, hq => by
      rcases List.mem_cons.mp hq with rfl | hq
      · exact .refl _ _
      · exact Stmt.allSpots_stand body pc slot q hq
  | .ifThen pos cond t, pc, slot, q, hq => by
      rcases List.mem_cons.mp hq with rfl | hq
      · exact .refl _ _
      · exact .right _ (.cons (t.spots_stand _ slot q hq))
  | .ifElse pos cond t u, pc, slot, q, hq => by
      rcases List.mem_cons.mp hq with rfl | hq
      · exact .refl _ _
      rcases List.mem_append.mp hq with hq | hq
      · exact .left (.right _ (.cons (t.spots_stand _ slot q hq))) _
      · refine .behind _ (.cons (u.spots_stand _ _ q hq)) ?_
        simp [Instr.size, jumpSize, Nat.add_assoc]
  | .whileLoop pos cond body, pc, slot, q, hq => by
      rcases List.mem_cons.mp hq with rfl | hq
      · exact .refl _ _
      · exact .left (.right _ (.cons (body.spots_stand _ slot q hq))) _
  | .forLoop pos init none update body, pc, slot, q, hq => by
      rcases List.mem_cons.mp hq with rfl | hq
      · exact .refl _ _
      · exact .left (.left (.right _ (body.spots_stand _ slot q hq)) _) _
  | .forLoop pos init (some cond) update body, pc, slot, q, hq => by
      rcases List.mem_cons.mp hq with rfl | hq
      · exact .refl _ _
      · refine .left (.left (.behind _ (.cons (body.spots_stand _ slot q hq)) ?_) _) _
        rw [size_append, ← Nat.add_assoc]
  | .synchronized pos lock bodyPos body, pc, slot, q, hq => by
      rcases List.mem_cons.mp hq with rfl | hq
      · exact .refl _ _
      · exact .left (.right _ (Stmt.allSpots_stand body _ _ q hq)) _
  | .declare _, pc, slot, q, hq | .ret _ _, pc, slot, q, hq | .throw _ _, pc, slot, q, hq
  | .expr _ _, pc, slot, q, hq | .empty _, pc, slot, q, hq => by
      obtain rfl := List.mem_singleton.mp hq
      exact .refl _ _

theorem Stmt.allSpots_stand : ∀ (ss : List Stmt) (pc slot : Nat), ∀ q ∈ Stmt.allSpots pc slot ss,
    Stands pc (Stmt.codeAll pc slot ss) q.1 (spotCode q)
  | s :: rest, pc, slot, q, hq => by
      rcases List.mem_append.mp hq with hq | hq
      · exact (s.spots_stand pc slot q hq).left _
      · exact .right _ (Stmt.allSpots_stand rest _ _ q hq)

end

/-! ## Expressions in statements -/

section Evaluated

variable {x : Expr}

theorem Expr.discardedCode_stands {e : Expr} (pc : Nat) (h : ∀ y ∈ e.evaluated, y.Resolved)
    (hx : x ∈ e.evaluated) : ∃ p, Stands pc (e.discardedCode pc) p (x.code p) := by
  obtain ⟨p, hp⟩ := Expr.evaluated_stands pc h hx
  unfold Expr.discardedCode
  split
  · exact ⟨p, hp⟩
  · exact ⟨p, hp.left _⟩

theorem Expr.discardedCode?_stands {e : Option Expr} (pc : Nat)
    (h : ∀ y ∈ Expr.evaluated? e, y.Resolved) (hx : x ∈ Expr.evaluated? e) :
    ∃ p, Stands pc (Expr.discardedCode? pc e) p (x.code p) := by
  cases e with
  | none => cases hx
  | some e => exact Expr.discardedCode_stands pc h hx

theorem LocalVar.code_stands {d : LocalVar} (pc : Nat) (hslot : d.slot.isSome = true)
    (h : ∀ y ∈ Expr.evaluated? d.init, y.Resolved) (hx : x ∈ Expr.evaluated? d.init) :
    ∃ p, Stands pc (d.code pc) p (x.code p) := by
  obtain ⟨slot, hslot⟩ := Option.isSome_iff_exists.mp hslot
  unfold LocalVar.code
  cases hinit : d.init with
  | none =>
      rw [hinit] at hx
      cases hx
  | some e =>
      rw [hinit] at h hx
      obtain ⟨p, hp⟩ := Expr.evaluated_stands pc h hx
      rw [hslot]
      exact ⟨p, hp.left _⟩

theorem ForInit.code_stands {init : ForInit} (pc : Nat)
    (hslots : ∀ d ∈ init.localVars, d.slot.isSome = true)
    (h : ∀ y ∈ init.evaluated, y.Resolved) (hx : x ∈ init.evaluated) :
    ∃ p, Stands pc (init.code pc) p (x.code p) := by
  cases init with
  | none => cases hx
  | declare d => exact LocalVar.code_stands pc (hslots d List.mem_cons_self) h hx
  | expr pos e => exact Expr.discardedCode_stands pc h hx

end Evaluated

/-- Whether everything that is evaluated is resolved and everything that is declared has a slot. -/
structure Stmt.Placed (evaluated : List Expr) (declared : List LocalVar) : Prop where
  resolved : ∀ y ∈ evaluated, y.Resolved
  slots : ∀ d ∈ declared, d.slot.isSome = true

theorem Stmt.Placed.mono {es es' : List Expr} {ds ds' : List LocalVar} (h : Stmt.Placed es ds)
    (hes : es' ⊆ es) (hds : ds' ⊆ ds) : Stmt.Placed es' ds' :=
  ⟨fun y hy => h.resolved y (hes hy), fun d hd => h.slots d (hds hd)⟩

mutual

/-- The code of what is evaluated in a statement stands in the code of the statement. -/
theorem Stmt.evaluated_stands : ∀ (s : Stmt) (pc slot : Nat) {x : Expr},
    Stmt.Placed s.evaluated s.localVars → x ∈ s.evaluated →
      ∃ p, Stands pc (s.code pc slot) p (x.code p)
  | .block _ body, pc, slot, x, h, hx => Stmt.allEvaluated_stand body pc slot h hx
  | .declare d, pc, slot, x, h, hx =>
      LocalVar.code_stands pc (h.slots d List.mem_cons_self) h.resolved hx
  | .ifThen _ cond t, pc, slot, x, h, hx => by
      rcases List.mem_append.mp hx with hx | hx
      · obtain ⟨p, hp⟩ := Expr.evaluated_stands pc
          (fun y hy => h.resolved y (List.mem_append_left _ hy)) hx
        exact ⟨p, hp.left _⟩
      · obtain ⟨p, hp⟩ := t.evaluated_stands (pc + size (cond.code pc) + jumpSize) slot
          (h.mono (List.subset_append_right _ _) (List.Subset.refl _)) hx
        exact ⟨p, .right _ (.cons hp)⟩
  | .ifElse _ cond t u, pc, slot, x, h, hx => by
      rcases List.mem_append.mp hx with hx | hx
      · rcases List.mem_append.mp hx with hx | hx
        · obtain ⟨p, hp⟩ := Expr.evaluated_stands pc
            (fun y hy => h.resolved y (by simp [Stmt.evaluated, hy])) hx
          exact ⟨p, (hp.left _).left _⟩
        · obtain ⟨p, hp⟩ := t.evaluated_stands (pc + size (cond.code pc) + jumpSize) slot
            (h.mono (fun y hy => by simp [Stmt.evaluated, hy]) (List.subset_append_left _ _)) hx
          exact ⟨p, .left (.right _ (.cons hp)) _⟩
      · obtain ⟨p, hp⟩ := u.evaluated_stands
          (pc + size (cond.code pc) + jumpSize +
            size (t.code (pc + size (cond.code pc) + jumpSize) slot) + jumpSize) (slot + t.locks)
          (h.mono (List.subset_append_right _ _) (List.subset_append_right _ _)) hx
        refine ⟨p, .behind _ (.cons hp) ?_⟩
        simp [Instr.size, jumpSize, Nat.add_assoc]
  | .whileLoop _ cond body, pc, slot, x, h, hx => by
      rcases List.mem_append.mp hx with hx | hx
      · obtain ⟨p, hp⟩ := Expr.evaluated_stands pc
          (fun y hy => h.resolved y (List.mem_append_left _ hy)) hx
        exact ⟨p, (hp.left _).left _⟩
      · obtain ⟨p, hp⟩ := body.evaluated_stands (pc + size (cond.code pc) + jumpSize) slot
          (h.mono (List.subset_append_right _ _) (List.Subset.refl _)) hx
        exact ⟨p, .left (.right _ (.cons hp)) _⟩
  | .forLoop _ init cond update body, pc, slot, x, h, hx => by
      have hbody : Stmt.Placed body.evaluated body.localVars :=
        h.mono (List.subset_append_right _ _) (List.subset_append_right _ _)
      have hinit (hx : x ∈ init.evaluated) := ForInit.code_stands pc
        (fun d hd => h.slots d (List.mem_append_left _ hd))
        (fun y hy => h.resolved y (by simp [Stmt.evaluated, hy])) hx
      have hupdate (pc : Nat) (hx : x ∈ Expr.evaluated? update) :=
        Expr.discardedCode?_stands pc (fun y hy => h.resolved y (by simp [Stmt.evaluated, hy])) hx
      cases cond with
      | none =>
          simp only [Stmt.evaluated, Expr.evaluated?, List.append_nil, List.mem_append] at hx
          rcases hx with (hx | hx) | hx
          · obtain ⟨p, hp⟩ := hinit hx
            exact ⟨p, ((hp.left _).left _).left _⟩
          · obtain ⟨p, hp⟩ := hupdate _ hx
            refine ⟨p, .left (.behind _ hp ?_) _⟩
            rw [size_append, ← Nat.add_assoc]
          · obtain ⟨p, hp⟩ := body.evaluated_stands (pc + size (init.code pc)) slot hbody hx
            exact ⟨p, .left (.left (.right _ hp) _) _⟩
      | some cond =>
          simp only [Stmt.evaluated, Expr.evaluated?, List.mem_append] at hx
          rcases hx with ((hx | hx) | hx) | hx
          · obtain ⟨p, hp⟩ := hinit hx
            exact ⟨p, (((hp.left _).left _).left _).left _⟩
          · obtain ⟨p, hp⟩ := Expr.evaluated_stands (pc + size (init.code pc))
              (fun y hy => h.resolved y (by simp [Stmt.evaluated, Expr.evaluated?, hy])) hx
            exact ⟨p, .left (.left (.left (.right _ hp) _) _) _⟩
          · obtain ⟨p, hp⟩ := hupdate _ hx
            refine ⟨p, .left (.behind _ hp ?_) _⟩
            simp [Instr.size, jumpSize, Nat.add_assoc]
          · obtain ⟨p, hp⟩ := body.evaluated_stands
              (pc + size (init.code pc) + size (cond.code (pc + size (init.code pc))) + jumpSize)
              slot hbody hx
            refine ⟨p, .left (.left (.behind _ (.cons hp) ?_) _) _⟩
            rw [size_append, ← Nat.add_assoc]
  | .ret _ none, pc, slot, x, h, hx => by cases hx
  | .ret _ (some e), pc, slot, x, h, hx | .throw _ e, pc, slot, x, h, hx => by
      obtain ⟨p, hp⟩ := Expr.evaluated_stands pc h.resolved hx
      exact ⟨p, hp.left _⟩
  | .synchronized _ lock _ body, pc, slot, x, h, hx => by
      rcases List.mem_append.mp hx with hx | hx
      · obtain ⟨p, hp⟩ := Expr.evaluated_stands pc
          (fun y hy => h.resolved y (List.mem_append_left _ hy)) hx
        exact ⟨p, ((hp.left _).left _).left _⟩
      · obtain ⟨p, hp⟩ := Stmt.allEvaluated_stand body _ (slot + 1)
          (h.mono (List.subset_append_right _ _) (List.Subset.refl _)) hx
        exact ⟨p, .left (.right _ hp) _⟩
  | .expr _ e, pc, slot, x, h, hx => Expr.discardedCode_stands pc h.resolved hx
  | .empty _, pc, slot, x, h, hx => by cases hx

theorem Stmt.allEvaluated_stand : ∀ (ss : List Stmt) (pc slot : Nat) {x : Expr},
    Stmt.Placed (Stmt.evaluatedAll ss) (Stmt.allLocalVars ss) → x ∈ Stmt.evaluatedAll ss →
      ∃ p, Stands pc (Stmt.codeAll pc slot ss) p (x.code p)
  | s :: rest, pc, slot, x, h, hx => by
      rcases List.mem_append.mp hx with hx | hx
      · obtain ⟨p, hp⟩ := s.evaluated_stands pc slot
          (h.mono (List.subset_append_left _ _) (List.subset_append_left _ _)) hx
        exact ⟨p, hp.left _⟩
      · obtain ⟨p, hp⟩ := Stmt.allEvaluated_stand rest _ _
          (h.mono (List.subset_append_right _ _) (List.subset_append_right _ _)) hx
        exact ⟨p, .right _ hp⟩

end

mutual

/-- A statement in a statement has what it uses on the stack if the whole has. -/
theorem Stmt.spots_stack : ∀ (s : Stmt) {pc slot : Nat}, Expr.Stack s.evaluated s.used →
    ∀ q ∈ s.spots pc slot, Expr.Stack q.2.2.evaluated q.2.2.used
  | .block pos body, pc, slot, h, q, hq => by
      rcases List.mem_cons.mp hq with rfl | hq
      · exact h
      · exact Stmt.allSpots_stack body h q hq
  | .ifThen pos cond t, pc, slot, h, q, hq => by
      rcases List.mem_cons.mp hq with rfl | hq
      · exact h
      · exact t.spots_stack (Expr.Stack.right (u := [cond]) h) q hq
  | .ifElse pos cond t u, pc, slot, h, q, hq => by
      rcases List.mem_cons.mp hq with rfl | hq
      · exact h
      have h : Expr.Stack ((cond.evaluated ++ t.evaluated) ++ u.evaluated)
          (([cond] ++ t.used) ++ u.used) := by
        rw [List.append_assoc [cond]]
        exact h
      rcases List.mem_append.mp hq with hq | hq
      · exact t.spots_stack h.left.right q hq
      · exact u.spots_stack h.right q hq
  | .whileLoop pos cond body, pc, slot, h, q, hq => by
      rcases List.mem_cons.mp hq with rfl | hq
      · exact h
      · exact body.spots_stack (Expr.Stack.right (u := [cond]) h) q hq
  | .forLoop pos init none update body, pc, slot, h, q, hq
  | .forLoop pos init (some cond) update body, pc, slot, h, q, hq => by
      rcases List.mem_cons.mp hq with rfl | hq
      · exact h
      refine body.spots_stack ?_ q hq
      exact h.mono (fun x hx => by simp [Stmt.evaluated, hx]) fun x hx => by simp [Stmt.used, hx]
  | .synchronized pos lock bodyPos body, pc, slot, h, q, hq => by
      rcases List.mem_cons.mp hq with rfl | hq
      · exact h
      · exact Stmt.allSpots_stack body (Expr.Stack.right (u := [lock]) h) q hq
  | .declare _, pc, slot, h, q, hq | .ret _ _, pc, slot, h, q, hq
  | .throw _ _, pc, slot, h, q, hq | .expr _ _, pc, slot, h, q, hq
  | .empty _, pc, slot, h, q, hq => by
      obtain rfl := List.mem_singleton.mp hq
      exact h

theorem Stmt.allSpots_stack : ∀ (ss : List Stmt) {pc slot : Nat},
    Expr.Stack (Stmt.evaluatedAll ss) (Stmt.usedAll ss) →
      ∀ q ∈ Stmt.allSpots pc slot ss, Expr.Stack q.2.2.evaluated q.2.2.used
  | s :: rest, pc, slot, h, q, hq => by
      rcases List.mem_append.mp hq with hq | hq
      · exact s.spots_stack h.left q hq
      · exact Stmt.allSpots_stack rest h.right q hq

end

/-! ## Heights at statements -/

section Levels

variable {height : Nat → Nat} {pc : Nat} {i : Instr String} {c d : SymbolicCode}

/-- Behind code that leaves the stack as it is. -/
theorem Code.HasEffect.level (hc : HasEffect callEffect? pc c 0 0)
    (h : Linear callEffect? height pc (c ++ d)) : height (pc + size c) = height pc := by
  have hend := (hc height h.left (Nat.zero_le _)).1
  omega

theorem Code.Linear.tail (h : Linear callEffect? height pc (c ++ i :: d)) :
    Linear callEffect? height (pc + size c + i.size) d :=
  fun p j hj => h.right p j (List.mem_cons_of_mem _ hj)

/-- Behind a test of a value. -/
theorem Code.HasEffect.test_level (hc : HasEffect callEffect? pc c 0 1)
    (hi : i.effect? callEffect? = some (1, 0)) (h : Linear callEffect? height pc (c ++ i :: d)) :
    height (pc + size c + i.size) = height pc := by
  have hend := (hc height h.left (Nat.zero_le _)).1
  have htest := h.right (pc + size c) i List.mem_cons_self 1 0 hi
  omega

end Levels

mutual

/-- Where a statement in a statement begins the stack is as high as where the whole begins. -/
theorem Stmt.spots_level : ∀ (s : Stmt) {pc slot : Nat} {height : Nat → Nat},
    Expr.Stack s.evaluated s.used → Linear callEffect? height pc (s.code pc slot) →
      ∀ q ∈ s.spots pc slot, height q.1 = height pc
  | .block pos body, pc, slot, height, h, hlinear, q, hq => by
      rcases List.mem_cons.mp hq with rfl | hq
      · rfl
      · exact Stmt.allSpots_level body h hlinear q hq
  | .ifThen pos cond t, pc, slot, height, h, hlinear, q, hq => by
      rcases List.mem_cons.mp hq with rfl | hq
      · rfl
      have hcond := Expr.used_effect pc (Expr.Stack.left (u := [cond]) h)
      rw [← hcond.test_level rfl hlinear]
      exact t.spots_level (Expr.Stack.right (u := [cond]) h) hlinear.tail q hq
  | .ifElse pos cond t u, pc, slot, height, h, hlinear, q, hq => by
      have h : Expr.Stack ((cond.evaluated ++ t.evaluated) ++ u.evaluated)
          (([cond] ++ t.used) ++ u.used) := by
        rw [List.append_assoc [cond]]
        exact h
      rcases List.mem_cons.mp hq with rfl | hq
      · rfl
      have hcond := Expr.used_effect pc h.left.left
      have hstart := hcond.test_level rfl hlinear.left
      rcases List.mem_append.mp hq with hq | hq
      · rw [← hstart]
        exact t.spots_level h.left.right hlinear.left.tail q hq
      · have hend := ((t.code_effect _ slot h.left.right) height hlinear.left.tail (Nat.zero_le _)).1
        have hjump := hlinear.right _ _ List.mem_cons_self 0 0 rfl
        have hsecond := hlinear.tail
        rw [size_append, size_cons, ← Nat.add_assoc, ← Nat.add_assoc] at hsecond
        have hlevel := u.spots_level h.right hsecond q hq
        simp only [size_append, size_cons, Instr.size, jumpSize, ← Nat.add_assoc] at *
        omega
  | .whileLoop pos cond body, pc, slot, height, h, hlinear, q, hq => by
      rcases List.mem_cons.mp hq with rfl | hq
      · rfl
      have hcond := Expr.used_effect pc (Expr.Stack.left (u := [cond]) h)
      rw [← hcond.test_level rfl hlinear.left]
      exact body.spots_level (Expr.Stack.right (u := [cond]) h) hlinear.left.tail q hq
  | .forLoop pos init none update body, pc, slot, height, h, hlinear, q, hq => by
      rcases List.mem_cons.mp hq with rfl | hq
      · rfl
      have hinit := init.code_effect pc
        (h.mono (fun x hx => by simp [Stmt.evaluated, hx]) fun x hx => by simp [Stmt.used, hx])
      rw [← hinit.level hlinear.left.left]
      refine body.spots_level ?_ hlinear.left.left.right q hq
      exact h.mono (fun x hx => by simp [Stmt.evaluated, hx]) fun x hx => by simp [Stmt.used, hx]
  | .forLoop pos init (some cond) update body, pc, slot, height, h, hlinear, q, hq => by
      rcases List.mem_cons.mp hq with rfl | hq
      · rfl
      have hinit := init.code_effect pc
        (h.mono (fun x hx => by simp [Stmt.evaluated, hx]) fun x hx => by simp [Stmt.used, hx])
      have hcond := Expr.used_effect (pc + size (init.code pc)) (e := cond)
        (h.mono (fun x hx => by simp [Stmt.evaluated, Expr.evaluated?, hx])
          fun x hx => by simp_all [Stmt.used, Expr.used?])
      have hlinear := hlinear.left.left
      rw [List.append_assoc] at hlinear
      rw [← hinit.level hlinear, ← hcond.test_level rfl hlinear.right]
      refine body.spots_level ?_ hlinear.right.tail q hq
      exact h.mono (fun x hx => by simp [Stmt.evaluated, hx]) fun x hx => by simp [Stmt.used, hx]
  | .synchronized pos lock bodyPos body, pc, slot, height, h, hlinear, q, hq => by
      rcases List.mem_cons.mp hq with rfl | hq
      · rfl
      have hlock := Expr.used_effect pc (Expr.Stack.left (u := [lock]) h)
      rw [← (hlock.lock_behind slot).level hlinear.left]
      exact Stmt.allSpots_level body (Expr.Stack.right (u := [lock]) h) hlinear.left.right q hq
  | .declare _, pc, slot, height, _, _, q, hq | .ret _ _, pc, slot, height, _, _, q, hq
  | .throw _ _, pc, slot, height, _, _, q, hq | .expr _ _, pc, slot, height, _, _, q, hq
  | .empty _, pc, slot, height, _, _, q, hq => by
      obtain rfl := List.mem_singleton.mp hq
      rfl

theorem Stmt.allSpots_level : ∀ (ss : List Stmt) {pc slot : Nat} {height : Nat → Nat},
    Expr.Stack (Stmt.evaluatedAll ss) (Stmt.usedAll ss) →
      Linear callEffect? height pc (Stmt.codeAll pc slot ss) →
        ∀ q ∈ Stmt.allSpots pc slot ss, height q.1 = height pc
  | s :: rest, pc, slot, height, h, hlinear, q, hq => by
      rcases List.mem_append.mp hq with hq | hq
      · exact s.spots_level h.left hlinear.left q hq
      · rw [← (s.code_effect pc slot h.left).level hlinear]
        exact Stmt.allSpots_level rest h.right hlinear.right q hq

end

end ProbeLang
