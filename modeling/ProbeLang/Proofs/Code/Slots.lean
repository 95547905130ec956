import ProbeLang.Proofs.Code.Evaluation
import ProbeLang.Proofs.Tree.Walk

/-!
# Which slots code uses

A slot in the code of a method is that of a name in its body, or that of `this`, or one that is
taken for a lock. The first are counted when the tree is searched for names, the last behind them.
-/

namespace ProbeLang

open CodeM Code SymbolicCode

/-- Whether an expression itself makes use of the value of `this`. -/
def Expr.usesSelf : Expr → Bool
  | .this _ => true
  | .name n _ | .assign _ (.name n _) _ =>
      match n.refers with
      | some (.field _ isStatic _) => !isStatic
      | _ => false
  | .call n _ _ =>
      match n.refers with
      | some (.method _ isStatic _) => !isStatic
      | _ => false
  | _ => false

/-- Whether a slot is that of a number below a bound. -/
def SlotBelow (bound : Nat) (slot : UInt16) : Prop :=
  ∃ n < bound, slot = UInt16.ofNat n

/-- Whether all slots in a piece of code are below a bound. -/
def Code.SlotsBelow {κ : Type} (bound : Nat) (c : List (Instr κ)) : Prop :=
  ∀ i ∈ c, ∀ slot, i.slot? = some slot → SlotBelow bound slot

namespace Code.SlotsBelow

variable {κ : Type} {bound : Nat} {c d : List (Instr κ)}

theorem append (hc : SlotsBelow bound c) (hd : SlotsBelow bound d) : SlotsBelow bound (c ++ d) :=
  fun i hi => (List.mem_append.mp hi).elim (hc i) (hd i)

theorem nil : SlotsBelow bound ([] : List (Instr κ)) := by
  simp [SlotsBelow]

theorem cons {i : Instr κ} (hi : i.slot? = none) (hc : SlotsBelow bound c) :
    SlotsBelow bound (i :: c) := by
  intro j hj slot hs
  rcases List.mem_cons.mp hj with rfl | hj
  · rw [hi] at hs
    cases hs
  · exact hc j hj slot hs

theorem slot {i : Instr κ} {k : UInt16} (hi : i.slot? = some k) (hk : SlotBelow bound k)
    (hc : SlotsBelow bound c) : SlotsBelow bound (i :: c) := by
  intro j hj slot hs
  rcases List.mem_cons.mp hj with rfl | hj
  · rw [hi] at hs
    cases hs
    exact hk
  · exact hc j hj slot hs

end Code.SlotsBelow

theorem Code.slotsBelow_map {κ κ' : Type} {bound : Nat} {c : List (Instr κ)} (f : κ → κ') :
    SlotsBelow bound (c.map (Instr.map f)) ↔ SlotsBelow bound c := by
  simp [SlotsBelow]

/-- Whether there is a slot for `this` if one of some expressions makes use of it. -/
def SelfBelow (bound : Nat) (es : List Expr) : Prop :=
  ∀ x ∈ es, x.usesSelf = true → 0 < bound

theorem selfBelow_append {bound : Nat} {es es' : List Expr} :
    SelfBelow bound (es ++ es') ↔ SelfBelow bound es ∧ SelfBelow bound es' := by
  simp only [SelfBelow, List.mem_append, or_imp, forall_and]

/-! ## Names -/

theorem foldl_slots_le (es : List Expr) (n : Nat) :
    n ≤ es.foldl (fun n e => max n (e.localSlot?.elim 0 (· + 1))) n := by
  induction es generalizing n with
  | nil => exact Nat.le_refl n
  | cons e es ih => exact Nat.le_trans (Nat.le_max_left _ _) (ih _)

theorem foldl_slots_lt {es : List Expr} {x : Expr} {slot : Nat} (n : Nat) (hx : x ∈ es)
    (hs : x.localSlot? = some slot) :
    slot < es.foldl (fun n e => max n (e.localSlot?.elim 0 (· + 1))) n := by
  induction es generalizing n with
  | nil => cases hx
  | cons y es ih =>
      rcases List.mem_cons.mp hx with rfl | hx
      · refine Nat.lt_of_lt_of_le ?_ (foldl_slots_le es _)
        simp only [hs, Option.elim_some]
        omega
      · exact ih _ hx

theorem Expr.le_slotsNeeded (e : Expr) (n : Nat) : n ≤ e.slotsNeeded n :=
  foldl_slots_le e.preorder n

/-- What an expression is assigned to, if it is an assignment, or else the expression itself. -/
def Expr.place : Expr → Expr
  | .assign _ target _ => target
  | e => e

mutual

/-- The place of an evaluated expression is found when a tree is searched for names. -/
theorem Expr.place_mem_preorder : ∀ (e : Expr) {x : Expr}, x ∈ e.evaluated →
    x.place ∈ e.preorder
  | .literal .., _, h | .name .., _, h | .this _, _, h | .new .., _, h => by
      obtain rfl := List.mem_singleton.mp h
      simp [place, preorder]
  | .field n target _, _, h => by
      rcases List.mem_cons.mp h with rfl | h
      · exact List.mem_cons_self
      · split at h
        · cases h
        · exact List.mem_cons_of_mem _ (target.place_mem_preorder h)
  | .call n _ args, _, h => by
      rcases List.mem_cons.mp h with rfl | h
      · exact List.mem_cons_self
      · exact List.mem_cons_of_mem _ (Expr.place_mem_preorderAll args h)
  | .invoke n target _ args, _, h => by
      rcases List.mem_cons.mp h with rfl | h
      · exact List.mem_cons_self
      refine List.mem_cons_of_mem _ (List.mem_append.mpr ?_)
      rcases List.mem_append.mp h with h | h
      · split at h
        · cases h
        · exact .inl (target.place_mem_preorder h)
      · exact .inr (Expr.place_mem_preorderAll args h)
  | .newArray _ _ operand, _, h | .unary _ _ operand, _, h => by
      rcases List.mem_cons.mp h with rfl | h
      · exact List.mem_cons_self
      · exact List.mem_cons_of_mem _ (operand.place_mem_preorder h)
  | .index _ lhs rhs, _, h | .binary _ _ lhs rhs, _, h => by
      rcases List.mem_cons.mp h with rfl | h
      · exact List.mem_cons_self
      refine List.mem_cons_of_mem _ (List.mem_append.mpr ?_)
      exact (List.mem_append.mp h).imp lhs.place_mem_preorder rhs.place_mem_preorder
  | .assign n target value, x, h => by
      have assigned : x ∈ value.evaluated → x.place ∈ (Expr.assign n target value).preorder :=
        fun hx => List.mem_cons_of_mem _ (List.mem_append_right _ (value.place_mem_preorder hx))
      have itself : (Expr.assign n target value).place ∈ (Expr.assign n target value).preorder :=
        List.mem_cons_of_mem _ (List.mem_append_left _ target.mem_preorder_self)
      cases target with
      | field m of member =>
          rcases List.mem_cons.mp h with rfl | h
          · exact itself
          rcases List.mem_append.mp h with h | h
          · split at h
            · cases h
            · simp [Expr.preorder, of.place_mem_preorder h]
          · exact assigned h
      | index m of at_ =>
          rcases List.mem_cons.mp h with rfl | h
          · exact itself
          rcases List.mem_append.mp h with h | h
          · rcases List.mem_append.mp h with h | h
            · simp [Expr.preorder, of.place_mem_preorder h]
            · simp [Expr.preorder, at_.place_mem_preorder h]
          · exact assigned h
      | literal m _ | this m | name m _ | call m _ _ | invoke m _ _ _ | new m _ _
      | newArray m _ _ | unary m _ _ | binary m _ _ _ | assign m _ _ =>
          rcases List.mem_cons.mp h with rfl | h
          · exact itself
          · exact assigned h

theorem Expr.place_mem_preorderAll : ∀ (es : List Expr) {x : Expr}, x ∈ Expr.evaluatedAll es →
    x.place ∈ Expr.preorderAll es
  | e :: rest, _, h =>
      List.mem_append.mpr ((List.mem_append.mp h).imp e.place_mem_preorder
        (Expr.place_mem_preorderAll rest))

end

theorem Expr.lt_slotsNeeded {e x : Expr} {slot : Nat} (n : Nat) (hx : x ∈ e.evaluated)
    (hs : x.place.localSlot? = some slot) : slot < e.slotsNeeded n :=
  foldl_slots_lt n (e.place_mem_preorder hx) hs

/-! ## Instructions -/

theorem Instr.slot?_untargeted {κ : Type} (i : Instr κ) : i.untargeted.slot? = i.slot? := by
  cases i <;> rfl

/-- The slots that an expression itself uses. -/
theorem Expr.slot_of_mem_own {x : Expr} {i : Instr String} {slot : UInt16} (hi : i ∈ x.own)
    (hs : i.slot? = some slot) :
    (x.usesSelf = true ∧ slot = 0) ∨
      ∃ n, x.place.localSlot? = some n ∧ slot = slotOperand n := by
  cases x with
  | literal n v => cases v <;> simp_all [own, SymbolicCode.constant, Instr.slot?]
  | name n ident =>
      rcases hr : n.refers with _ | (k | ⟨owner, _ | _, d⟩ | ⟨owner, st, d⟩ | cls | cls)
      all_goals simp [own, hr, self] at hi
      case some.localVar =>
        subst hi
        cases hs
        exact .inr ⟨k, by simp [place, localSlot?, note, hr], rfl⟩
      case some.field.false =>
        rcases hi with rfl | rfl
        · cases hs
          exact .inl ⟨by simp [usesSelf, hr], rfl⟩
        · cases hs
      case some.field.true =>
        subst hi
        cases hs
  | this n =>
      obtain rfl := List.mem_singleton.mp hi
      cases hs
      exact .inl ⟨rfl, rfl⟩
  | field n target member =>
      simp only [own] at hi
      split at hi
      · simp_all [Instr.slot?]
      · simp_all [Instr.slot?]
      · split at hi <;> simp_all [Instr.slot?]
  | call n callee args =>
      rcases hr : n.refers with _ | (k | ⟨owner, st, d⟩ | ⟨owner, _ | _, d⟩ | cls | cls)
      all_goals simp [own, hr, self] at hi
      case some.method.false =>
        rcases hi with rfl | rfl
        · cases hs
          exact .inl ⟨by simp [usesSelf, hr], rfl⟩
        · cases hs
      case some.method.true =>
        subst hi
        cases hs
  | invoke n target callee args =>
      simp only [own] at hi
      split at hi <;> simp_all [Instr.slot?]
  | new n type args =>
      simp only [own] at hi
      split at hi
      · simp only [SymbolicCode.create, List.mem_cons, List.not_mem_nil, or_false] at hi
        rcases hi with rfl | rfl | rfl <;> cases hs
      · cases hi
  | newArray n elem length | index n target at_ =>
      obtain rfl := List.mem_singleton.mp hi
      cases hs
  | unary n op operand =>
      obtain rfl := List.mem_singleton.mp hi
      cases op <;> cases hs
  | binary n op lhs rhs =>
      cases op with
      | and | or =>
          simp only [own, skipInstr, List.mem_cons, List.not_mem_nil, or_false] at hi
          rcases hi with rfl | rfl | rfl <;> cases hs
      | add | sub | mul | div | rem | eq | ne | lt | le | gt | ge =>
          simp only [own, skipInstr, List.mem_singleton] at hi
          cases hb : n.ty.any Ty.isString <;> rw [hb] at hi <;> subst hi <;> cases hs
  | assign n target value =>
      simp only [own, stores] at hi
      split at hi
      · next k hr =>
          simp only [List.mem_cons, List.not_mem_nil, or_false] at hi
          rcases hi with rfl | rfl
          · cases hs
          · cases hs
            exact .inr ⟨k, by simp [place, localSlot?, hr], rfl⟩
      · simp only [List.mem_cons, List.not_mem_nil, or_false] at hi
        rcases hi with rfl | rfl <;> cases hs
      · next m ident _ hr =>
          simp only [self, List.singleton_append, List.mem_cons, List.not_mem_nil, or_false] at hi
          rcases hi with rfl | rfl | rfl
          · cases hs
            simp only [note] at hr
            exact .inl ⟨by simp [usesSelf, hr], rfl⟩
          · cases hs
          · cases hs
      · simp only [List.mem_cons, List.not_mem_nil, or_false] at hi
        rcases hi with rfl | rfl <;> cases hs
      · simp only [List.mem_cons, List.not_mem_nil, or_false] at hi
        rcases hi with rfl | rfl <;> cases hs
      · simp only [List.mem_cons, List.not_mem_nil, or_false] at hi
        rcases hi with rfl | rfl <;> cases hs
      · cases hi

theorem Expr.code_slotsBelow_of_evaluated {e : Expr} {pc bound : Nat}
    (hself : SelfBelow bound e.evaluated)
    (hlocals : ∀ x ∈ e.evaluated, ∀ n, x.place.localSlot? = some n → n < bound) :
    SlotsBelow bound (e.code pc) := by
  intro i hi slot hs
  obtain ⟨x, hx, hown⟩ := e.contributes_of_mem_code hi
  rw [← i.slot?_untargeted] at hs
  obtain ⟨hu, rfl⟩ | ⟨n, hn, rfl⟩ := x.slot_of_mem_own hown hs
  · exact ⟨0, hself x hx hu, rfl⟩
  · exact ⟨n, hlocals x hx n hn, rfl⟩

theorem Expr.code_slotsBelow {e : Expr} {pc n bound : Nat} (hself : SelfBelow bound e.evaluated)
    (hn : e.slotsNeeded n ≤ bound) : SlotsBelow bound (e.code pc) :=
  Expr.code_slotsBelow_of_evaluated hself fun _ hx _ hk =>
    Nat.lt_of_lt_of_le (Expr.lt_slotsNeeded n hx hk) hn

/-! ## Statements -/

theorem Expr.le_slotsNeeded? (e : Option Expr) (n : Nat) : n ≤ Expr.slotsNeeded? n e := by
  cases e with
  | none => exact Nat.le_refl n
  | some e => exact e.le_slotsNeeded n

theorem LocalVar.le_slotsNeeded (d : LocalVar) (n : Nat) : n ≤ d.slotsNeeded n :=
  Nat.le_trans (Nat.le_max_left _ _) (Expr.le_slotsNeeded? _ _)

theorem ForInit.le_slotsNeeded (init : ForInit) (n : Nat) : n ≤ init.slotsNeeded n := by
  cases init with
  | none => exact Nat.le_refl n
  | declare d => exact d.le_slotsNeeded n
  | expr pos e => exact e.le_slotsNeeded n

mutual

theorem Stmt.le_slotsNeeded : ∀ (s : Stmt) (n : Nat), n ≤ s.slotsNeeded n
  | .block _ body, n => Stmt.le_allSlotsNeeded body n
  | .declare d, n => d.le_slotsNeeded n
  | .ifThen _ cond s, n => Nat.le_trans (cond.le_slotsNeeded n) (s.le_slotsNeeded _)
  | .ifElse _ cond s t, n =>
      Nat.le_trans (cond.le_slotsNeeded n)
        (Nat.le_trans (s.le_slotsNeeded _) (t.le_slotsNeeded _))
  | .whileLoop _ cond body, n => Nat.le_trans (cond.le_slotsNeeded n) (body.le_slotsNeeded _)
  | .forLoop _ init cond update body, n =>
      Nat.le_trans (init.le_slotsNeeded n) (Nat.le_trans (Expr.le_slotsNeeded? cond _)
        (Nat.le_trans (Expr.le_slotsNeeded? update _) (body.le_slotsNeeded _)))
  | .ret _ value, n => Expr.le_slotsNeeded? value n
  | .throw _ value, n => value.le_slotsNeeded n
  | .synchronized _ lock _ body, n =>
      Nat.le_trans (lock.le_slotsNeeded n) (Stmt.le_allSlotsNeeded body _)
  | .expr _ e, n => e.le_slotsNeeded n
  | .empty _, n => Nat.le_refl n

theorem Stmt.le_allSlotsNeeded : ∀ (ss : List Stmt) (n : Nat), n ≤ Stmt.allSlotsNeeded n ss
  | [], n => Nat.le_refl n
  | s :: rest, n => Nat.le_trans (s.le_slotsNeeded n) (Stmt.le_allSlotsNeeded rest _)

end

section Bounded

variable {bound : Nat}

theorem Expr.discardedCode_slotsBelow {e : Expr} {pc n : Nat} (hself : SelfBelow bound e.evaluated)
    (hn : e.slotsNeeded n ≤ bound) : SlotsBelow bound (e.discardedCode pc) := by
  unfold Expr.discardedCode
  split
  · exact Expr.code_slotsBelow hself hn
  · exact (Expr.code_slotsBelow hself hn).append (.cons rfl .nil)

theorem Expr.discardedCode?_slotsBelow {e : Option Expr} {pc n : Nat}
    (hself : SelfBelow bound (Expr.evaluated? e)) (hn : Expr.slotsNeeded? n e ≤ bound) :
    SlotsBelow bound (Expr.discardedCode? pc e) := by
  cases e with
  | none => exact .nil
  | some e => exact Expr.discardedCode_slotsBelow hself hn

theorem LocalVar.code_slotsBelow {d : LocalVar} {pc n : Nat}
    (hself : SelfBelow bound (Expr.evaluated? d.init)) (hn : d.slotsNeeded n ≤ bound) :
    SlotsBelow bound (d.code pc) := by
  unfold LocalVar.slotsNeeded at hn
  unfold LocalVar.code
  split
  · next e slot he hslot =>
      rw [he] at hself hn
      rw [hslot] at hn
      have hle := Nat.le_trans (Expr.le_slotsNeeded e _) hn
      simp only [Option.elim_some] at hle
      exact (Expr.code_slotsBelow hself hn).append (.slot rfl ⟨slot, by omega, rfl⟩ .nil)
  · exact .nil

theorem ForInit.code_slotsBelow {init : ForInit} {pc n : Nat}
    (hself : SelfBelow bound init.evaluated) (hn : init.slotsNeeded n ≤ bound) :
    SlotsBelow bound (init.code pc) := by
  cases init with
  | none => exact .nil
  | declare d => exact LocalVar.code_slotsBelow hself hn
  | expr pos e => exact Expr.discardedCode_slotsBelow hself hn

mutual

theorem Stmt.code_slotsBelow : ∀ (s : Stmt) {pc slot n : Nat}, SelfBelow bound s.evaluated →
    s.slotsNeeded n ≤ bound → slot + s.locks ≤ bound → SlotsBelow bound (s.code pc slot)
  | .block _ body, _, _, _, hself, hn, hlocks => Stmt.codeAll_slotsBelow body hself hn hlocks
  | .declare d, _, _, _, hself, hn, _ => LocalVar.code_slotsBelow hself hn
  | .ifThen _ cond s, _, _, _, hself, hn, hlocks => by
      obtain ⟨hcond, hs⟩ := selfBelow_append.mp hself
      have hle := Nat.le_trans (s.le_slotsNeeded _) hn
      exact (Expr.code_slotsBelow hcond hle).append
        (.cons rfl (s.code_slotsBelow hs hn hlocks))
  | .ifElse _ cond s t, _, _, _, hself, hn, hlocks => by
      obtain ⟨hself, ht⟩ := selfBelow_append.mp hself
      obtain ⟨hcond, hs⟩ := selfBelow_append.mp hself
      have hle := Nat.le_trans (t.le_slotsNeeded _) hn
      have hle' := Nat.le_trans (s.le_slotsNeeded _) hle
      simp only [Stmt.locks] at hlocks
      exact ((Expr.code_slotsBelow hcond hle').append
        (.cons rfl (s.code_slotsBelow hs hle (by omega)))).append
        (.cons rfl (t.code_slotsBelow ht hn (by omega)))
  | .whileLoop _ cond body, _, _, _, hself, hn, hlocks => by
      obtain ⟨hcond, hbody⟩ := selfBelow_append.mp hself
      have hle := Nat.le_trans (body.le_slotsNeeded _) hn
      exact ((Expr.code_slotsBelow hcond hle).append
        (.cons rfl (body.code_slotsBelow hbody hn hlocks))).append (.cons rfl .nil)
  | .forLoop _ init cond update body, _, _, _, hself, hn, hlocks => by
      obtain ⟨hself, hbody⟩ := selfBelow_append.mp hself
      obtain ⟨hself, hupdate⟩ := selfBelow_append.mp hself
      obtain ⟨hinit, hcond⟩ := selfBelow_append.mp hself
      have hle := Nat.le_trans (body.le_slotsNeeded _) hn
      have hle' := Nat.le_trans (Expr.le_slotsNeeded? update _) hle
      have hle'' := Nat.le_trans (Expr.le_slotsNeeded? cond _) hle'
      cases cond with
      | none =>
          exact (((ForInit.code_slotsBelow hinit hle'').append
            (body.code_slotsBelow hbody hn hlocks)).append
            (Expr.discardedCode?_slotsBelow hupdate hle)).append (.cons rfl .nil)
      | some cond =>
          exact ((((ForInit.code_slotsBelow hinit hle'').append
            (Expr.code_slotsBelow hcond hle')).append
            (.cons rfl (body.code_slotsBelow hbody hn hlocks))).append
            (Expr.discardedCode?_slotsBelow hupdate hle)).append (.cons rfl .nil)
  | .ret _ none, _, _, _, _, _, _ => .cons rfl .nil
  | .ret _ (some e), _, _, _, hself, hn, _ =>
      (Expr.code_slotsBelow hself hn).append (.cons rfl .nil)
  | .throw _ e, _, _, _, hself, hn, _ => (Expr.code_slotsBelow hself hn).append (.cons rfl .nil)
  | .synchronized _ lock _ body, pc, slot, _, hself, hn, hlocks => by
      obtain ⟨hlock, hbody⟩ := selfBelow_append.mp hself
      have hle := Nat.le_trans (Stmt.le_allSlotsNeeded body _) hn
      simp only [Stmt.locks] at hlocks
      have own : SlotBelow bound (UInt16.ofNat slot) := ⟨slot, by omega, rfl⟩
      refine (SlotsBelow.append ?_ (Stmt.codeAll_slotsBelow body hbody hn (by omega))).append
        (.slot rfl own (.cons rfl .nil))
      exact (Expr.code_slotsBelow hlock hle).append (.cons rfl (.slot rfl own (.cons rfl .nil)))
  | .expr _ e, _, _, _, hself, hn, _ => Expr.discardedCode_slotsBelow hself hn
  | .empty _, _, _, _, _, _, _ => .nil

theorem Stmt.codeAll_slotsBelow : ∀ (ss : List Stmt) {pc slot n : Nat},
    SelfBelow bound (Stmt.evaluatedAll ss) → Stmt.allSlotsNeeded n ss ≤ bound →
      slot + Stmt.locksAll ss ≤ bound → SlotsBelow bound (Stmt.codeAll pc slot ss)
  | [], _, _, _, _, _, _ => .nil
  | s :: rest, _, _, _, hself, hn, hlocks => by
      obtain ⟨hs, hrest⟩ := selfBelow_append.mp hself
      have hle := Nat.le_trans (Stmt.le_allSlotsNeeded rest _) hn
      simp only [Stmt.locksAll] at hlocks
      exact (s.code_slotsBelow hs hle (by omega)).append
        (Stmt.codeAll_slotsBelow rest hrest hn (by omega))

end

end Bounded

/-! ## Methods -/

theorem MethodDecl.code_slotsBelow {m : MethodDecl} {sig : MethodSig}
    (hself : sig.isStatic = true → ∀ x ∈ Stmt.evaluatedAll m.body.body, x.usesSelf = false) :
    SlotsBelow (m.firstLock sig + Stmt.locksAll m.body.body) (m.code sig) := by
  have hbound : SelfBelow (m.firstLock sig + Stmt.locksAll m.body.body)
      (Stmt.evaluatedAll m.body.body) := by
    intro x hx hu
    cases hstatic : sig.isStatic with
    | true => simp [hself hstatic x hx] at hu
    | false =>
        have : firstSlot sig.isStatic = 1 := by rw [hstatic]; rfl
        unfold MethodDecl.firstLock
        omega
  refine (Stmt.codeAll_slotsBelow (n := 0) m.body.body hbound ?_ (Nat.le_refl _)).append ?_
  · exact Nat.le_trans (Nat.le_max_right _ _) (Nat.le_add_right _ _)
  · split
    · exact .cons rfl .nil
    · exact .nil

/-- Whether no value of a field names a local variable, and those of static fields make no use of
`this`. -/
def FieldValuesClosed (fields : List (FieldDecl × FieldSig)) : Prop :=
  ∀ f ∈ fields, ∀ e, f.1.init = some e → ∀ x ∈ e.evaluated,
    x.place.localSlot? = none ∧ (f.2.isStatic = true → x.usesSelf = false)

theorem fieldValues_slotsBelow (cls : String) (isStatic : Bool) :
    ∀ (fields : List (FieldDecl × FieldSig)) {pc : Nat}, FieldValuesClosed fields →
      SlotsBelow (firstSlot isStatic) (SymbolicCode.fieldValues cls isStatic pc fields)
  | [], _, _ => .nil
  | (f, sig) :: rest, pc, h => by
      have hrest : FieldValuesClosed rest := fun g hg => h g (List.mem_cons_of_mem _ hg)
      unfold SymbolicCode.fieldValues
      split
      · exact fieldValues_slotsBelow cls isStatic rest hrest
      · next e he =>
          split
          · next hsig =>
              have hf := h (f, sig) List.mem_cons_self e he
              refine SlotsBelow.append (SlotsBelow.append (.append ?_ ?_) ?_)
                (fieldValues_slotsBelow cls isStatic rest hrest)
              · cases isStatic
                · exact .slot rfl ⟨0, by decide, rfl⟩ .nil
                · exact .nil
              · refine Expr.code_slotsBelow_of_evaluated (fun x hx hu => ?_) fun x hx n hn => ?_
                · cases isStatic
                  · decide
                  · rw [(hf x hx).2 hsig] at hu
                    cases hu
                · rw [(hf x hx).1] at hn
                  cases hn
              · cases isStatic <;> exact .cons rfl .nil
          · exact fieldValues_slotsBelow cls isStatic rest hrest

theorem instanceInit_slotsBelow {cls superclass : String} {fields : List (FieldDecl × FieldSig)}
    (h : FieldValuesClosed fields) :
    SlotsBelow 1 (SymbolicCode.instanceInit cls superclass fields) :=
  (SlotsBelow.append (.slot rfl ⟨0, by decide, rfl⟩ (.cons rfl .nil))
    (fieldValues_slotsBelow cls false fields h)).append (.cons rfl .nil)

theorem classInit_slotsBelow {cls : String} {fields : List (FieldDecl × FieldSig)}
    (h : FieldValuesClosed fields) : SlotsBelow 0 (SymbolicCode.classInit cls fields) :=
  (fieldValues_slotsBelow cls true fields h).append (.cons rfl .nil)

end ProbeLang
