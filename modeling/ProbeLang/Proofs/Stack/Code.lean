import ProbeLang.Proofs.Analysis.Attribution
import ProbeLang.Proofs.Stack.Effect

/-!
# The effect of the code of expressions and statements

The code of an expression takes nothing from the stack and leaves one value, or none if it calls a
method that gives nothing back; that of a statement leaves the stack as it is. This takes from the
analysis that every value that is used is one (`Expr.Stacks`), and that a call has an argument for
each parameter in the descriptor of its method.
-/

namespace ProbeLang

open CodeM Code SymbolicCode

/-! ## Values -/

/-- The expressions whose values an expression uses. -/
def Expr.used : Expr → List Expr
  | .literal .. | .name .. | .this _ | .new .. => []
  | .field n target _ => if n.isStaticField then [] else [target]
  | .call _ _ args => args
  | .invoke n target _ args => (if n.isStaticMethod then [] else [target]) ++ args
  | .newArray _ _ length => [length]
  | .index _ target i => [target, i]
  | .unary _ _ operand => [operand]
  | .binary _ _ lhs rhs => [lhs, rhs]
  | .assign _ (.field n target _) value => (if n.isStaticField then [] else [target]) ++ [value]
  | .assign _ (.index _ target i) value => [target, i, value]
  | .assign _ _ value => [value]

/-- Whether the method that a call refers to gives nothing back. -/
def Note.callsVoid (n : Note) : Bool :=
  match n.refers with
  | some (.method _ _ d) => (readMethodDescriptor d).any fun sig => sig.2 = .void
  | _ => false

/-- How many values an expression leaves. -/
def Expr.leaves : Expr → Nat
  | .call n _ _ | .invoke n _ _ _ => if n.callsVoid then 0 else 1
  | _ => 1

/-- Whether the constant that names the method of a call ends with the descriptor of the method, the
call has an argument for each parameter in it, and its type is what it says is given back. -/
def Note.Calls (n : Note) (name : String) (args : List Expr) : Prop :=
  ∃ owner isStatic d params ret, n.refers = some (.method owner isStatic d) ∧
    readMethodDescriptor d = some (params, ret) ∧
    referredSignature? (methodReference owner name d) = some (params, ret) ∧
    params.length = args.length ∧ n.ty = some ret

/-- Whether what an expression uses are values, and it is one itself or calls a method. -/
structure Expr.Uses (e : Expr) : Prop where
  used : ∀ x ∈ e.used, x.ty? ≠ some .void
  own : match e with
    | .call n callee args | .invoke n _ callee args => n.Calls callee.name args
    | .new n _ _ => n.ty ≠ some .void ∧ ∀ cls, n.refers = some (.cls cls) →
        callEffect? (initReference cls) = some (0, 0)
    | e => e.ty? ≠ some .void

/-- Whether an expression refers to what its kind asks for and has what it uses on the stack. -/
structure Expr.Stacks (e : Expr) : Prop extends e.Uses where
  resolved : e.Resolved

theorem Note.Calls.callsVoid {n : Note} {name : String} {args : List Expr}
    (h : n.Calls name args) : n.callsVoid = true ↔ n.ty = some .void := by
  obtain ⟨owner, isStatic, d, params, ret, hr, hread, -, -, hty⟩ := h
  simp [Note.callsVoid, hr, hread, hty]

/-- A call takes its arguments and leaves what its method gives back. -/
theorem Note.Calls.effect {n : Note} {name : String} {args : List Expr} (h : n.Calls name args) :
    ∃ owner isStatic d, n.refers = some (.method owner isStatic d) ∧
      callEffect? (methodReference owner name d) =
        some (args.length, if n.callsVoid then 0 else 1) := by
  have hvoid := h.callsVoid
  obtain ⟨owner, isStatic, d, params, ret, hr, -, hread, hlength, hty⟩ := h
  refine ⟨owner, isStatic, d, hr, ?_⟩
  simp only [callEffect?, hread, Option.map_some, hlength, hvoid, hty, Option.some.injEq]

/-- An expression leaves nothing just if it has the type of nothing. -/
theorem Expr.Stacks.leaves {e : Expr} (h : e.Stacks) :
    e.leaves = if e.ty? = some .void then 0 else 1 := by
  cases e with
  | call n callee args | invoke n target callee args =>
      have hcalls : n.Calls callee.name args := h.own
      simp only [Expr.leaves, hcalls.callsVoid]
      rfl
  | new n type args =>
      exact (if_neg h.own.1).symm
  | _ =>
      exact (if_neg h.own).symm

/-! ## Pieces -/

section Pieces

variable {pc a b k m n : Nat} {i j : Instr String} {c : SymbolicCode}

/-- Code behind which one instruction uses some of what is left. -/
theorem Code.HasEffect.instr_behind (hc : HasEffect callEffect? pc c a m)
    (hi : i.effect? callEffect? = some (k, n)) (ht : i.target? = none) (hk : k ≤ m)
    (hb : b = m - k + n) : HasEffect callEffect? pc (c ++ [i]) a b :=
  hc.append (.instr hi ht) hk hb

/-- Code behind which a copy of what is left is stored. -/
theorem Code.HasEffect.keep_behind (hc : HasEffect callEffect? pc c 0 m)
    (hi : i.effect? callEffect? = some (m, m + 1)) (hti : i.target? = none)
    (hj : j.effect? callEffect? = some (m, 0)) (htj : j.target? = none) :
    HasEffect callEffect? pc (c ++ [i, j]) 0 1 := by
  have hcopy : HasEffect callEffect? pc (c ++ [i]) 0 (m + 1) :=
    hc.instr_behind hi hti (Nat.le_refl m) (by omega)
  have hstore := hcopy.instr_behind hj htj (Nat.le_succ m) (b := 1) (by omega)
  rwa [List.append_assoc] at hstore

/-- Code behind which what is left is locked. -/
theorem Code.HasEffect.lock_behind (slot : Nat) (hc : HasEffect callEffect? pc c 0 1) :
    HasEffect callEffect? pc (c ++ [.dup, .store (UInt16.ofNat slot), .monitorEnter]) 0 0 := by
  have hcopy := hc.instr_behind (i := .dup) rfl rfl (Nat.le_refl 1) (b := 2) rfl
  have hstore := hcopy.instr_behind (i := .store (UInt16.ofNat slot)) rfl rfl
    (Nat.le_succ 1) (b := 1) rfl
  have henter := hstore.instr_behind (i := .monitorEnter) rfl rfl (Nat.le_refl 1) (b := 0) rfl
  rwa [List.append_assoc, List.append_assoc] at henter

theorem self_effect : HasEffect callEffect? pc self 0 1 :=
  .instr rfl rfl

theorem constant_effect (v : Literal) : HasEffect callEffect? pc (SymbolicCode.constant v) 0 1 := by
  cases v <;> exact .instr rfl rfl

/-- Creating an object calls its initialiser with a copy. -/
theorem create_effect {cls : String} (h : callEffect? (initReference cls) = some (0, 0)) :
    HasEffect callEffect? pc (create cls) 0 1 := by
  have hcopy : HasEffect callEffect? pc [.new cls, .dup] 0 2 :=
    HasEffect.append (c := [.new cls]) (.instr rfl rfl) (.instr rfl rfl) (Nat.le_refl 1) rfl
  exact hcopy.instr_behind (i := .invoke (initReference cls)) (k := 1) (n := 0)
    (by simp [Instr.effect?, h]) rfl (by omega) rfl

end Pieces

/-! ## Expressions -/

namespace Expr

theorem Stacks.leaves_eq_one {e : Expr} (h : e.Stacks) (hty : e.ty? ≠ some .void) :
    e.leaves = 1 := by
  rw [h.leaves, if_neg hty]

/-- An expression is evaluated with the expressions whose values it uses. -/
theorem evaluated_eq (e : Expr) : e.evaluated = e :: Expr.evaluatedAll e.used := by
  cases e with
  | field n target member =>
      by_cases hn : n.isStaticField = true <;> simp [evaluated, used, evaluatedAll, hn]
  | invoke n target callee args =>
      by_cases hn : n.isStaticMethod = true <;> simp [evaluated, used, evaluatedAll, hn]
  | assign n target value =>
      cases target with
      | field m of member =>
          by_cases hm : m.isStaticField = true <;> simp [evaluated, used, evaluatedAll, hm]
      | _ => simp [evaluated, used, evaluatedAll]
  | _ => simp [evaluated, used, evaluatedAll]

theorem mem_evaluatedAll {x : Expr} {es : List Expr} :
    x ∈ Expr.evaluatedAll es ↔ ∃ e ∈ es, x ∈ e.evaluated := by
  induction es with
  | nil => simp [evaluatedAll]
  | cons e rest ih => simp [evaluatedAll, ih]

/-- Whether an expression, and all that is evaluated with it, has what it uses on the stack. -/
def AllStack (e : Expr) : Prop :=
  ∀ x ∈ e.evaluated, x.Stacks

theorem AllStack.self {e : Expr} (h : e.AllStack) : e.Stacks :=
  h e e.mem_evaluated_self

/-- What an expression uses is a value. -/
theorem AllStack.used {e x : Expr} (h : e.AllStack) (hx : x ∈ e.used) :
    x.AllStack ∧ x.leaves = 1 := by
  have hall : x.AllStack := fun y hy => h y (by
    rw [evaluated_eq]
    exact List.mem_cons_of_mem _ (mem_evaluatedAll.mpr ⟨x, hx, hy⟩))
  exact ⟨hall, hall.self.leaves_eq_one (h.self.used x hx)⟩

end Expr

mutual

/-- The code of an expression takes nothing and leaves its value. -/
theorem Expr.code_effect : ∀ (e : Expr) (pc : Nat), e.AllStack →
    HasEffect callEffect? pc (e.code pc) 0 e.leaves
  | .literal _ v, pc, _ => constant_effect v
  | .name n ident, pc, h => by
      show HasEffect callEffect? pc _ 0 1
      rcases h.self.resolved with ⟨slot, hr⟩ | ⟨owner, _ | _, d, hr⟩ <;>
        simp only [Expr.code, hr]
      · exact .instr rfl rfl
      · exact self_effect.instr_behind rfl rfl (Nat.le_refl 1) rfl
      · exact .instr rfl rfl
  | .this _, pc, _ => self_effect
  | .field n target member, pc, h => by
      show HasEffect callEffect? pc _ 0 1
      rcases h.self.resolved with ⟨owner, _ | _, d, hr⟩ | ⟨hr, -, elem, hty⟩ <;>
        simp only [Expr.code, hr]
      · have htarget := target.value_effect pc (h.used (by simp [used, Note.isStaticField, hr]))
        exact htarget.instr_behind rfl rfl (Nat.le_refl 1) rfl
      · exact .instr rfl rfl
      · have htarget := target.value_effect pc (h.used (by simp [used, Note.isStaticField, hr]))
        rw [hty]
        exact htarget.instr_behind rfl rfl (Nat.le_refl 1) rfl
  | .call n callee args, pc, h => by
      have hcalls : n.Calls callee.name args := h.self.own
      obtain ⟨owner, _ | _, d, hr, heffect⟩ := hcalls.effect <;> simp only [Expr.code, hr]
      · have hargs := Expr.codeAll_effect args (pc + size self) fun e he => h.used he
        have hvalues := self_effect.append hargs (Nat.zero_le _) rfl
        refine hvalues.instr_behind (k := args.length + 1) (n := if n.callsVoid then 0 else 1) ?_ rfl
          (by omega) ?_
        · simp only [Instr.effect?, heffect, Option.map_some]
        · simp only [Expr.leaves]
          omega
      · have hargs := Expr.codeAll_effect args pc fun e he => h.used he
        refine hargs.instr_behind heffect rfl (Nat.le_refl _) ?_
        simp only [Expr.leaves]
        omega
  | .invoke n target callee args, pc, h => by
      have hcalls : n.Calls callee.name args := h.self.own
      obtain ⟨owner, _ | _, d, hr, heffect⟩ := hcalls.effect <;> simp only [Expr.code, hr]
      · have htarget := target.value_effect pc
          (h.used (by simp [used, Note.isStaticMethod, hr]))
        have hargs := Expr.codeAll_effect args (pc + size (target.code pc)) fun e he =>
          h.used (List.mem_append_right _ he)
        have hvalues := htarget.append hargs (Nat.zero_le _) rfl
        refine hvalues.instr_behind (k := args.length + 1) (n := if n.callsVoid then 0 else 1) ?_ rfl
          (by omega) ?_
        · simp only [Instr.effect?, heffect, Option.map_some]
        · simp only [Expr.leaves]
          omega
      · have hargs := Expr.codeAll_effect args pc fun e he =>
          h.used (List.mem_append_right _ he)
        refine hargs.instr_behind heffect rfl (Nat.le_refl _) ?_
        simp only [Expr.leaves]
        omega
  | .new n type args, pc, h => by
      obtain ⟨cls, hr⟩ := h.self.resolved
      simp only [Expr.code, hr]
      exact create_effect (h.self.own.2 cls hr)
  | .newArray n elem length, pc, h =>
      (length.value_effect pc (h.used List.mem_cons_self)).instr_behind rfl rfl (Nat.le_refl 1) rfl
  | .index n target i, pc, h => by
      have htarget := target.value_effect pc (h.used List.mem_cons_self)
      have hi := i.value_effect (pc + size (target.code pc))
        (h.used (List.mem_cons_of_mem _ List.mem_cons_self))
      exact (htarget.append hi (Nat.zero_le _) rfl).instr_behind rfl rfl (Nat.le_refl 2) rfl
  | .unary n op operand, pc, h => by
      have hoperand := operand.value_effect pc (h.used List.mem_cons_self)
      cases op <;> exact hoperand.instr_behind rfl rfl (Nat.le_refl 1) rfl
  | .binary n op lhs rhs, pc, h => by
      show HasEffect callEffect? pc _ 0 1
      have hlhs := lhs.value_effect pc (h.used List.mem_cons_self)
      have hrhs (pc : Nat) := rhs.value_effect pc
        (h.used (List.mem_cons_of_mem _ List.mem_cons_self))
      cases op with
      | and | or =>
          simp only [Expr.code, skipInstr]
          rw [List.append_assoc, List.cons_append, List.append_cons (lhs.code pc)]
          have hcopy := hlhs.instr_behind (i := .dup) rfl rfl (Nat.le_refl 1) (b := 2) rfl
          refine hcopy.jump_over (k := 1) rfl ?_ (Nat.le_refl 2) rfl ?_
          · refine HasEffect.append (c := [.pop]) (n := 1) (.instr rfl rfl) ?_ (Nat.le_refl 0) rfl
            simpa [Instr.size, Nat.add_assoc] using
              hrhs (pc + size (lhs.code pc) + 7)
          · simp [Instr.target?, Instr.size]
            omega
      | add | sub | mul | div | rem | eq | ne | lt | le | gt | ge =>
          have hboth := hlhs.append (hrhs _) (Nat.zero_le _) (b := 2) rfl
          refine hboth.instr_behind (k := 2) (n := 1) ?_ ?_ (Nat.le_refl 2) rfl <;>
            cases n.ty.any Ty.isString <;> rfl
  | .assign n target value, pc, h => by
      show HasEffect callEffect? pc _ 0 1
      have hplace := h.self.resolved.2
      cases target with
      | name m ident =>
          have hvalue (pc : Nat) := value.value_effect pc (h.used List.mem_cons_self)
          rcases hplace with ⟨slot, hr⟩ | ⟨owner, _ | _, d, hr⟩ <;> simp only [Expr.code, hr]
          · exact (hvalue pc).keep_behind rfl rfl rfl rfl
          · have hboth : HasEffect callEffect? pc (self ++ value.code (pc + size self)) 0 2 :=
              self_effect.append (hvalue _) (Nat.zero_le _) rfl
            have hkeep := hboth.keep_behind (i := .dupX1) rfl rfl
              (j := .putField (fieldReference owner ident d)) rfl rfl
            rwa [List.append_assoc] at hkeep
          · exact (hvalue pc).keep_behind rfl rfl rfl rfl
      | field m of member =>
          obtain ⟨owner, _ | _, d, hr⟩ := hplace <;> simp only [Expr.code, hr]
          · have hof := of.value_effect pc (h.used (by simp [used, Note.isStaticField, hr]))
            have hvalue (pc : Nat) := value.value_effect pc (h.used (by simp [used]))
            have hboth := hof.append (hvalue _) (Nat.zero_le _) (b := 2) rfl
            have hkeep := hboth.keep_behind (i := .dupX1) rfl rfl
              (j := .putField (fieldReference owner member.name d)) rfl rfl
            rwa [List.append_assoc] at hkeep
          · have hvalue := value.value_effect pc (h.used (by simp [used]))
            exact hvalue.keep_behind rfl rfl rfl rfl
      | index m of at_ =>
          have hr : m.refers = none := hplace
          simp only [Expr.code, hr]
          have hof := of.value_effect pc (h.used (by simp [used]))
          have hat (pc : Nat) := at_.value_effect pc (h.used (by simp [used]))
          have hvalue (pc : Nat) := value.value_effect pc (h.used (by simp [used]))
          have hboth := hof.append (hat _) (Nat.zero_le _) (b := 2) rfl
          refine (hboth.append (n := 1) ?_ (Nat.zero_le _) (b := 3) rfl).keep_behind rfl rfl rfl rfl
          rw [size_append, ← Nat.add_assoc]
          exact hvalue _
      | _ => exact hplace.elim

theorem Expr.value_effect (e : Expr) (pc : Nat) (h : e.AllStack ∧ e.leaves = 1) :
    HasEffect callEffect? pc (e.code pc) 0 1 :=
  h.2 ▸ e.code_effect pc h.1

theorem Expr.codeAll_effect : ∀ (es : List Expr) (pc : Nat),
    (∀ e ∈ es, e.AllStack ∧ e.leaves = 1) →
      HasEffect callEffect? pc (Expr.codeAll pc es) 0 es.length
  | [], pc, _ => .nil
  | e :: rest, pc, h => by
      obtain ⟨he, hrest⟩ := List.forall_mem_cons.mp h
      refine (e.value_effect pc he).append (codeAll_effect rest _ hrest) (Nat.zero_le _) ?_
      rw [List.length_cons]
      omega

end

/-! ## Statements -/

/-- The expression of an optional one. -/
def Expr.used? : Option Expr → List Expr
  | none => []
  | some e => [e]

/-- The expressions whose values the first part of a `for` header uses. -/
def ForInit.used : ForInit → List Expr
  | .declare d => Expr.used? d.init
  | _ => []

mutual

/-- The expressions whose values a statement and those in it use. -/
def Stmt.used : Stmt → List Expr
  | .block _ body => Stmt.usedAll body
  | .declare d => Expr.used? d.init
  | .ifThen _ cond s | .whileLoop _ cond s => cond :: s.used
  | .ifElse _ cond s t => cond :: (s.used ++ t.used)
  | .forLoop _ init cond _ body => init.used ++ Expr.used? cond ++ body.used
  | .ret _ value => Expr.used? value
  | .throw _ value => [value]
  | .synchronized _ lock _ body => lock :: Stmt.usedAll body
  | .expr _ _ | .empty _ => []

/-- The expressions whose values statements use. -/
def Stmt.usedAll : List Stmt → List Expr
  | [] => []
  | s :: rest => s.used ++ Stmt.usedAll rest

end

/-- Whether what is evaluated uses values, and what is used is one. -/
structure Expr.Consumes (evaluated used : List Expr) : Prop where
  evaluated : ∀ x ∈ evaluated, x.Uses
  used : ∀ x ∈ used, x.ty? ≠ some .void

/-- Whether what is evaluated has what it uses on the stack, and what is used is a value. -/
structure Expr.Stack (evaluated used : List Expr) : Prop where
  evaluated : ∀ x ∈ evaluated, x.Stacks
  used : ∀ x ∈ used, x.ty? ≠ some .void

section Statements

variable {es es' u u' : List Expr}

theorem Expr.Consumes.append (h : Expr.Consumes es u) (h' : Expr.Consumes es' u') :
    Expr.Consumes (es ++ es') (u ++ u') :=
  ⟨List.forall_mem_append.mpr ⟨h.evaluated, h'.evaluated⟩,
    List.forall_mem_append.mpr ⟨h.used, h'.used⟩⟩

theorem Expr.Consumes.nil : Expr.Consumes [] [] :=
  ⟨List.forall_mem_nil _, List.forall_mem_nil _⟩

theorem Expr.Consumes.stack (h : Expr.Consumes es u) (hresolved : ∀ x ∈ es, x.Resolved) :
    Expr.Stack es u :=
  ⟨fun x hx => ⟨h.evaluated x hx, hresolved x hx⟩, h.used⟩

theorem Expr.Stack.mono (h : Expr.Stack es u) (hes : es' ⊆ es) (hu : u' ⊆ u) : Expr.Stack es' u' :=
  ⟨fun x hx => h.evaluated x (hes hx), fun x hx => h.used x (hu hx)⟩

theorem Expr.Stack.left (h : Expr.Stack (es ++ es') (u ++ u')) : Expr.Stack es u :=
  h.mono (List.subset_append_left _ _) (List.subset_append_left _ _)

theorem Expr.Stack.right (h : Expr.Stack (es ++ es') (u ++ u')) : Expr.Stack es' u' :=
  h.mono (List.subset_append_right _ _) (List.subset_append_right _ _)

/-- The code of an expression whose value is used. -/
theorem Expr.used_effect (pc : Nat) {e : Expr} (h : Expr.Stack e.evaluated [e]) :
    HasEffect callEffect? pc (e.code pc) 0 1 := by
  have hall : e.AllStack := h.evaluated
  exact e.value_effect pc ⟨hall, hall.self.leaves_eq_one (h.used e List.mem_cons_self)⟩

theorem Expr.discardedCode_effect (pc : Nat) {e : Expr} (h : e.AllStack) :
    HasEffect callEffect? pc (e.discardedCode pc) 0 0 := by
  have hleaves := h.self.leaves
  have hcode := e.code_effect pc h
  unfold Expr.discardedCode
  split
  · next hty =>
      rw [if_pos hty] at hleaves
      rwa [hleaves] at hcode
  · next hty =>
      rw [if_neg hty] at hleaves
      rw [hleaves] at hcode
      exact hcode.instr_behind rfl rfl (Nat.le_refl 1) rfl

theorem Expr.discardedCode?_effect (pc : Nat) {e : Option Expr} (h : ∀ x ∈ Expr.evaluated? e, x.Stacks) :
    HasEffect callEffect? pc (Expr.discardedCode? pc e) 0 0 := by
  cases e with
  | none => exact .nil
  | some e => exact Expr.discardedCode_effect pc h

theorem LocalVar.code_effect (pc : Nat) {d : LocalVar}
    (h : Expr.Stack (Expr.evaluated? d.init) (Expr.used? d.init)) :
    HasEffect callEffect? pc (d.code pc) 0 0 := by
  unfold LocalVar.code
  split
  · next e slot he _ =>
      rw [he] at h
      exact (Expr.used_effect pc h).instr_behind rfl rfl (Nat.le_refl 1) rfl
  · exact .nil

theorem ForInit.code_effect (init : ForInit) (pc : Nat) (h : Expr.Stack init.evaluated init.used) :
    HasEffect callEffect? pc (init.code pc) 0 0 := by
  cases init with
  | none => exact .nil
  | declare d => exact LocalVar.code_effect pc h
  | expr pos e => exact Expr.discardedCode_effect pc h.evaluated

end Statements

mutual

/-- The code of a statement leaves the stack as it is. -/
theorem Stmt.code_effect : ∀ (s : Stmt) (pc slot : Nat), Expr.Stack s.evaluated s.used →
    HasEffect callEffect? pc (s.code pc slot) 0 0
  | .block _ body, pc, slot, h => Stmt.codeAll_effect body pc slot h
  | .declare d, pc, slot, h => LocalVar.code_effect pc h
  | .ifThen _ cond s, pc, slot, h => by
      have hcond := Expr.used_effect pc (Expr.Stack.left (u := [cond]) h)
      have hs := s.code_effect (pc + size (cond.code pc) + jumpSize) slot
        (Expr.Stack.right (u := [cond]) h)
      exact hcond.jump_over rfl hs (Nat.le_refl 1) rfl rfl
  | .ifElse _ cond s t, pc, slot, h => by
      have h : Expr.Stack ((cond.evaluated ++ s.evaluated) ++ t.evaluated)
          (([cond] ++ s.used) ++ t.used) := by
        rw [List.append_assoc [cond]]
        exact h
      have hcond := Expr.used_effect pc h.left.left
      exact hcond.branches rfl (s.code_effect _ slot h.left.right) rfl
        (t.code_effect _ (slot + s.locks) h.right) rfl rfl (.inr rfl)
  | .whileLoop _ cond body, pc, slot, h => by
      have hcond := Expr.used_effect pc (Expr.Stack.left (u := [cond]) h)
      have hbody := body.code_effect (pc + size (cond.code pc) + jumpSize) slot
        (Expr.Stack.right (u := [cond]) h)
      exact hcond.branches rfl hbody rfl .nil rfl rfl (.inl rfl)
  | .forLoop _ init cond update body, pc, slot, h => by
      have hinit := init.code_effect pc
        (h.mono (fun x hx => by simp [Stmt.evaluated, hx]) fun x hx => by simp [Stmt.used, hx])
      have hbody (pc : Nat) := body.code_effect pc slot
        (h.mono (fun x hx => by simp [Stmt.evaluated, hx]) fun x hx => by simp [Stmt.used, hx])
      have hupdate (pc : Nat) := Expr.discardedCode?_effect pc (e := update)
        fun x hx => h.evaluated x (by simp [Stmt.evaluated, hx])
      have hrest (pc : Nat) := (hbody pc).append (hupdate _) (Nat.le_refl 0) (b := 0) rfl
      cases cond with
      | none =>
          have hloop := (hrest _).repeat (i := .jump (pc + size (init.code pc))) rfl rfl
          simp only [Stmt.code, List.append_assoc] at hloop ⊢
          exact hinit.append hloop (Nat.le_refl 0) rfl
      | some cond =>
          have hcond (pc : Nat) := Expr.used_effect pc (e := cond)
            (h.mono (fun x hx => by simp [Stmt.evaluated, Expr.evaluated?, hx])
              fun x hx => by simp_all [Stmt.used, Expr.used?])
          have hloop {start inner exit : Nat} (hinner : inner = start + size (cond.code start) + jumpSize)
              (hexit : exit = inner + size (body.code inner slot) +
                size (Expr.discardedCode? (inner + size (body.code inner slot)) update) + jumpSize) :
              HasEffect callEffect? start (cond.code start ++ .jumpIfFalse exit ::
                (body.code inner slot ++
                  Expr.discardedCode? (inner + size (body.code inner slot)) update) ++
                [.jump start]) 0 0 := by
            subst hinner hexit
            refine (hcond start).branches rfl (hrest _) rfl .nil ?_ rfl (.inl rfl)
            simp [Instr.target?, Instr.size, jumpSize, Nat.add_assoc]
          have hwhole := hinit.append (hloop rfl rfl) (Nat.le_refl 0) (b := 0) rfl
          simpa only [Stmt.code, List.append_assoc, List.cons_append] using hwhole
  | .ret _ none, pc, slot, _ => .instr rfl rfl
  | .ret _ (some e), pc, slot, h => (Expr.used_effect pc h).instr_behind rfl rfl (Nat.le_refl 1) rfl
  | .throw _ value, pc, slot, h =>
      (Expr.used_effect pc h).instr_behind rfl rfl (Nat.le_refl 1) rfl
  | .synchronized _ lock _ body, pc, slot, h => by
      have hlock := Expr.used_effect pc (Expr.Stack.left (u := [lock]) h)
      have hbody (pc : Nat) :=
        Stmt.codeAll_effect body pc (slot + 1) (Expr.Stack.right (u := [lock]) h)
      have hload := ((hlock.lock_behind slot).append (hbody _) (Nat.le_refl 0) (b := 0) rfl).instr_behind
        (i := .load (UInt16.ofNat slot)) rfl rfl (Nat.zero_le _) (b := 1) rfl
      have hexit := hload.instr_behind (i := .monitorExit) rfl rfl (Nat.le_refl 1) (b := 0) rfl
      rwa [List.append_assoc _ [_] [_]] at hexit
  | .expr _ e, pc, slot, h => Expr.discardedCode_effect pc h.evaluated
  | .empty _, pc, slot, _ => .nil

theorem Stmt.codeAll_effect : ∀ (ss : List Stmt) (pc slot : Nat),
    Expr.Stack (Stmt.evaluatedAll ss) (Stmt.usedAll ss) →
      HasEffect callEffect? pc (Stmt.codeAll pc slot ss) 0 0
  | [], _, _, _ => .nil
  | s :: rest, pc, slot, h =>
      (s.code_effect pc slot h.left).append (Stmt.codeAll_effect rest _ _ h.right) (Nat.le_refl 0) rfl

end

end ProbeLang
