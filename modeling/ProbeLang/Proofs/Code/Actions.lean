import ProbeLang.Proofs.Code.WellFormed
import ProbeLang.Proofs.Stack.Places
import ProbeLang.Proofs.Tree.Walk

/-!
# Actions

An action is an instruction that calls a method, creates an object or an array, or stores a value.
The actions in the code of an expression are those of the expressions that are evaluated with it,
operands before operators, each once (`Expr.code_actions`).

What stands before a static member is not evaluated, whether it names a class or has a value. So a
call there is not in the code. Where nothing that acts stands in such a place (`Expr.Acts`), the
actions are those of all expressions in the tree.
-/

namespace ProbeLang

open CodeM Code SymbolicCode

/-- Whether an instruction calls a method, creates an object or an array, or stores a value. -/
def Instr.isAction {κ : Type} : Instr κ → Bool
  | .invoke _ | .invokeStatic _ | .new _ | .newArray _ | .store _ | .putField _ | .putStatic _
  | .arrayStore => true
  | _ => false

theorem Instr.isAction_map {κ κ' : Type} (f : κ → κ') (i : Instr κ) :
    (i.map f).isAction = i.isAction := by
  cases i <;> rfl

/-! ## Expressions -/

/-- The instruction that stores a value into a field. -/
def putInstr (isStatic : Bool) (reference : String) : Instr String :=
  if isStatic then .putStatic reference else .putField reference

/-- The instruction that calls a method. -/
def callInstr (isStatic : Bool) (reference : String) : Instr String :=
  if isStatic then .invokeStatic reference else .invoke reference

/-- The instruction with which something is assigned to. -/
def Expr.put (target : Expr) : SymbolicCode :=
  match target.note.refers, target with
  | some (.localVar slot), _ => [.store (slotOperand slot)]
  | some (.field owner isStatic d), .name _ ident =>
      [putInstr isStatic (fieldReference owner ident d)]
  | some (.field owner isStatic d), .field _ _ member =>
      [putInstr isStatic (fieldReference owner member.name d)]
  | _, .index .. => [.arrayStore]
  | _, _ => []

/-- The actions of an expression apart from those of its operands: a call, the creation of an
object, with the call of its initialiser, or of an array, and an assignment. -/
def Expr.action : Expr → SymbolicCode
  | .call n callee _ | .invoke n _ callee _ =>
      match n.refers with
      | some (.method owner isStatic d) =>
          [callInstr isStatic (methodReference owner callee.name d)]
      | _ => []
  | .new n _ _ =>
      match n.refers with
      | some (.cls cls) => [.new cls, .invoke (initReference cls)]
      | _ => []
  | .newArray n _ _ => [.newArray (elementDescriptor n.ty)]
  | .assign _ target _ => target.put
  | _ => []

mutual

/-- The expressions that are evaluated with an expression in the order in which their evaluation
ends, itself last. -/
def Expr.inOrder : Expr → List Expr
  | e@(.literal ..) | e@(.name ..) | e@(.this _) | e@(.new ..) => [e]
  | e@(.field n target _) => (if n.isStaticField then [] else target.inOrder) ++ [e]
  | e@(.call _ _ args) => Expr.allInOrder args ++ [e]
  | e@(.invoke n target _ args) =>
      (if n.isStaticMethod then [] else target.inOrder) ++ Expr.allInOrder args ++ [e]
  | e@(.newArray _ _ length) => length.inOrder ++ [e]
  | e@(.index _ target i) => target.inOrder ++ i.inOrder ++ [e]
  | e@(.unary _ _ operand) => operand.inOrder ++ [e]
  | e@(.binary _ _ lhs rhs) => lhs.inOrder ++ rhs.inOrder ++ [e]
  | e@(.assign _ (.field n target _) value) =>
      (if n.isStaticField then [] else target.inOrder) ++ value.inOrder ++ [e]
  | e@(.assign _ (.index _ target i) value) =>
      target.inOrder ++ i.inOrder ++ value.inOrder ++ [e]
  | e@(.assign _ _ value) => value.inOrder ++ [e]

/-- The expressions that are evaluated with expressions, one after the other. -/
def Expr.allInOrder : List Expr → List Expr
  | [] => []
  | e :: rest => e.inOrder ++ Expr.allInOrder rest

end

namespace Expr

/-- The operands whose values an expression uses are evaluated before it. -/
theorem inOrder_eq (e : Expr) : e.inOrder = Expr.allInOrder e.used ++ [e] := by
  cases e with
  | field n target member =>
      by_cases hn : n.isStaticField = true <;> simp [inOrder, used, allInOrder, hn]
  | invoke n target callee args =>
      by_cases hn : n.isStaticMethod = true <;> simp [inOrder, used, allInOrder, hn]
  | assign n target value =>
      cases target with
      | field m of member =>
          by_cases hm : m.isStaticField = true <;> simp [inOrder, used, allInOrder, hm]
      | _ => simp [inOrder, used, allInOrder]
  | _ => simp [inOrder, used, allInOrder]

theorem allInOrder_append (es es' : List Expr) :
    allInOrder (es ++ es') = allInOrder es ++ allInOrder es' := by
  induction es with
  | nil => rfl
  | cons e es ih => simp [allInOrder, ih]

/-- What is evaluated is evaluated once. -/
theorem inOrder_perm : ∀ e : Expr, e.inOrder.Perm e.evaluated := by
  intro e
  have hall : ∀ es ⊆ e.used, (allInOrder es).Perm (evaluatedAll es) := by
    intro es hes
    induction es with
    | nil => exact .nil
    | cons x es ih =>
        obtain ⟨hx, hes⟩ := List.cons_subset.mp hes
        exact (inOrder_perm x).append (ih hes)
  rw [inOrder_eq, evaluated_eq]
  exact ((hall e.used (List.Subset.refl _)).append_right [e]).trans (List.perm_append_singleton e _)
termination_by e => sizeOf e
decreasing_by exact Expr.sizeOf_used hx

/-- The actions of all that is evaluated with an expression, in order. -/
def actions (e : Expr) : SymbolicCode :=
  e.inOrder.flatMap action

/-- The actions of all that is evaluated with expressions, in order. -/
def allActions (es : List Expr) : SymbolicCode :=
  (allInOrder es).flatMap action

theorem actions_eq (e : Expr) : e.actions = allActions e.used ++ e.action := by
  rw [actions, inOrder_eq, List.flatMap_append, List.flatMap_singleton]
  rfl

@[simp] theorem allActions_nil : allActions [] = [] := rfl

@[simp] theorem allActions_cons (e : Expr) (es : List Expr) :
    allActions (e :: es) = e.actions ++ allActions es := by
  simp [allActions, allInOrder, actions]

@[simp] theorem allActions_append (es es' : List Expr) :
    allActions (es ++ es') = allActions es ++ allActions es' := by
  simp [allActions, allInOrder_append]

/-- Whether all that is evaluated with an expression is resolved. -/
def AllResolved (e : Expr) : Prop :=
  ∀ x ∈ e.evaluated, x.Resolved

theorem AllResolved.self {e : Expr} (h : e.AllResolved) : e.Resolved :=
  h e e.mem_evaluated_self

theorem AllResolved.used {e x : Expr} (h : e.AllResolved) (hx : x ∈ e.used) : x.AllResolved :=
  fun y hy => h y (by
    rw [evaluated_eq]
    exact List.mem_cons_of_mem _ (mem_evaluatedAll.mpr ⟨x, hx, hy⟩))

end Expr

mutual

/-- The actions in the code of an expression are those of all that is evaluated with it. -/
theorem Expr.code_actions : ∀ (e : Expr) (pc : Nat), e.AllResolved →
    (e.code pc).filter Instr.isAction = e.actions
  | .literal _ v, pc, h => by cases v <;> rfl
  | .name n ident, pc, h => by
      rw [actions_eq]
      rcases h.self with ⟨slot, hr⟩ | ⟨owner, _ | _, d, hr⟩ <;> simp only [Expr.code, hr] <;> rfl
  | .this _, pc, h => rfl
  | .field n target member, pc, h => by
      rw [actions_eq]
      rcases h.self with ⟨owner, _ | _, d, hr⟩ | ⟨hr, -, elem, hty⟩
      · have htarget := target.code_actions pc (h.used (by simp [used, Note.isStaticField, hr]))
        simp [Expr.code, hr, used, action, Note.isStaticField, htarget, Instr.isAction]
      · simp [Expr.code, hr, used, action, Note.isStaticField, Instr.isAction]
      · have htarget := target.code_actions pc (h.used (by simp [used, Note.isStaticField, hr]))
        simp [Expr.code, hr, hty, used, action, Note.isStaticField, htarget, Instr.isAction]
  | .call n callee args, pc, h => by
      rw [actions_eq]
      have hargs (pc : Nat) := Expr.codeAll_actions args pc fun e he => h.used he
      obtain ⟨owner, _ | _, d, hr⟩ := h.self <;>
        simp [Expr.code, hr, used, action, callInstr, self, hargs, Instr.isAction]
  | .invoke n target callee args, pc, h => by
      rw [actions_eq]
      have hargs (pc : Nat) := Expr.codeAll_actions args pc fun e he =>
        h.used (List.mem_append_right _ he)
      obtain ⟨owner, _ | _, d, hr⟩ := h.self
      · have htarget := target.code_actions pc (h.used (by simp [used, Note.isStaticMethod, hr]))
        simp [Expr.code, hr, used, action, callInstr, Note.isStaticMethod, htarget, hargs,
          Instr.isAction]
      · simp [Expr.code, hr, used, action, callInstr, Note.isStaticMethod, hargs, Instr.isAction]
  | .new n type args, pc, h => by
      obtain ⟨cls, hr⟩ := h.self
      simp only [actions_eq, Expr.code, hr, used, action]
      rfl
  | .newArray n elem length, pc, h => by
      rw [actions_eq]
      have hlength := length.code_actions pc (h.used List.mem_cons_self)
      simp [Expr.code, used, action, hlength, Instr.isAction]
  | .index n target i, pc, h => by
      rw [actions_eq]
      have htarget := target.code_actions pc (h.used (by simp [used]))
      have hi (pc : Nat) := i.code_actions pc (h.used (by simp [used]))
      simp [Expr.code, used, action, htarget, hi, Instr.isAction]
  | .unary n op operand, pc, h => by
      rw [actions_eq]
      have hoperand := operand.code_actions pc (h.used List.mem_cons_self)
      cases op <;> simp [Expr.code, used, action, hoperand, unaryInstr, Instr.isAction]
  | .binary n op lhs rhs, pc, h => by
      rw [actions_eq]
      have hlhs := lhs.code_actions pc (h.used (by simp [used]))
      have hrhs (pc : Nat) := rhs.code_actions pc (h.used (by simp [used]))
      cases op <;> cases hs : n.ty.any Ty.isString <;>
        simp [Expr.code, used, action, skipInstr, binaryInstr, hs, hlhs, hrhs, Instr.isAction]
  | .assign n target value, pc, h => by
      rw [actions_eq]
      have hplace := h.self.2
      cases target with
      | name m ident =>
          have hvalue (pc : Nat) := value.code_actions pc (h.used (by simp [used]))
          rcases hplace with ⟨slot, hr⟩ | ⟨owner, _ | _, d, hr⟩ <;>
            simp [Expr.code, SymbolicCode.keepLocal, SymbolicCode.keepField, hr, used, action, put,
              note, putInstr, self, hvalue, Instr.isAction]
      | field m of member =>
          have hvalue (pc : Nat) := value.code_actions pc (h.used (by simp [used]))
          obtain ⟨owner, _ | _, d, hr⟩ := hplace
          · have hof := of.code_actions pc (h.used (by simp [used, Note.isStaticField, hr]))
            simp [Expr.code, SymbolicCode.keepField, hr, used, action, put, note, putInstr,
              Note.isStaticField, hof, hvalue, Instr.isAction]
          · simp [Expr.code, SymbolicCode.keepField, hr, used, action, put, note, putInstr,
              Note.isStaticField, hvalue, Instr.isAction]
      | index m of at_ =>
          have hr : m.refers = none := hplace
          have hof := of.code_actions pc (h.used (by simp [used]))
          have hat (pc : Nat) := at_.code_actions pc (h.used (by simp [used]))
          have hvalue (pc : Nat) := value.code_actions pc (h.used (by simp [used]))
          simp [Expr.code, hr, used, action, put, note, hof, hat, hvalue, Instr.isAction]
      | _ => exact hplace.elim

theorem Expr.codeAll_actions : ∀ (es : List Expr) (pc : Nat), (∀ e ∈ es, e.AllResolved) →
    (Expr.codeAll pc es).filter Instr.isAction = Expr.allActions es
  | [], pc, h => rfl
  | e :: rest, pc, h => by
      obtain ⟨he, hrest⟩ := List.forall_mem_cons.mp h
      simp [Expr.codeAll, e.code_actions pc he, Expr.codeAll_actions rest _ hrest]

end

/-! ## What is not evaluated -/

mutual

/-- The expressions in an expression, operands before operators, itself last. -/
def Expr.postorder : Expr → List Expr
  | e@(.literal ..) | e@(.name ..) | e@(.this _) => [e]
  | e@(.field _ target _) => target.postorder ++ [e]
  | e@(.call _ _ args) => Expr.allPostorder args ++ [e]
  | e@(.invoke _ target _ args) => target.postorder ++ Expr.allPostorder args ++ [e]
  | e@(.new _ _ args) => Expr.allPostorder args ++ [e]
  | e@(.newArray _ _ length) => length.postorder ++ [e]
  | e@(.index _ target i) => target.postorder ++ i.postorder ++ [e]
  | e@(.unary _ _ operand) => operand.postorder ++ [e]
  | e@(.binary _ _ lhs rhs) => lhs.postorder ++ rhs.postorder ++ [e]
  | e@(.assign _ target value) => target.postorder ++ value.postorder ++ [e]

/-- The expressions in expressions. -/
def Expr.allPostorder : List Expr → List Expr
  | [] => []
  | e :: rest => e.postorder ++ Expr.allPostorder rest

end

namespace Expr

/-- The actions of all expressions in an expression, whether or not they are evaluated. -/
def written (e : Expr) : SymbolicCode :=
  e.postorder.flatMap action

/-- The operands of an expression that are not evaluated: what stands before a static member, and
the arguments of an initialiser. -/
def skipped : Expr → List Expr
  | .field n target _ | .assign _ (.field n target _) _ => if n.isStaticField then [target] else []
  | .invoke n target _ _ => if n.isStaticMethod then [target] else []
  | .new _ _ args => args
  | _ => []

/-- Whether nothing acts in what expressions do not evaluate. -/
def SkipNothing (es : List Expr) : Prop :=
  ∀ x ∈ es, ∀ y ∈ x.skipped, y.written = []

theorem SkipNothing.mono {es es' : List Expr} (h : SkipNothing es) (hes : es' ⊆ es) :
    SkipNothing es' :=
  fun x hx => h x (hes hx)

theorem written_eq (e : Expr) : e.written = e.operands.flatMap written ++ e.action := by
  have hall (es : List Expr) : (allPostorder es).flatMap action = es.flatMap written := by
    induction es with
    | nil => rfl
    | cons x es ih => simp [allPostorder, ih, written]
  have hpost : e.postorder = allPostorder e.operands ++ [e] := by
    cases e <;> simp [postorder, operands, allPostorder]
  rw [written, hpost, List.flatMap_append, hall, List.flatMap_singleton]

theorem allActions_eq (es : List Expr) : allActions es = es.flatMap actions := by
  induction es with
  | nil => rfl
  | cons e es ih => rw [allActions_cons, ih, List.flatMap_cons]

/-- If nothing acts in what is not evaluated, the actions of an expression are those of all
expressions in it. -/
theorem actions_eq_written : ∀ (e : Expr), e.AllResolved → SkipNothing e.evaluated →
    e.actions = e.written := by
  intro e h hskip
  have hused (x : Expr) (hx : x ∈ e.used) : x.actions = x.written :=
    actions_eq_written x (h.used hx) (hskip.mono fun y hy => by
      rw [evaluated_eq]
      exact List.mem_cons_of_mem _ (mem_evaluatedAll.mpr ⟨x, hx, hy⟩))
  have hself := hskip e e.mem_evaluated_self
  rw [actions_eq, written_eq, allActions_eq, List.flatMap_congr hused]
  refine congrArg (· ++ e.action) ?_
  cases e with
  | field n target member =>
      by_cases hn : n.isStaticField = true
      · simp_all [used, operands, skipped]
      · simp [used, operands, hn]
  | invoke n target callee args =>
      by_cases hn : n.isStaticMethod = true
      · simp_all [used, operands, skipped]
      · simp [used, operands, hn]
  | new n type args => exact (List.flatMap_eq_nil_iff.mpr hself).symm
  | assign n target value =>
      cases target with
      | name m ident => simp [used, operands, written_eq (.name m ident), action]
      | field m of member =>
          by_cases hm : m.isStaticField = true
          · simp_all [used, operands, skipped, written_eq (.field m of member), action]
          · simp [used, operands, hm, written_eq (.field m of member), action]
      | index m of at_ => simp [used, operands, written_eq (.index m of at_), action]
      | _ => exact h.self.2.elim
  | _ => rfl
termination_by e => sizeOf e
decreasing_by exact Expr.sizeOf_used hx

end Expr

/-! ## Statements -/

section Sequence

variable (f : Expr → SymbolicCode)

/-- The actions of an optional expression, given those of an expression. -/
def Expr.sequence? : Option Expr → SymbolicCode
  | none => []
  | some e => f e

/-- The actions of the declaration of a local variable. -/
def LocalVar.sequence (d : LocalVar) : SymbolicCode :=
  match d.init with
  | none => []
  | some e => f e ++ [.store (slotOperand (d.slot.getD 0))]

/-- The actions of the first part of a `for` header. -/
def ForInit.sequence : ForInit → SymbolicCode
  | .none => []
  | .declare d => d.sequence f
  | .expr _ e => f e

mutual

/-- The actions of a statement in the order in which its parts are written, but for the last part of
a `for` header, which comes behind the body. A synchronized statement stores what it locks. -/
def Stmt.sequence (slot : Nat) : Stmt → SymbolicCode
  | .block _ body => Stmt.allSequence slot body
  | .declare d => d.sequence f
  | .ifThen _ cond s | .whileLoop _ cond s => f cond ++ s.sequence slot
  | .ifElse _ cond s t => f cond ++ s.sequence slot ++ t.sequence (slot + s.locks)
  | .forLoop _ init cond update body =>
      init.sequence f ++ Expr.sequence? f cond ++ body.sequence slot ++ Expr.sequence? f update
  | .ret _ value => Expr.sequence? f value
  | .throw _ value => f value
  | .synchronized _ lock _ body =>
      f lock ++ [.store (UInt16.ofNat slot)] ++ Stmt.allSequence (slot + 1) body
  | .expr _ e => f e
  | .empty _ => []

/-- The actions of statements one after the other. -/
def Stmt.allSequence (slot : Nat) : List Stmt → SymbolicCode
  | [] => []
  | s :: rest => s.sequence slot ++ Stmt.allSequence (slot + s.locks) rest

end

end Sequence

/-- Whether the actions in the code of every expression whose evaluation is a part of what is
evaluated are those that a function gives, and everything that is declared has a slot. -/
structure Stmt.Acts (f : Expr → SymbolicCode) (evaluated : List Expr) (declared : List LocalVar) :
    Prop where
  code : ∀ e, e.evaluated ⊆ evaluated → ∀ pc, (e.code pc).filter Instr.isAction = f e
  slots : ∀ d ∈ declared, d.slot.isSome = true

namespace Stmt.Acts

variable {f : Expr → SymbolicCode} {es es' : List Expr} {ds ds' : List LocalVar}

theorem mono (h : Stmt.Acts f es ds) (hes : es' ⊆ es) (hds : ds' ⊆ ds) : Stmt.Acts f es' ds' :=
  ⟨fun e he => h.code e (List.Subset.trans he hes), fun d hd => h.slots d (hds hd)⟩

/-- What is evaluated acts. -/
theorem actions (h : Stmt.Placed es ds) : Stmt.Acts Expr.actions es ds :=
  ⟨fun e he pc => e.code_actions pc fun x hx => h.resolved x (he hx), h.slots⟩

/-- If nothing acts in what is not evaluated, all that is written does. -/
theorem written (h : Stmt.Placed es ds) (hskip : Expr.SkipNothing es) :
    Stmt.Acts Expr.written es ds := by
  refine ⟨fun e he pc => ?_, h.slots⟩
  have hresolved : e.AllResolved := fun x hx => h.resolved x (he hx)
  rw [e.code_actions pc hresolved, e.actions_eq_written hresolved (hskip.mono he)]

end Stmt.Acts

section Statements

variable {f : Expr → SymbolicCode}

theorem Expr.discardedCode_sequence {e : Expr} (pc : Nat)
    (h : ∀ pc, (e.code pc).filter Instr.isAction = f e) :
    (e.discardedCode pc).filter Instr.isAction = f e := by
  unfold Expr.discardedCode
  split
  · exact h pc
  · rw [List.filter_append, h pc]
    exact List.append_nil _

theorem Expr.discardedCode?_sequence {e : Option Expr} (pc : Nat) {ds : List LocalVar}
    (h : Stmt.Acts f (Expr.evaluated? e) ds) :
    (Expr.discardedCode? pc e).filter Instr.isAction = Expr.sequence? f e := by
  cases e with
  | none => rfl
  | some e => exact Expr.discardedCode_sequence pc (h.code e (List.Subset.refl _))

theorem LocalVar.code_sequence {d : LocalVar} (pc : Nat)
    (h : Stmt.Acts f (Expr.evaluated? d.init) [d]) :
    (d.code pc).filter Instr.isAction = d.sequence f := by
  obtain ⟨slot, hslot⟩ := Option.isSome_iff_exists.mp (h.slots d List.mem_cons_self)
  unfold LocalVar.code LocalVar.sequence
  cases hinit : d.init with
  | none => rfl
  | some e =>
      have hcode := h.code e (by rw [hinit]; exact List.Subset.refl _)
      rw [hslot]
      dsimp only
      rw [List.filter_append, hcode]
      rfl

theorem ForInit.code_sequence {init : ForInit} (pc : Nat)
    (h : Stmt.Acts f init.evaluated init.localVars) :
    (init.code pc).filter Instr.isAction = init.sequence f := by
  cases init with
  | none => rfl
  | declare d => exact LocalVar.code_sequence pc h
  | expr pos e => exact Expr.discardedCode_sequence pc (h.code e (List.Subset.refl _))

mutual

/-- The actions in the code of a statement are those of the expressions in it, in order. -/
theorem Stmt.code_sequence : ∀ (s : Stmt) (pc slot : Nat), Stmt.Acts f s.evaluated s.localVars →
    (s.code pc slot).filter Instr.isAction = s.sequence f slot
  | .block _ body, pc, slot, h => Stmt.codeAll_sequence body pc slot h
  | .declare d, pc, slot, h => LocalVar.code_sequence pc h
  | .ifThen _ cond s, pc, slot, h => by
      have hcond := h.code cond (List.subset_append_left _ _)
      have hs (pc : Nat) := s.code_sequence pc slot
        (h.mono (List.subset_append_right _ _) (List.Subset.refl _))
      simp [Stmt.code, Stmt.sequence, hcond, hs, Instr.isAction]
  | .ifElse _ cond s t, pc, slot, h => by
      have hcond := h.code cond fun y hy => by simp [Stmt.evaluated, hy]
      have hs (pc : Nat) := s.code_sequence pc slot
        (h.mono (fun y hy => by simp [Stmt.evaluated, hy]) (List.subset_append_left _ _))
      have ht (pc : Nat) := t.code_sequence pc (slot + s.locks)
        (h.mono (List.subset_append_right _ _) (List.subset_append_right _ _))
      simp [Stmt.code, Stmt.sequence, hcond, hs, ht, Instr.isAction]
  | .whileLoop _ cond body, pc, slot, h => by
      have hcond := h.code cond (List.subset_append_left _ _)
      have hbody (pc : Nat) := body.code_sequence pc slot
        (h.mono (List.subset_append_right _ _) (List.Subset.refl _))
      simp [Stmt.code, Stmt.sequence, hcond, hbody, Instr.isAction]
  | .forLoop _ init cond update body, pc, slot, h => by
      have hinit := init.code_sequence pc
        (h.mono (fun y hy => by simp [Stmt.evaluated, hy]) (List.subset_append_left _ _))
      have hbody (pc : Nat) := body.code_sequence pc slot
        (h.mono (List.subset_append_right _ _) (List.subset_append_right _ _))
      have hupdate (pc : Nat) := Expr.discardedCode?_sequence pc (e := update)
        (h.mono (fun y hy => by simp [Stmt.evaluated, hy]) (List.nil_subset _))
      cases cond with
      | none =>
          simp [Stmt.code, Stmt.sequence, Expr.sequence?, hinit, hbody, hupdate, Instr.isAction]
      | some cond =>
          have hcond := h.code cond fun y hy => by
            simp [Stmt.evaluated, Expr.evaluated?, hy]
          simp [Stmt.code, Stmt.sequence, Expr.sequence?, hinit, hcond, hbody, hupdate,
            Instr.isAction]
  | .ret _ none, pc, slot, h => rfl
  | .ret _ (some e), pc, slot, h => by
      have he := h.code e (List.Subset.refl _)
      simp [Stmt.code, Stmt.sequence, Expr.sequence?, he, Instr.isAction]
  | .throw _ value, pc, slot, h => by
      have hvalue := h.code value (List.Subset.refl _)
      simp [Stmt.code, Stmt.sequence, hvalue, Instr.isAction]
  | .synchronized _ lock _ body, pc, slot, h => by
      have hlock := h.code lock (List.subset_append_left _ _)
      have hbody (pc : Nat) := Stmt.codeAll_sequence body pc (slot + 1)
        (h.mono (List.subset_append_right _ _) (List.Subset.refl _))
      simp [Stmt.code, Stmt.sequence, hlock, hbody, Instr.isAction, List.filter_cons]
  | .expr _ e, pc, slot, h => Expr.discardedCode_sequence pc (h.code e (List.Subset.refl _))
  | .empty _, pc, slot, h => rfl

theorem Stmt.codeAll_sequence : ∀ (ss : List Stmt) (pc slot : Nat),
    Stmt.Acts f (Stmt.evaluatedAll ss) (Stmt.allLocalVars ss) →
      (Stmt.codeAll pc slot ss).filter Instr.isAction = Stmt.allSequence f slot ss
  | [], pc, slot, h => rfl
  | s :: rest, pc, slot, h => by
      have hs := s.code_sequence pc slot
        (h.mono (List.subset_append_left _ _) (List.subset_append_left _ _))
      have hrest (pc : Nat) := Stmt.codeAll_sequence rest pc (slot + s.locks)
        (h.mono (List.subset_append_right _ _) (List.subset_append_right _ _))
      simp [Stmt.codeAll, Stmt.allSequence, hs, hrest]

end

end Statements

/-! ## Methods -/

/-- The actions of a declared method. -/
def MethodDecl.actions (f : Expr → SymbolicCode) (m : MethodDecl) (sig : MethodSig) :
    SymbolicCode :=
  Stmt.allSequence f (m.firstLock sig) m.body.body

/-- The actions that give fields their values. -/
def SymbolicCode.fieldActions (f : Expr → SymbolicCode) (cls : String) (isStatic : Bool) :
    List (FieldDecl × FieldSig) → SymbolicCode
  | [] => []
  | (d, sig) :: rest =>
      match d.init with
      | none => fieldActions f cls isStatic rest
      | some e =>
          if sig.isStatic = isStatic then
            f e ++ putInstr isStatic (fieldReference cls sig.name sig.ty.descriptor) ::
              fieldActions f cls isStatic rest
          else fieldActions f cls isStatic rest

/-- The actions of the methods of a class, in the order of `symbolicMethods`. The initialiser of
instances calls that of the superclass first. -/
def ClassDecl.actions (f : Expr → SymbolicCode) (c : ClassDecl) (symbol : ClassSymbol)
    (superclass : String) : List SymbolicCode :=
  (.invoke (initReference superclass) ::
      fieldActions f symbol.binary false (c.fields.zip symbol.fields)) ::
    (c.methods.zip symbol.methods).map (fun (m, sig) => m.actions f sig) ++
    if c.fields.any fun f => f.modifiers.has .isStatic && f.init.isSome then
      [fieldActions f symbol.binary true (c.fields.zip symbol.fields)]
    else []

/-- Whether the actions in the code of all expressions in a class are what a function gives. -/
structure ClassDecl.Acts (f : Expr → SymbolicCode) (c : ClassDecl) : Prop where
  fields : ∀ d ∈ c.fields, ∀ e, d.init = some e →
    ∀ pc, (e.code pc).filter Instr.isAction = f e
  methods : ∀ m ∈ c.methods,
    Stmt.Acts f (Stmt.evaluatedAll m.body.body) (Stmt.allLocalVars m.body.body)

/-- Whether nothing acts in what a class does not evaluate. -/
structure ClassDecl.SkipsNothing (c : ClassDecl) : Prop where
  fields : ∀ d ∈ c.fields, ∀ e, d.init = some e → Expr.SkipNothing e.evaluated
  methods : ∀ m ∈ c.methods, Expr.SkipNothing (Stmt.evaluatedAll m.body.body)

namespace ClassDecl.Fit

variable {c : ClassDecl}

theorem resolved (h : c.Fit) {d : FieldDecl} {e : Expr} (hd : d ∈ c.fields)
    (he : d.init = some e) : e.AllResolved :=
  fun x hx => (h.fields hd e he x hx).1.attributed.resolved

theorem placed (h : c.Fit) {m : MethodDecl} (hm : m ∈ c.methods) :
    Stmt.Placed (Stmt.evaluatedAll m.body.body) (Stmt.allLocalVars m.body.body) :=
  ⟨fun x hx => ((h.methods hm).evaluated x hx).attributed.resolved, (h.methods hm).declared⟩

theorem actions (h : c.Fit) : c.Acts Expr.actions :=
  ⟨fun _ hd e he pc => e.code_actions pc (h.resolved hd he), fun _ hm => .actions (h.placed hm)⟩

theorem written (h : c.Fit) (hskip : c.SkipsNothing) : c.Acts Expr.written := by
  refine ⟨fun d hd e he pc => ?_, fun m hm => .written (h.placed hm) (hskip.methods m hm)⟩
  rw [e.code_actions pc (h.resolved hd he),
    e.actions_eq_written (h.resolved hd he) (hskip.fields d hd e he)]

end ClassDecl.Fit

section Methods

variable {f : Expr → SymbolicCode}

theorem SymbolicCode.fieldValues_actions (cls : String) (isStatic : Bool) :
    ∀ (fields : List (FieldDecl × FieldSig)) (pc : Nat),
      (∀ d ∈ fields, ∀ e, d.1.init = some e → ∀ pc, (e.code pc).filter Instr.isAction = f e) →
        (fieldValues cls isStatic pc fields).filter Instr.isAction =
          fieldActions f cls isStatic fields
  | [], _, _ => rfl
  | (d, sig) :: rest, pc, h => by
      obtain ⟨hd, hrest⟩ := List.forall_mem_cons.mp h
      unfold fieldValues fieldActions
      cases hinit : d.init with
      | none => exact fieldValues_actions cls isStatic rest pc hrest
      | some e =>
          dsimp only
          split
          · have hvalue := hd e hinit
            have hlater (pc : Nat) := fieldValues_actions cls isStatic rest pc hrest
            cases isStatic <;>
              simp [hvalue, hlater, self, putInstr, Instr.isAction, List.filter_cons]
          · exact fieldValues_actions cls isStatic rest pc hrest

/-- The actions in the code of the methods of a class are those of the expressions in it. -/
theorem ClassDecl.symbolicMethods_actions {c : ClassDecl} (symbol : ClassSymbol)
    (superclass : String) (h : c.Acts f) :
    List.Forall₂ (fun (sym : SymbolicMethod) actions => sym.code.filter Instr.isAction = actions)
      (c.symbolicMethods symbol superclass) (c.actions f symbol superclass) := by
  have hfields (isStatic : Bool) (pc : Nat) := SymbolicCode.fieldValues_actions symbol.binary
    isStatic (c.fields.zip symbol.fields) pc fun d hd => h.fields d.1 (List.of_mem_zip hd).1
  refine .cons ?_ (List.rel_append ?_ ?_)
  · simp [ClassDecl.symbolicInit, SymbolicCode.instanceInit, hfields, self, Instr.isAction,
      List.filter_cons]
  · rw [List.forall₂_map_left_iff, List.forall₂_map_right_iff, List.forall₂_same]
    intro p hp
    have hbody := Stmt.codeAll_sequence p.1.body.body 0 (p.1.firstLock p.2)
      (h.methods p.1 (List.of_mem_zip hp).1)
    simp only [MethodDecl.symbolic, MethodDecl.code, MethodDecl.actions, List.filter_append, hbody]
    split <;> exact List.append_nil _
  · split
    · refine .cons ?_ .nil
      simp [ClassDecl.symbolicClassInit, SymbolicCode.classInit, hfields, Instr.isAction]
    · exact .nil

end Methods

/-! ## Artifacts -/

/-- The actions in the code of a method of an artifact, with the constants that they name. -/
theorem MethodInfo.WellFormed.actions {pool : ConstantPool} {m : MethodInfo} {code : Code}
    {sym : SymbolicMethod} {actions : SymbolicCode} (h : m.WellFormed pool code sym)
    (hsym : sym.code.filter Instr.isAction = actions) :
    (resolve pool code).filter Instr.isAction = actions.resolved := by
  rw [h.constants, ← hsym]
  simp only [SymbolicCode.resolved, List.filter_map, Function.comp_def, Instr.isAction_map]

end ProbeLang
