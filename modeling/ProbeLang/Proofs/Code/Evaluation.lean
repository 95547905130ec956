import ProbeLang.Proofs.Code.Symbolic

/-!
# Which expressions are evaluated

Not every expression in a tree is evaluated: the receiver of a static member is not, and what is
assigned to is stored into instead. Every instruction in the code of an expression is one that some
evaluated expression contributes itself (`Expr.own`), so what holds of the instructions of single
expressions holds of all code.
-/

namespace ProbeLang

open CodeM Code SymbolicCode

/-- The instruction without the place that a jump leads to. -/
def Instr.untargeted {κ : Type} : Instr κ → Instr κ
  | .jump _ => .jump 0
  | .jumpIfFalse _ => .jumpIfFalse 0
  | .jumpIfTrue _ => .jumpIfTrue 0
  | i => i

/-! ## Evaluated expressions -/

/-- Whether the name in a note refers to a static field. -/
def Note.isStaticField (n : Note) : Bool :=
  match n.refers with
  | some (.field _ isStatic _) => isStatic
  | _ => false

/-- Whether the name in a note refers to a static method. -/
def Note.isStaticMethod (n : Note) : Bool :=
  match n.refers with
  | some (.method _ isStatic _) => isStatic
  | _ => false

mutual

/-- The expressions that are evaluated with an expression, itself first. -/
def Expr.evaluated : Expr → List Expr
  | e@(.literal ..) | e@(.name ..) | e@(.this _) | e@(.new ..) => [e]
  | e@(.field n target _) => e :: if n.isStaticField then [] else target.evaluated
  | e@(.call _ _ args) => e :: Expr.evaluatedAll args
  | e@(.invoke n target _ args) =>
      e :: ((if n.isStaticMethod then [] else target.evaluated) ++ Expr.evaluatedAll args)
  | e@(.newArray _ _ length) => e :: length.evaluated
  | e@(.index _ target i) => e :: (target.evaluated ++ i.evaluated)
  | e@(.unary _ _ operand) => e :: operand.evaluated
  | e@(.binary _ _ lhs rhs) => e :: (lhs.evaluated ++ rhs.evaluated)
  | e@(.assign _ (.field n target _) value) =>
      e :: ((if n.isStaticField then [] else target.evaluated) ++ value.evaluated)
  | e@(.assign _ (.index _ target i) value) =>
      e :: (target.evaluated ++ i.evaluated ++ value.evaluated)
  | e@(.assign _ _ value) => e :: value.evaluated

/-- The expressions that are evaluated with expressions. -/
def Expr.evaluatedAll : List Expr → List Expr
  | [] => []
  | e :: rest => e.evaluated ++ Expr.evaluatedAll rest

end

/-! ## Their own instructions -/

/-- The instructions of an assignment apart from its operands, given what is assigned to. -/
def Expr.stores (target : Expr) : SymbolicCode :=
  match target.note.refers, target with
  | some (.localVar slot), _ => [.dup, .store (slotOperand slot)]
  | some (.field owner true d), .name _ ident => [.dup, .putStatic (fieldReference owner ident d)]
  | some (.field owner false d), .name _ ident =>
      self ++ [.dupX1, .putField (fieldReference owner ident d)]
  | some (.field owner true d), .field _ _ member =>
      [.dup, .putStatic (fieldReference owner member.name d)]
  | some (.field owner false d), .field _ _ member =>
      [.dupX1, .putField (fieldReference owner member.name d)]
  | _, .index .. => [.dupX2, .arrayStore]
  | _, _ => []

/-- The instructions of an expression apart from those of its operands. -/
def Expr.own : Expr → SymbolicCode
  | .literal _ v => constant v
  | .name n ident =>
      match n.refers with
      | some (.localVar slot) => [.load (slotOperand slot)]
      | some (.field owner true d) => [.getStatic (fieldReference owner ident d)]
      | some (.field owner false d) => self ++ [.getField (fieldReference owner ident d)]
      | _ => []
  | .this _ => self
  | .field n target member =>
      match n.refers with
      | some (.field owner true d) => [.getStatic (fieldReference owner member.name d)]
      | some (.field owner false d) => [.getField (fieldReference owner member.name d)]
      | _ =>
          match target.ty? with
          | some (.array _) => [.arrayLength]
          | _ => []
  | .call n callee _ =>
      match n.refers with
      | some (.method owner true d) => [.invokeStatic (methodReference owner callee.name d)]
      | some (.method owner false d) => self ++ [.invoke (methodReference owner callee.name d)]
      | _ => []
  | .invoke n _ callee _ =>
      match n.refers with
      | some (.method owner true d) => [.invokeStatic (methodReference owner callee.name d)]
      | some (.method owner false d) => [.invoke (methodReference owner callee.name d)]
      | _ => []
  | .new n _ _ =>
      match n.refers with
      | some (.cls cls) => SymbolicCode.create cls
      | _ => []
  | .newArray n _ _ => [.newArray (elementDescriptor n.ty)]
  | .index .. => [.arrayLoad]
  | .unary _ op _ => [unaryInstr op]
  | .binary n op _ _ =>
      match (skipInstr op : Option (Nat → Instr String)) with
      | some skip => [.dup, skip 0, .pop]
      | none => [binaryInstr (n.ty.any Ty.isString) op]
  | .assign _ target _ => target.stores

/-- Whether an instruction is one that some evaluated expression contributes itself. -/
def Expr.Contributes (es : List Expr) (i : Instr String) : Prop :=
  ∃ e ∈ es, i.untargeted ∈ e.own

theorem Expr.Contributes.mono {es es' : List Expr} {i : Instr String} (h : Contributes es i)
    (hes : es ⊆ es') : Contributes es' i := by
  obtain ⟨e, he, hi⟩ := h
  exact ⟨e, hes he, hi⟩

/-! ## Code comes from evaluated expressions -/

theorem constant_untargeted (v : Literal) :
    ∀ i ∈ SymbolicCode.constant v, i.untargeted = i := by
  cases v <;> simp [SymbolicCode.constant, Instr.untargeted]

theorem Expr.mem_evaluated_self (e : Expr) : e ∈ e.evaluated := by
  cases e with
  | assign n target value => cases target <;> simp [evaluated]
  | _ => simp [evaluated]

theorem Expr.evaluated_value_subset (n : Note) (target value : Expr) :
    value.evaluated ⊆ Expr.evaluated (.assign n target value) := by
  intro e he
  cases target <;> simp [evaluated, he]

mutual

theorem Expr.contributes_of_mem_code : ∀ (e : Expr) {pc : Nat} {i : Instr String},
    i ∈ e.code pc → Contributes e.evaluated i
  | .literal n v, pc, i, h => ⟨_, List.mem_cons_self, by rwa [constant_untargeted v i h]⟩
  | .name n ident, pc, i, h => by
      refine ⟨_, List.mem_cons_self, ?_⟩
      rcases hr : n.refers with _ | (slot | ⟨owner, _ | _, d⟩ | ⟨owner, st, d⟩ | cls | cls)
      all_goals simp only [Expr.code, Expr.own, hr] at h ⊢
      all_goals simp [self] at h
      case some.field.false => rcases h with rfl | rfl <;> simp [self, Instr.untargeted]
      all_goals simp [h, Instr.untargeted]
  | .this n, pc, i, h => by
      obtain rfl := List.mem_singleton.mp h
      exact ⟨_, List.mem_cons_self, h⟩
  | .field n target member, pc, i, h => by
      have operand : n.isStaticField = false → i ∈ target.code pc →
          Contributes (Expr.evaluated (.field n target member)) i := by
        intro hn hi
        simp only [Expr.evaluated, hn]
        exact (target.contributes_of_mem_code hi).mono (List.subset_cons_self _ _)
      rcases hr : n.refers with _ | (slot | ⟨owner, _ | _, d⟩ | ⟨owner, st, d⟩ | cls | cls)
      all_goals simp only [Expr.code, hr] at h
      case some.field.true =>
        obtain rfl := List.mem_singleton.mp h
        exact ⟨_, List.mem_cons_self, by simp [Expr.own, hr, Instr.untargeted]⟩
      case some.field.false =>
        rcases List.mem_append.mp h with h | h
        · exact operand (by simp [Note.isStaticField, hr]) h
        · obtain rfl := List.mem_singleton.mp h
          exact ⟨_, List.mem_cons_self, by simp [Expr.own, hr, Instr.untargeted]⟩
      all_goals
        split at h
        · next elem hty =>
            rcases List.mem_append.mp h with h | h
            · exact operand (by simp [Note.isStaticField, hr]) h
            · obtain rfl := List.mem_singleton.mp h
              exact ⟨_, List.mem_cons_self, by simp [Expr.own, hr, hty, Instr.untargeted]⟩
        · cases h
  | .call n callee args, pc, i, h => by
      have operands : ∀ {pc}, i ∈ Expr.codeAll pc args →
          Contributes (Expr.evaluated (.call n callee args)) i := fun hi =>
        (Expr.contributes_of_mem_codeAll args hi).mono (List.subset_cons_self _ _)
      rcases hr : n.refers with _ | (slot | ⟨owner, st, d⟩ | ⟨owner, _ | _, d⟩ | cls | cls)
      all_goals simp only [Expr.code, hr] at h
      case some.method.true =>
        rcases List.mem_append.mp h with h | h
        · exact operands h
        · obtain rfl := List.mem_singleton.mp h
          exact ⟨_, List.mem_cons_self, by simp [Expr.own, hr, Instr.untargeted]⟩
      case some.method.false =>
        rcases List.mem_append.mp h with h | h
        · rcases List.mem_append.mp h with h | h
          · obtain rfl := List.mem_singleton.mp h
            exact ⟨_, List.mem_cons_self, by simp [Expr.own, hr, self, Instr.untargeted]⟩
          · exact operands h
        · obtain rfl := List.mem_singleton.mp h
          exact ⟨_, List.mem_cons_self, by simp [Expr.own, hr, Instr.untargeted]⟩
      all_goals cases h
  | .invoke n target callee args, pc, i, h => by
      have operands : ∀ {pc}, i ∈ Expr.codeAll pc args →
          Contributes (Expr.evaluated (.invoke n target callee args)) i := fun hi =>
        (Expr.contributes_of_mem_codeAll args hi).mono
          (List.subset_cons_of_subset _ (List.subset_append_right _ _))
      rcases hr : n.refers with _ | (slot | ⟨owner, st, d⟩ | ⟨owner, _ | _, d⟩ | cls | cls)
      all_goals simp only [Expr.code, hr] at h
      case some.method.true =>
        rcases List.mem_append.mp h with h | h
        · exact operands h
        · obtain rfl := List.mem_singleton.mp h
          exact ⟨_, List.mem_cons_self, by simp [Expr.own, hr, Instr.untargeted]⟩
      case some.method.false =>
        rcases List.mem_append.mp h with h | h
        · rcases List.mem_append.mp h with h | h
          · refine (target.contributes_of_mem_code h).mono ?_
            simp [Expr.evaluated, Note.isStaticMethod, hr]
          · exact operands h
        · obtain rfl := List.mem_singleton.mp h
          exact ⟨_, List.mem_cons_self, by simp [Expr.own, hr, Instr.untargeted]⟩
      all_goals cases h
  | .new n type args, pc, i, h => by
      refine ⟨_, List.mem_cons_self, ?_⟩
      rcases hr : n.refers with _ | (slot | ⟨owner, st, d⟩ | ⟨owner, st, d⟩ | cls | cls)
      all_goals simp only [Expr.code, Expr.own, hr] at h ⊢
      case some.cls =>
        simp only [SymbolicCode.create, List.mem_cons, List.not_mem_nil, or_false] at h ⊢
        rcases h with rfl | rfl | rfl <;> simp [Instr.untargeted]
      all_goals cases h
  | .newArray n elem length, pc, i, h => by
      rcases List.mem_append.mp h with h | h
      · exact (length.contributes_of_mem_code h).mono (List.subset_cons_self _ _)
      · obtain rfl := List.mem_singleton.mp h
        exact ⟨_, List.mem_cons_self, h⟩
  | .index n target at_, pc, i, h => by
      simp only [Expr.code] at h
      rcases List.mem_append.mp h with h | h
      · rcases List.mem_append.mp h with h | h
        · exact (target.contributes_of_mem_code h).mono
            (List.subset_cons_of_subset _ (List.subset_append_left _ _))
        · exact (at_.contributes_of_mem_code h).mono
            (List.subset_cons_of_subset _ (List.subset_append_right _ _))
      · obtain rfl := List.mem_singleton.mp h
        exact ⟨_, List.mem_cons_self, h⟩
  | .unary n op operand, pc, i, h => by
      rcases List.mem_append.mp h with h | h
      · exact (operand.contributes_of_mem_code h).mono (List.subset_cons_self _ _)
      · obtain rfl := List.mem_singleton.mp h
        exact ⟨_, List.mem_cons_self, by cases op <;> exact h⟩
  | .binary n op lhs rhs, pc, i, h => by
      have left : ∀ {pc}, i ∈ lhs.code pc → Contributes (Expr.evaluated (.binary n op lhs rhs)) i :=
        fun hi => (lhs.contributes_of_mem_code hi).mono
          (List.subset_cons_of_subset _ (List.subset_append_left _ _))
      have right : ∀ {pc}, i ∈ rhs.code pc →
          Contributes (Expr.evaluated (.binary n op lhs rhs)) i :=
        fun hi => (rhs.contributes_of_mem_code hi).mono
          (List.subset_cons_of_subset _ (List.subset_append_right _ _))
      cases op with
      | and | or =>
          simp only [Expr.code, skipInstr] at h
          rcases List.mem_append.mp h with h | h
          · rcases List.mem_append.mp h with h | h
            · exact left h
            · refine ⟨_, List.mem_cons_self, ?_⟩
              simp only [List.mem_cons, List.not_mem_nil, or_false] at h
              rcases h with rfl | rfl | rfl <;> simp [Expr.own, skipInstr, Instr.untargeted]
          · exact right h
      | add | sub | mul | div | rem | eq | ne | lt | le | gt | ge =>
          simp only [Expr.code, skipInstr] at h
          rcases List.mem_append.mp h with h | h
          · exact (List.mem_append.mp h).elim left right
          · obtain rfl := List.mem_singleton.mp h
            refine ⟨_, List.mem_cons_self, ?_⟩
            simp only [Expr.own, skipInstr]
            cases n.ty.any Ty.isString <;> simp [binaryInstr, Instr.untargeted]
  | .assign n target value, pc, i, h => by
      have assigned : ∀ {pc}, i ∈ value.code pc →
          Contributes (Expr.evaluated (.assign n target value)) i := fun hi =>
        (value.contributes_of_mem_code hi).mono (Expr.evaluated_value_subset n target value)
      have stored : i.untargeted ∈ target.stores →
          Contributes (Expr.evaluated (.assign n target value)) i := fun hi =>
        ⟨_, Expr.mem_evaluated_self _, hi⟩
      cases target with
      | name m ident =>
          rcases hr : m.refers with _ | (slot | ⟨owner, _ | _, d⟩ | ⟨owner, st, d⟩ | cls | cls)
          all_goals simp only [Expr.code, hr] at h
          case some.localVar =>
            refine (List.mem_append.mp h).elim assigned fun h => stored ?_
            simp [Expr.stores, Expr.note, hr] at h ⊢
            rcases h with rfl | rfl <;> simp [Instr.untargeted]
          case some.field.false =>
            rcases List.mem_append.mp h with h | h
            · refine stored ?_
              obtain rfl := List.mem_singleton.mp h
              simp [Expr.stores, Expr.note, hr, self, Instr.untargeted]
            · refine (List.mem_append.mp h).elim assigned fun h => stored ?_
              simp [Expr.stores, Expr.note, hr] at h ⊢
              rcases h with rfl | rfl <;> simp [Instr.untargeted]
          case some.field.true =>
            rw [if_pos trivial, List.nil_append] at h
            refine (List.mem_append.mp h).elim assigned fun h => stored ?_
            simp [Expr.stores, Expr.note, hr] at h ⊢
            rcases h with rfl | rfl <;> simp [Instr.untargeted]
          all_goals exact assigned h
      | field m of member =>
          rcases hr : m.refers with _ | (slot | ⟨owner, _ | _, d⟩ | ⟨owner, st, d⟩ | cls | cls)
          all_goals simp only [Expr.code, hr] at h
          case some.localVar =>
            refine (List.mem_append.mp h).elim assigned fun h => stored ?_
            simp [Expr.stores, Expr.note, hr] at h ⊢
            rcases h with rfl | rfl <;> simp [Instr.untargeted]
          case some.field.false =>
            rcases List.mem_append.mp h with h | h
            · refine (of.contributes_of_mem_code h).mono ?_
              simp [Expr.evaluated, Note.isStaticField, hr]
            · refine (List.mem_append.mp h).elim assigned fun h => stored ?_
              simp [Expr.stores, Expr.note, hr] at h ⊢
              rcases h with rfl | rfl <;> simp [Instr.untargeted]
          case some.field.true =>
            refine (List.mem_append.mp h).elim assigned fun h => stored ?_
            simp [Expr.stores, Expr.note, hr] at h ⊢
            rcases h with rfl | rfl <;> simp [Instr.untargeted]
          all_goals exact assigned h
      | index m of at_ =>
          rcases hr : m.refers with _ | (slot | ⟨owner, st, d⟩ | ⟨owner, st, d⟩ | cls | cls)
          all_goals simp only [Expr.code, hr] at h
          case some.localVar =>
            refine (List.mem_append.mp h).elim assigned fun h => stored ?_
            simp [Expr.stores, Expr.note, hr] at h ⊢
            rcases h with rfl | rfl <;> simp [Instr.untargeted]
          all_goals
            rcases List.mem_append.mp h with h | h
            · rcases List.mem_append.mp h with h | h
              · rcases List.mem_append.mp h with h | h
                · exact (of.contributes_of_mem_code h).mono fun e he => by
                    simp [Expr.evaluated, he]
                · exact (at_.contributes_of_mem_code h).mono fun e he => by
                    simp [Expr.evaluated, he]
              · exact assigned h
            · refine stored ?_
              simp [Expr.stores, Expr.note, hr] at h ⊢
              rcases h with rfl | rfl <;> simp [Instr.untargeted]
      | literal m _ | this m | call m _ _ | invoke m _ _ _ | new m _ _ | newArray m _ _
      | unary m _ _ | binary m _ _ _ | assign m _ _ =>
          rcases hr : m.refers with _ | (slot | ⟨owner, st, d⟩ | ⟨owner, st, d⟩ | cls | cls)
          all_goals simp only [Expr.code, Expr.note, hr] at h
          case some.localVar =>
            refine (List.mem_append.mp h).elim assigned fun h => stored ?_
            simp [Expr.stores, Expr.note, hr] at h ⊢
            rcases h with rfl | rfl <;> simp [Instr.untargeted]
          all_goals exact assigned h

theorem Expr.contributes_of_mem_codeAll : ∀ (es : List Expr) {pc : Nat} {i : Instr String},
    i ∈ Expr.codeAll pc es → Contributes (Expr.evaluatedAll es) i
  | e :: rest, pc, i, h => by
      rcases List.mem_append.mp h with h | h
      · exact (e.contributes_of_mem_code h).mono (List.subset_append_left _ _)
      · exact (Expr.contributes_of_mem_codeAll rest h).mono (List.subset_append_right _ _)

end

/-! ## Statements -/

/-- The expressions that are evaluated with an optional expression. -/
def Expr.evaluated? : Option Expr → List Expr
  | none => []
  | some e => e.evaluated

/-- The expressions that are evaluated in the first part of a `for` header. -/
def ForInit.evaluated : ForInit → List Expr
  | .none => []
  | .declare d => Expr.evaluated? d.init
  | .expr _ e => e.evaluated

mutual

/-- The expressions that are evaluated in a statement. -/
def Stmt.evaluated : Stmt → List Expr
  | .block _ body => Stmt.evaluatedAll body
  | .declare d => Expr.evaluated? d.init
  | .ifThen _ cond s => cond.evaluated ++ s.evaluated
  | .ifElse _ cond s t => cond.evaluated ++ s.evaluated ++ t.evaluated
  | .whileLoop _ cond body => cond.evaluated ++ body.evaluated
  | .forLoop _ init cond update body =>
      init.evaluated ++ Expr.evaluated? cond ++ Expr.evaluated? update ++ body.evaluated
  | .ret _ value => Expr.evaluated? value
  | .throw _ value => value.evaluated
  | .synchronized _ lock _ body => lock.evaluated ++ Stmt.evaluatedAll body
  | .expr _ e => e.evaluated
  | .empty _ => []

/-- The expressions that are evaluated in statements. -/
def Stmt.evaluatedAll : List Stmt → List Expr
  | [] => []
  | s :: rest => s.evaluated ++ Stmt.evaluatedAll rest

end

end ProbeLang
