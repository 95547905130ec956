import ProbeLang.Analysis.Class
import ProbeLang.Proofs.Analysis.Stmt

/-!
# Names in scope

A local variable is in scope from behind its declaration to the end of the block around it, or of the
`for` statement whose header declares it. Branches and bodies without braces are no blocks. What is in
scope at a place is a list of names with their slots, and where a name means a local variable is
settled by that list alone: such a name refers to the slot it has there, and nothing else refers to a
slot (`Expr.Scoped`). The analysis of an expression sees to that, whether it reports errors or not.
-/

namespace ProbeLang

open SessionM

/-- Names of local variables and their slots, last first. -/
abbrev Bindings := List (String × Nat)

/-- The slot that is referred to, if it is that of a local variable. -/
def Referent.slot? : Referent → Option Nat
  | .localVar slot => some slot
  | _ => none

/-- The name that an expression is by itself. -/
def Expr.simpleName? : Expr → Option String
  | .name _ ident => some ident
  | _ => none

/-- Whether an expression refers to the slot that it has among bindings if it is a name among them,
and to no slot otherwise. -/
def Expr.BoundIn (env : Bindings) (e : Expr) : Prop :=
  e.localSlot? = e.simpleName?.bind fun name => env.lookup name

/-- Whether an expression and all that are in it refer to the slots that they have. -/
def Expr.Scoped (env : Bindings) (e : Expr) : Prop :=
  ∀ x ∈ e.preorder, x.BoundIn env

/-- Whether expressions refer to the slots that they have. -/
def Expr.AllScoped (env : Bindings) (es : List Expr) : Prop :=
  ∀ x ∈ Expr.preorderAll es, x.BoundIn env

/-- Whether an optional expression refers to the slots that it has. -/
def Expr.Scoped? (env : Bindings) (e : Option Expr) : Prop :=
  ∀ x ∈ Expr.preorder? e, x.BoundIn env

/-- What is in scope behind a declaration. -/
def LocalVar.binds (env : Bindings) (d : LocalVar) : Bindings :=
  match d.slot with
  | some slot => (d.name.name, slot) :: env
  | none => env

/-- Whether the value of a variable refers to the slots that it has in front of the declaration,
where the name of the variable is still free. -/
structure LocalVar.Scoped (env : Bindings) (d : LocalVar) : Prop where
  init : Expr.Scoped? env d.init
  fresh : d.name.name ∉ env.map Prod.fst

/-- What is in scope behind the first part of a `for` header. -/
def ForInit.binds (env : Bindings) : ForInit → Bindings
  | .declare d => d.binds env
  | .none | .expr _ _ => env

/-- Whether the first part of a `for` header refers to the slots that it has. -/
def ForInit.Scoped (env : Bindings) : ForInit → Prop
  | .none => True
  | .declare d => d.Scoped env
  | .expr _ e => e.Scoped env

/-- What is in scope behind a statement. -/
def Stmt.binds (env : Bindings) : Stmt → Bindings
  | .declare d => d.binds env
  | .ifThen _ _ s | .whileLoop _ _ s => s.binds env
  | .ifElse _ _ s t => t.binds (s.binds env)
  | .block _ _ | .forLoop _ _ _ _ _ | .ret _ _ | .throw _ _ | .synchronized _ _ _ _ | .expr _ _
  | .empty _ => env

mutual

/-- Whether the names in a statement refer to the slots that they have where they stand, and every
variable is declared under a free name. -/
def Stmt.Scoped (env : Bindings) : Stmt → Prop
  | .block _ body => Stmt.AllScoped env body
  | .declare d => d.Scoped env
  | .ifThen _ cond s | .whileLoop _ cond s => cond.Scoped env ∧ s.Scoped env
  | .ifElse _ cond s t => cond.Scoped env ∧ s.Scoped env ∧ t.Scoped (s.binds env)
  | .forLoop _ init cond update body =>
      init.Scoped env ∧ Expr.Scoped? (init.binds env) cond ∧ Expr.Scoped? (init.binds env) update ∧
        body.Scoped (init.binds env)
  | .ret _ value => Expr.Scoped? env value
  | .throw _ value | .expr _ value => value.Scoped env
  | .synchronized _ lock _ body => lock.Scoped env ∧ Stmt.AllScoped env body
  | .empty _ => True

/-- Whether the names in statements refer to the slots that they have where they stand. -/
def Stmt.AllScoped (env : Bindings) : List Stmt → Prop
  | [] => True
  | s :: rest => s.Scoped env ∧ Stmt.AllScoped (s.binds env) rest

end

/-! ## Expressions -/

namespace Expr

variable {env : Bindings} {e : Expr} {es : List Expr}

theorem localSlot?_eq (e : Expr) : e.localSlot? = e.note.refers.bind Referent.slot? := by
  rw [localSlot?]
  rcases e.note.refers with _ | (_ | _ | _ | _ | _) <;> rfl

/-- What is no name is bound if it refers to no slot. -/
theorem boundIn_of_refers (hname : e.simpleName? = none)
    (h : e.note.refers.bind Referent.slot? = none) : e.BoundIn env := by
  rw [BoundIn, localSlot?_eq, h, hname]
  rfl

/-- What is no name is bound if its note is one that the parser has left. -/
theorem boundIn_of_parsed {e' : Expr} (h : e'.Parsed) (hname : e.simpleName? = none)
    (hnote : e.note = e'.note) : e.BoundIn env :=
  boundIn_of_refers hname (by rw [hnote, h.self.1]; rfl)

theorem scoped_iff : e.Scoped env ↔ e.BoundIn env ∧ AllScoped env e.operands := by
  rw [Scoped, preorder_eq, List.forall_mem_cons]
  rfl

theorem allScoped_nil : AllScoped env [] :=
  nofun

theorem allScoped_cons : AllScoped env (e :: es) ↔ e.Scoped env ∧ AllScoped env es :=
  List.forall_mem_append

theorem allScoped_pair {e' : Expr} (h : e.Scoped env) (h' : e'.Scoped env) :
    AllScoped env [e, e'] :=
  allScoped_cons.mpr ⟨h, allScoped_cons.mpr ⟨h', allScoped_nil⟩⟩

theorem allScoped_single (h : e.Scoped env) : AllScoped env [e] :=
  allScoped_cons.mpr ⟨h, allScoped_nil⟩

/-- The type of an expression has no part in what it refers to. -/
theorem scoped_withTy {ty : Ty} : (e.withTy ty).Scoped env ↔ e.Scoped env := by
  rw [scoped_iff, scoped_iff]
  cases e <;> rfl

end Expr

/-- The binding of a local variable. -/
def LocalSlot.binding (v : LocalSlot) : String × Nat :=
  (v.name, v.slot)

/-- The bindings of the local variables at a place. -/
def Locals.bindings (l : Locals) : Bindings :=
  l.vars.map LocalSlot.binding

namespace BodyScope

variable {σ : Type} {cx : BodyScope σ} {l : Locals}

/-- The bindings of the local variables of a scope. -/
def bindings (cx : BodyScope σ) : Bindings :=
  cx.locals.map LocalSlot.binding

/-- A local variable is found under its name with its slot. -/
theorem lookup_binding (vars : List LocalSlot) (name : String) :
    (vars.map LocalSlot.binding).lookup name =
      (vars.find? fun v => v.name == name).map LocalSlot.slot := by
  induction vars with
  | nil => rfl
  | cons v vars ih =>
      rw [List.map_cons, LocalSlot.binding, List.lookup_cons, List.find?_cons, BEq.comm]
      cases v.name == name
      · exact ih
      · rfl

theorem gives_nameOperand (pos : Pos) (name : String) :
    (cx.nameOperand pos name).Gives fun r =>
      r.2.bind Referent.slot? = cx.bindings.lookup name := by
  unfold nameOperand bindings
  rw [lookup_binding]
  split
  · next v hv =>
      rw [hv]
      exact .pure rfl
  · next hnone =>
      rw [hnone]
      refine .behind fun r => ?_
      cases r with
      | some p => exact .pure rfl
      | none =>
          refine .behind fun r => ?_
          cases r with
          | some cls => exact .behind fun _ => .pure rfl
          | none => exact .pure rfl

/-- A name behind a dot refers to no local variable. -/
theorem gives_memberOperand (pos : Pos) (name : Ident) (o : Operand) :
    (cx.memberOperand pos name o).Gives fun r => r.2.bind Referent.slot? = none := by
  unfold memberOperand
  split
  · refine .behind fun r => ?_
    cases r with
    | some p => exact .pure rfl
    | none => exact .behind fun _ => .pure rfl
  · exact .pure rfl
  · split
    · exact .pure rfl
    · exact .behind fun _ => .pure rfl
  · refine .behind fun r => ?_
    cases r with
    | some p =>
        dsimp only
        split
        · exact .behind fun _ => .pure rfl
        · exact .pure rfl
    | none =>
        refine .behind fun r => ?_
        cases r with
        | some nested => exact .behind fun _ => .pure rfl
        | none => exact .behind fun _ => .pure rfl
  · refine .behind fun found => ?_
    split
    · exact .behind fun _ => .pure rfl
    · exact .pure rfl

theorem gives_callOn (name : Ident) (args : List Ty) (cls : String) (static : Bool) :
    (cx.callOn name args cls static).Gives fun r => r.2.bind Referent.slot? = none := by
  refine .behind fun candidates => ?_
  dsimp only
  split
  · exact .behind fun _ => .pure rfl
  · refine .behind fun r => ?_
    cases r with
    | none => exact .behind fun _ => .pure rfl
    | some p =>
        dsimp only
        split
        · exact .behind fun _ => .pure rfl
        · exact .pure rfl

theorem gives_callEnclosing (name : Ident) (args : List Ty) : ∀ (classes : List String)
    (static : Bool), (cx.callEnclosing name args static classes).Gives fun r =>
      r.2.bind Referent.slot? = none
  | [], _ => .behind fun _ => .pure rfl
  | cls :: outer, static => by
      unfold callEnclosing
      refine .behind fun candidates => ?_
      split
      · exact gives_callEnclosing name args outer true
      · exact gives_callOn name args cls static

/-- A method refers to no local variable, and its receiver to what it did before. -/
theorem gives_callOperand {env : Bindings} (name : Ident) (args : List Ty) (r : Operand × Expr)
    (hr : r.2.Scoped env) : (cx.callOperand name args r).Gives fun r' =>
      r'.2.1.bind Referent.slot? = none ∧ r'.2.2.Scoped env := by
  obtain ⟨ty | cls | segments, e⟩ := r
  · unfold callOperand
    dsimp only
    split
    · exact (gives_callOn name args _ false).bind fun _ h => .pure ⟨h, Expr.scoped_withTy.mpr hr⟩
    · exact .pure ⟨rfl, Expr.scoped_withTy.mpr hr⟩
    · exact .behind fun _ => .pure ⟨rfl, Expr.scoped_withTy.mpr hr⟩
  · exact (gives_callOn name args cls true).bind fun _ h => .pure ⟨h, hr⟩
  · exact .behind fun _ => .pure ⟨rfl, hr⟩

theorem gives_create (pos : Pos) (type : TypeRef) (args : List Ty) :
    (cx.create pos type args).Gives fun r => r.2.bind Referent.slot? = none := by
  refine .behind fun ty => ?_
  split
  · dsimp only
    split
    · exact .behind fun _ => .behind fun _ => .pure rfl
    · exact .pure rfl
  · exact .pure rfl

theorem gives_settle_scoped {env : Bindings} (r : Operand × Expr) (hr : r.2.Scoped env) :
    (cx.settle r).Gives fun r' => r'.2.Scoped env := by
  obtain ⟨ty | cls | segments, e⟩ := r
  · exact .pure (Expr.scoped_withTy.mpr hr)
  · exact .behind fun _ => .pure (Expr.scoped_withTy.mpr hr)
  · exact .behind fun _ => .pure (Expr.scoped_withTy.mpr hr)

mutual

/-- An expression that has been analysed refers to the slots that it has in the scope. -/
theorem gives_operand_scoped : ∀ e : Expr, e.Parsed →
    (cx.operand e).Gives fun r => r.2.Scoped cx.bindings
  | .literal n v, h => .pure <|
      Expr.scoped_iff.mpr ⟨Expr.boundIn_of_parsed h rfl rfl, Expr.allScoped_nil⟩
  | .name n name, _ => by
      refine (gives_nameOperand n.pos name).bind fun r hr => .pure ?_
      exact Expr.scoped_iff.mpr ⟨(Expr.localSlot?_eq _).trans hr, Expr.allScoped_nil⟩
  | .this n, h => .behind fun _ => .pure <|
      Expr.scoped_iff.mpr ⟨Expr.boundIn_of_parsed h rfl rfl, Expr.allScoped_nil⟩
  | .field n target name, h => by
      refine (gives_operand_scoped target (h.operand List.mem_cons_self)).bind fun r hr => ?_
      dsimp only
      refine (gives_memberOperand _ name r.1).bind fun r' hr' => .pure ?_
      refine Expr.scoped_iff.mpr ⟨Expr.boundIn_of_refers rfl hr', Expr.allScoped_single ?_⟩
      split
      · exact Expr.scoped_withTy.mpr hr
      · exact hr
  | .call n callee args, h => by
      refine (gives_values_scoped args h.operands).bind fun r hr => ?_
      refine (gives_callEnclosing callee r.1 _ _).bind fun r' hr' => .pure ?_
      exact Expr.scoped_iff.mpr ⟨Expr.boundIn_of_refers rfl hr', hr⟩
  | .invoke n target callee args, h => by
      refine (gives_values_scoped args fun x hx => ?_).bind fun r hr => ?_
      · exact h.operands x (List.mem_append_right _ hx)
      refine (gives_operand_scoped target (h.operand List.mem_cons_self)).bind fun o ho => ?_
      refine (gives_callOperand callee r.1 o ho).bind fun r' hr' => .pure ?_
      exact Expr.scoped_iff.mpr
        ⟨Expr.boundIn_of_refers rfl hr'.1, Expr.allScoped_cons.mpr ⟨hr'.2, hr⟩⟩
  | .new n type args, h => by
      refine (gives_values_scoped args h.operands).bind fun r hr => ?_
      refine (gives_create n.pos type r.1).bind fun r' hr' => .pure ?_
      exact Expr.scoped_iff.mpr ⟨Expr.boundIn_of_refers rfl hr', hr⟩
  | .newArray n elem length, h => by
      refine (gives_operand_scoped length (h.operand List.mem_cons_self)).bind fun o ho => ?_
      refine (gives_settle_scoped o ho).bind fun r hr => .behind fun _ => .behind fun ty => ?_
      have hscoped : (Expr.newArray n elem r.2).Scoped cx.bindings := Expr.scoped_iff.mpr
        ⟨Expr.boundIn_of_parsed h rfl rfl, Expr.allScoped_single hr⟩
      cases ty <;> exact .pure hscoped
  | .index n target i, h => by
      refine (gives_operand_scoped target (h.operand List.mem_cons_self)).bind fun o ho => ?_
      refine (gives_settle_scoped o ho).bind fun r hr => ?_
      refine (gives_operand_scoped i (h.operand (List.mem_cons_of_mem _ List.mem_cons_self))).bind
        fun o' ho' => (gives_settle_scoped o' ho').bind fun r' hr' =>
          .behind fun _ => .behind fun _ => .pure ?_
      exact Expr.scoped_iff.mpr
        ⟨Expr.boundIn_of_parsed h rfl rfl, Expr.allScoped_pair hr hr'⟩
  | .unary n op e, h => by
      refine (gives_operand_scoped e (h.operand List.mem_cons_self)).bind fun o ho => ?_
      refine (gives_settle_scoped o ho).bind fun r hr => .behind fun _ => .pure ?_
      exact Expr.scoped_iff.mpr
        ⟨Expr.boundIn_of_parsed h rfl rfl, Expr.allScoped_single hr⟩
  | .binary n op lhs rhs, h => by
      refine (gives_operand_scoped lhs (h.operand List.mem_cons_self)).bind fun o ho => ?_
      refine (gives_settle_scoped o ho).bind fun r hr => ?_
      refine (gives_operand_scoped rhs (h.operand (List.mem_cons_of_mem _ List.mem_cons_self))).bind
        fun o' ho' => (gives_settle_scoped o' ho').bind fun r' hr' => .behind fun _ => .pure ?_
      exact Expr.scoped_iff.mpr
        ⟨Expr.boundIn_of_parsed h rfl rfl, Expr.allScoped_pair hr hr'⟩
  | .assign n target value, h => by
      refine (gives_operand_scoped target (h.operand List.mem_cons_self)).bind fun o ho => ?_
      refine (gives_settle_scoped o ho).bind fun r hr => ?_
      have hvalue := gives_operand_scoped value
        (h.operand (List.mem_cons_of_mem _ List.mem_cons_self))
      have hrest : (do
          let (valueTy, value) ← cx.settle (← cx.operand value)
          cx.names.requireAssignable value.pos valueTy r.1
          return (Operand.value r.1, Expr.assign n r.2 value)).Gives
            fun r' => r'.2.Scoped cx.bindings :=
        hvalue.bind fun o' ho' => (gives_settle_scoped o' ho').bind fun r' hr' =>
          .behind fun _ => .pure <| Expr.scoped_iff.mpr
            ⟨Expr.boundIn_of_parsed h rfl rfl, Expr.allScoped_pair hr hr'⟩
      dsimp only
      split
      · exact .behind fun _ => hrest
      · exact hrest

theorem gives_values_scoped : ∀ es : List Expr, Expr.AllParsed es →
    (cx.values es).Gives fun r => Expr.AllScoped cx.bindings r.2
  | [], _ => .pure Expr.allScoped_nil
  | e :: rest, h => by
      refine (gives_operand_scoped e fun x hx => h x (List.mem_append_left _ hx)).bind
        fun o ho => (gives_settle_scoped o ho).bind fun r hr => ?_
      refine (gives_values_scoped rest fun x hx => h x (List.mem_append_right _ hx)).bind
        fun r' hr' => .pure ?_
      exact Expr.allScoped_cons.mpr ⟨hr, hr'⟩

end

theorem gives_value_scoped {e : Expr} (h : e.Parsed) :
    (cx.value e).Gives fun r => r.2.Scoped cx.bindings :=
  (gives_operand_scoped e h).bind fun r hr => gives_settle_scoped r hr

end BodyScope

end ProbeLang
