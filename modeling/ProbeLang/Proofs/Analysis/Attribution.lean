import ProbeLang.Analysis.Expr
import ProbeLang.Proofs.Code.Slots
import ProbeLang.Proofs.Session.Soundness

/-!
# Attributed expressions

An expression is attributed if its name refers to something of the kind that the expression asks for
and its type is known. No code that is made for an attributed expression falls back on an empty
piece, or on an array of the root class.
-/

namespace ProbeLang

/-- Whether a name refers to a field. -/
def Note.IsField (n : Note) : Prop :=
  ∃ owner isStatic d, n.refers = some (.field owner isStatic d)

/-- Whether a name refers to a method. -/
def Note.IsMethod (n : Note) : Prop :=
  ∃ owner isStatic d, n.refers = some (.method owner isStatic d)

/-- Whether a name refers to a local variable or to a field. -/
def Note.IsVariable (n : Note) : Prop :=
  (∃ slot, n.refers = some (.localVar slot)) ∨ n.IsField

namespace Expr

/-- Whether an expression is a local variable, a field or an element of an array. -/
def IsPlace : Expr → Prop
  | .name n _ => n.IsVariable
  | .field n _ _ => n.IsField
  | .index n _ _ => n.refers = none
  | _ => False

/-- Whether an expression refers to what its kind asks for. -/
def Resolved : Expr → Prop
  | .name n _ => n.IsVariable
  | .field n target member =>
      n.IsField ∨ n.refers = none ∧ member.name = "length" ∧ ∃ elem, target.ty? = some (.array elem)
  | .call n _ _ | .invoke n _ _ _ => n.IsMethod
  | .new n _ _ => ∃ cls, n.refers = some (.cls cls)
  | .newArray n _ _ => n.refers = none ∧ ∃ elem, n.ty = some (.array elem)
  | .assign n target _ => n.refers = none ∧ target.IsPlace
  | .literal n _ | .this n | .index n _ _ | .unary n _ _ | .binary n _ _ _ => n.refers = none

/-- Whether an expression refers to what its kind asks for and has a type that is known. -/
structure Attributed (e : Expr) : Prop where
  resolved : e.Resolved
  typed : ∃ ty, e.ty? = some ty ∧ ty.Known

/-- What is assigned to is stored into. -/
theorem IsPlace.stores_ne_nil {target : Expr} (h : target.IsPlace) : target.stores ≠ [] := by
  cases target with
  | name n ident =>
      rcases h with ⟨slot, hr⟩ | ⟨owner, _ | _, d, hr⟩ <;> simp [stores, note, hr, SymbolicCode.self]
  | field n of member =>
      obtain ⟨owner, _ | _, d, hr⟩ := h <;> simp [stores, note, hr]
  | index n of at_ =>
      have hr : n.refers = none := h
      simp [stores, note, hr]
  | _ => exact h.elim

/-- Every attributed expression has code of its own. -/
theorem Resolved.own_ne_nil {e : Expr} (h : e.Resolved) : e.own ≠ [] := by
  cases e with
  | literal n v => cases v <;> simp [own, SymbolicCode.constant]
  | this n | newArray n elem length | index n target at_ | unary n op operand =>
      simp [own, SymbolicCode.self]
  | name n ident =>
      rcases h with ⟨slot, hr⟩ | ⟨owner, _ | _, d, hr⟩ <;> simp [own, hr, SymbolicCode.self]
  | field n target member =>
      rcases h with ⟨owner, _ | _, d, hr⟩ | ⟨hr, -, elem, hty⟩
      · simp [own, hr]
      · simp [own, hr]
      · simp [own, hr, hty]
  | call n callee args =>
      obtain ⟨owner, _ | _, d, hr⟩ := h <;> simp [own, hr, SymbolicCode.self]
  | invoke n target callee args =>
      obtain ⟨owner, _ | _, d, hr⟩ := h <;> simp [own, hr]
  | new n type args =>
      obtain ⟨cls, hr⟩ := h
      simp [own, hr, SymbolicCode.create]
  | binary n op lhs rhs =>
      cases op <;> simp [own, CodeM.skipInstr]
  | assign n target value => exact h.2.stores_ne_nil

/-- A variable that an attributed expression names can be assigned to. -/
theorem Resolved.isPlace_of_isVariable {e : Expr} (h : e.Resolved) (hv : e.isVariable = true) :
    e.IsPlace := by
  cases e with
  | name n ident => exact h
  | index n target at_ => exact h
  | field n target member =>
      rcases h with h | ⟨hr, -⟩
      · exact h
      · simp [isVariable, note, hr] at hv
  | call n callee args | invoke n target callee args =>
      obtain ⟨owner, isStatic, d, hr⟩ := h
      simp [isVariable, note, hr] at hv
  | new n type args =>
      obtain ⟨cls, hr⟩ := h
      simp [isVariable, note, hr] at hv
  | newArray n elem length | assign n target value =>
      have hr : n.refers = none := h.1
      simp [isVariable, note, hr] at hv
  | literal n v | this n | unary n op operand | binary n op lhs rhs =>
      have hr : n.refers = none := h
      simp [isVariable, note, hr] at hv

theorem IsPlace.place_eq {target : Expr} (h : target.IsPlace) : target.place = target := by
  cases target with
  | assign => exact h.elim
  | _ => rfl

/-- What uses the value of `this` when it is assigned to also does when it is read. -/
theorem usesSelf_assign (n : Note) {target : Expr} (value : Expr) (h : target.IsPlace) :
    (Expr.assign n target value).usesSelf = true → target.usesSelf = true := by
  cases target with
  | name | field | index => exact id
  | _ => exact h.elim

end Expr

/-- Whether an expression is attributed and makes no use of `this` in static code. -/
structure Expr.FitFor (isStatic : Bool) (e : Expr) : Prop where
  attributed : e.Attributed
  static : isStatic = true → e.usesSelf = false

/-! ## Local variables -/

/-- The local variable that the first part of a `for` header declares. -/
def ForInit.localVars : ForInit → List LocalVar
  | .declare d => [d]
  | _ => []

mutual

/-- The local variables that are declared in a statement. -/
def Stmt.localVars : Stmt → List LocalVar
  | .block _ body | .synchronized _ _ _ body => Stmt.allLocalVars body
  | .declare d => [d]
  | .ifThen _ _ s | .whileLoop _ _ s => s.localVars
  | .ifElse _ _ s t => s.localVars ++ t.localVars
  | .forLoop _ init _ _ body => init.localVars ++ body.localVars
  | .ret _ _ | .throw _ _ | .expr _ _ | .empty _ => []

/-- The local variables that are declared in statements. -/
def Stmt.allLocalVars : List Stmt → List LocalVar
  | [] => []
  | s :: rest => s.localVars ++ Stmt.allLocalVars rest

end

/-- Whether all expressions that are evaluated in statements are fit for code and all local
variables that are declared in them have a slot. -/
structure Stmt.AllFitFor (isStatic : Bool) (ss : List Stmt) : Prop where
  evaluated : ∀ x ∈ Stmt.evaluatedAll ss, x.FitFor isStatic
  declared : ∀ d ∈ Stmt.allLocalVars ss, d.slot.isSome = true

/-! ## Classes -/

/-- Whether all expressions that are evaluated in the value of a field are fit for code and name no
local variable. -/
def FieldDecl.Fit (f : FieldDecl) : Prop :=
  ∀ e, f.init = some e → ∀ x ∈ e.evaluated,
    x.FitFor (f.modifiers.has .isStatic) ∧ x.place.localSlot? = none

/-- Whether the body of a method is fit for code. -/
def MethodDecl.Fit (m : MethodDecl) : Prop :=
  Stmt.AllFitFor (m.modifiers.has .isStatic) m.body.body

mutual

/-- Whether all members of a class, and of the classes in it, are fit for code. -/
def ClassDecl.Fit (c : ClassDecl) : Prop :=
  match c with
  | ⟨_, _, _, members, _⟩ => Member.AllFit members
termination_by structural c

/-- Whether members, and those of the classes among them, are fit for code. -/
def Member.AllFit (members : List Member) : Prop :=
  match members with
  | [] => True
  | .field f :: rest => f.Fit ∧ Member.AllFit rest
  | .method m :: rest => m.Fit ∧ Member.AllFit rest
  | .type decl :: rest => decl.Fit ∧ Member.AllFit rest
termination_by structural members

end

/-- Whether a member is fit for code. -/
def Member.Fit : Member → Prop
  | .field f => f.Fit
  | .method m => m.Fit
  | .type decl => decl.Fit

theorem Member.allFit_iff : ∀ {members : List Member},
    Member.AllFit members ↔ ∀ m ∈ members, m.Fit
  | [] => by simp [Member.AllFit]
  | .field _ :: rest | .method _ :: rest | .type _ :: rest => by
      rw [List.forall_mem_cons, ← Member.allFit_iff]
      rfl

theorem ClassDecl.Fit.members {c : ClassDecl} (h : c.Fit) : ∀ m ∈ c.members, m.Fit := by
  cases c
  exact Member.allFit_iff.mp h

theorem ClassDecl.Fit.fields {c : ClassDecl} (h : c.Fit) {f : FieldDecl} (hf : f ∈ c.fields) :
    f.Fit := by
  obtain ⟨m, hm, heq⟩ := List.mem_filterMap.mp hf
  cases m <;> cases heq
  exact h.members _ hm

theorem ClassDecl.Fit.methods {c : ClassDecl} (h : c.Fit) {m : MethodDecl} (hm : m ∈ c.methods) :
    m.Fit := by
  obtain ⟨m, hm, heq⟩ := List.mem_filterMap.mp hm
  cases m <;> cases heq
  exact h.members _ hm

mutual

/-- The classes in a class that is fit for code are fit for code. -/
theorem ClassDecl.fit_of_mem_declared {unit : Nat} {package : Option String}
    {d : DeclaredClass} : ∀ (c : ClassDecl) {outer : Option String} {place : List Nat}
    {binary : String}, c.Fit → d ∈ c.declared unit package outer place binary → d.decl.Fit
  | ⟨_, _, _, members, _⟩, _, _, _, h, hd => by
      rcases List.mem_cons.mp hd with rfl | hd
      · exact h
      · exact Member.fit_of_mem_declared members h hd

theorem Member.fit_of_mem_declared {unit : Nat} {package : Option String} {d : DeclaredClass} :
    ∀ (members : List Member) {place : List Nat} {binary : String} {i : Nat},
      Member.AllFit members → d ∈ Member.declared unit package place binary i members → d.decl.Fit
  | .field _ :: rest, _, _, _, h, hd | .method _ :: rest, _, _, _, h, hd =>
      Member.fit_of_mem_declared rest h.2 hd
  | .type decl :: rest, _, _, _, h, hd => by
      rcases List.mem_append.mp hd with hd | hd
      · exact decl.fit_of_mem_declared h.1 hd
      · exact Member.fit_of_mem_declared rest h.2 hd

end

/-! ## Scopes -/

namespace BodyScope

variable {σ : Type}

/-- Whether an expression is fit for the code of a scope and names no local variable where there
is none. -/
structure Holds (cx : BodyScope σ) (e : Expr) : Prop extends e.FitFor cx.isStatic where
  closed : cx.locals = [] → e.place.localSlot? = none

/-- Whether all expressions that are evaluated with an operand are fit for code. -/
def HoldsOperand (cx : BodyScope σ) (r : Operand × Expr) : Prop :=
  ∀ ty, r.1 = .value ty → ty.Known ∧ ∀ x ∈ (r.2.withTy ty).evaluated, cx.Holds x

/-- Whether all expressions that are evaluated with a value are fit for code. -/
def HoldsValue (cx : BodyScope σ) (ty : Ty) (e : Expr) : Prop :=
  ty.Known ∧ e.ty? = some ty ∧ ∀ x ∈ e.evaluated, cx.Holds x

/-- Whether the types of the local variables in a scope are known. -/
def LocalsKnown (cx : BodyScope σ) : Prop :=
  ∀ l ∈ cx.locals, l.ty.Known

end BodyScope

end ProbeLang
