import ProbeLang.Proofs.Code.WellFormed
import ProbeLang.Proofs.Stack.Places

/-!
# Heights in methods

The methods of a class get heights: nothing is on the stack where a statement begins or ends, and the
code of everything that is evaluated adds what it leaves. What a method is made for is its outline,
which the initialisers have as well: they evaluate the values of fields.
-/

namespace ProbeLang

open CodeM Code SymbolicCode

/-! ## All that is evaluated -/

/-- What is evaluated with an expression is evaluated with every expression that it is evaluated
with. -/
theorem Expr.evaluated_subset : ∀ {e x : Expr}, x ∈ e.evaluated → x.evaluated ⊆ e.evaluated := by
  intro e x hx y hy
  rw [Expr.evaluated_eq] at hx
  rcases List.mem_cons.mp hx with rfl | hx
  · exact hy
  obtain ⟨z, hz, hx⟩ := Expr.mem_evaluatedAll.mp hx
  have hrest := evaluated_subset hx hy
  rw [Expr.evaluated_eq]
  exact List.mem_cons_of_mem _ (Expr.mem_evaluatedAll.mpr ⟨z, hz, hrest⟩)
termination_by e => sizeOf e
decreasing_by exact Expr.sizeOf_used hz

/-- Whether all that is evaluated with expressions is among them. -/
def Expr.Closed (es : List Expr) : Prop :=
  ∀ x ∈ es, x.evaluated ⊆ es

namespace Expr.Closed

variable {es es' : List Expr}

theorem nil : Closed [] := nofun

theorem append (h : Closed es) (h' : Closed es') : Closed (es ++ es') := by
  intro x hx y hy
  rcases List.mem_append.mp hx with hx | hx
  · exact List.mem_append_left _ (h x hx hy)
  · exact List.mem_append_right _ (h' x hx hy)

theorem evaluated (e : Expr) : Closed e.evaluated :=
  fun _ hx => Expr.evaluated_subset hx

theorem evaluated? : ∀ e : Option Expr, Closed (Expr.evaluated? e)
  | none => nil
  | some e => evaluated e

theorem flatMap {α : Type} {f : α → List Expr} (h : ∀ a, Closed (f a)) (as : List α) :
    Closed (as.flatMap f) := by
  intro x hx y hy
  obtain ⟨a, ha, hx⟩ := List.mem_flatMap.mp hx
  exact List.mem_flatMap.mpr ⟨a, ha, h a x hx hy⟩

end Expr.Closed

theorem ForInit.evaluated_closed (init : ForInit) : Expr.Closed init.evaluated := by
  cases init with
  | none => exact .nil
  | declare d => exact .evaluated? d.init
  | expr pos e => exact .evaluated e

mutual

theorem Stmt.evaluated_closed : ∀ s : Stmt, Expr.Closed s.evaluated
  | .block _ body => Stmt.evaluatedAll_closed body
  | .declare d => .evaluated? d.init
  | .ifThen _ cond s | .whileLoop _ cond s => (Expr.Closed.evaluated cond).append s.evaluated_closed
  | .ifElse _ cond s t =>
      ((Expr.Closed.evaluated cond).append s.evaluated_closed).append t.evaluated_closed
  | .forLoop _ init cond update body =>
      ((init.evaluated_closed.append (.evaluated? cond)).append (.evaluated? update)).append
        body.evaluated_closed
  | .ret _ value => .evaluated? value
  | .throw _ value => .evaluated value
  | .synchronized _ lock _ body =>
      (Expr.Closed.evaluated lock).append (Stmt.evaluatedAll_closed body)
  | .expr _ e => .evaluated e
  | .empty _ => .nil

theorem Stmt.evaluatedAll_closed : ∀ ss : List Stmt, Expr.Closed (Stmt.evaluatedAll ss)
  | [] => .nil
  | s :: rest => s.evaluated_closed.append (Stmt.evaluatedAll_closed rest)

end

/-! ## Values of fields -/

/-- Whether the value of a field uses values and is one. -/
def FieldDecl.Uses (f : FieldDecl) : Prop :=
  ∀ e, f.init = some e → Expr.Consumes e.evaluated [e]

/-- Whether the body of a method uses values. -/
def MethodDecl.Uses (m : MethodDecl) : Prop :=
  Expr.Consumes (Stmt.evaluatedAll m.body.body) (Stmt.usedAll m.body.body)

/-- Whether the value of a field has what it uses on the stack. -/
def FieldDecl.Stack (f : FieldDecl) : Prop :=
  ∀ e, f.init = some e → Expr.Stack e.evaluated [e]

theorem FieldDecl.Fit.stack {f : FieldDecl} (hfit : f.Fit) (h : f.Uses) : f.Stack :=
  fun e he => (h e he).stack fun x hx => (hfit e he x hx).1.attributed.resolved

theorem MethodDecl.Fit.stack {m : MethodDecl} (hfit : m.Fit) (h : m.Uses) :
    Expr.Stack (Stmt.evaluatedAll m.body.body) (Stmt.usedAll m.body.body) :=
  h.stack fun x hx => (hfit.evaluated x hx).attributed.resolved

section Fields

variable {cls : String} {isStatic : Bool}

/-- The code that gives fields their values leaves the stack as it is. -/
theorem SymbolicCode.fieldValues_effect : ∀ (fields : List (FieldDecl × FieldSig)) (pc : Nat),
    (∀ f ∈ fields, f.1.Stack) → HasEffect callEffect? pc (fieldValues cls isStatic pc fields) 0 0
  | [], _, _ => .nil
  | (f, sig) :: rest, pc, h => by
      obtain ⟨hf, hrest⟩ := List.forall_mem_cons.mp h
      unfold fieldValues
      cases hinit : f.init with
      | none => exact fieldValues_effect rest pc hrest
      | some e =>
          have hvalue (pc : Nat) := Expr.used_effect pc (hf e hinit)
          dsimp only
          split
          · refine HasEffect.append ?_ (fieldValues_effect rest _ hrest) (Nat.le_refl 0) rfl
            cases isStatic with
            | true => exact (hvalue _).instr_behind rfl rfl (Nat.le_refl 1) rfl
            | false =>
                have hself : HasEffect callEffect? pc self 0 1 := self_effect
                have hboth := hself.append (hvalue _) (Nat.zero_le _) (b := 2) rfl
                exact hboth.instr_behind rfl rfl (Nat.le_refl 2) rfl
          · exact fieldValues_effect rest pc hrest

/-- What is evaluated for the values of fields. -/
def SymbolicCode.fieldExprs (isStatic : Bool) (fields : List (FieldDecl × FieldSig)) : List Expr :=
  fields.flatMap fun (f, sig) => if sig.isStatic = isStatic then Expr.evaluated? f.init else []

/-- The code of what is evaluated for the values of fields stands in the code for them. -/
theorem SymbolicCode.fieldValues_stand : ∀ (fields : List (FieldDecl × FieldSig)) (pc : Nat)
    {x : Expr}, (∀ y ∈ fieldExprs isStatic fields, y.Resolved) → x ∈ fieldExprs isStatic fields →
      ∃ p, Stands pc (fieldValues cls isStatic pc fields) p (x.code p)
  | (f, sig) :: rest, pc, x, h, hx => by
      unfold fieldExprs at h hx
      rw [List.flatMap_cons] at h hx
      obtain ⟨hf, hrest⟩ := List.forall_mem_append.mp h
      have hlater (pc : Nat) (hx : x ∈ fieldExprs isStatic rest) :=
        fieldValues_stand rest pc hrest hx
      unfold fieldValues
      dsimp only at hf hx
      cases hinit : f.init with
      | none =>
          rw [hinit, Expr.evaluated?, ite_self] at hx
          exact hlater pc hx
      | some e =>
          rw [hinit] at hf hx
          dsimp only
          split
          · next hstatic =>
              rw [if_pos hstatic] at hf hx
              rcases List.mem_append.mp hx with hx | hx
              · obtain ⟨p, hp⟩ := Expr.evaluated_stands
                  (pc + size (if isStatic then [] else self)) hf hx
                exact ⟨p, ((hp.right _).left _).left _⟩
              · obtain ⟨p, hp⟩ := hlater _ hx
                exact ⟨p, .right _ hp⟩
          · next hstatic =>
              rw [if_neg hstatic] at hx
              exact hlater pc hx

end Fields

/-! ## Methods -/

/-- What the code of a method is made for: the statements of the body, each with the place where it
begins and the first slot that is free there, and all that is evaluated. -/
structure MethodOutline where
  statements : List (Nat × Nat × Stmt)
  values : List Expr

/-- The outline of a declared method. -/
def MethodDecl.outline (m : MethodDecl) (sig : MethodSig) : MethodOutline where
  statements := Stmt.allSpots 0 (m.firstLock sig) m.body.body
  values := Stmt.evaluatedAll m.body.body

/-- The outline of an initialiser. -/
def MethodOutline.ofFields (isStatic : Bool) (fields : List (FieldDecl × FieldSig)) :
    MethodOutline where
  statements := []
  values := SymbolicCode.fieldExprs isStatic fields

/-- The outlines of the methods of a class, in the order of `symbolicMethods`. -/
def ClassDecl.outlines (c : ClassDecl) (symbol : ClassSymbol) : List MethodOutline :=
  .ofFields false (c.fields.zip symbol.fields) ::
    (c.methods.zip symbol.methods).map (fun (m, sig) => m.outline sig) ++
    if c.fields.any fun f => f.modifiers.has .isStatic && f.init.isSome then
      [.ofFields true (c.fields.zip symbol.fields)]
    else []

/-- Whether heights of the stack in the code of a method agree with what its instructions do, with
nothing on the stack where a statement begins or ends, and the code of every expression adding what
the expression leaves. -/
structure SymbolicMethod.Balanced (sym : SymbolicMethod) (outline : MethodOutline)
    (height : Nat → Nat) : Prop where
  stacked : Stacked callEffect? sym.code height
  statements : ∀ q ∈ outline.statements, Stands 0 sym.code q.1 (Stmt.spotCode q) ∧
    height q.1 = 0 ∧ height (q.1 + size (Stmt.spotCode q)) = 0
  values : ∀ x ∈ outline.values, (∃ p, Stands 0 sym.code p (x.code p)) ∧
    ∀ p, Stands 0 sym.code p (x.code p) → height (p + size (x.code p)) = height p + x.leaves

/-- The code of an expression adds what it leaves wherever it stands. -/
theorem Expr.level_behind {e : Expr} {c : SymbolicCode} {height : Nat → Nat} {p : Nat}
    (h : e.AllStack) (hlinear : Linear callEffect? height 0 c) (hp : Stands 0 c p (e.code p)) :
    height (p + size (e.code p)) = height p + e.leaves :=
  ((e.code_effect p h) height (hlinear.of_stands hp) (Nat.zero_le _)).1

/-- All of what is evaluated has what it uses on the stack. -/
theorem Expr.Closed.allStack {es : List Expr} (hclosed : Expr.Closed es)
    (h : ∀ x ∈ es, x.Stacks) {x : Expr} (hx : x ∈ es) : x.AllStack :=
  fun y hy => h y (hclosed x hx hy)

theorem Expr.fieldExprs_closed (isStatic : Bool) (fields : List (FieldDecl × FieldSig)) :
    Expr.Closed (SymbolicCode.fieldExprs isStatic fields) := by
  refine .flatMap (fun (f, sig) => ?_) fields
  dsimp only
  split
  · exact .evaluated? f.init
  · exact .nil

theorem SymbolicCode.fieldExprs_stack {isStatic : Bool} {fields : List (FieldDecl × FieldSig)}
    (h : ∀ f ∈ fields, f.1.Stack) : ∀ x ∈ fieldExprs isStatic fields, x.Stacks := by
  intro x hx
  obtain ⟨⟨f, sig⟩, hf, hx⟩ := List.mem_flatMap.mp hx
  dsimp only at hx
  split at hx
  · cases hinit : f.init with
    | none =>
        rw [hinit] at hx
        cases hx
    | some e =>
        rw [hinit] at hx
        exact (h _ hf e hinit).evaluated x hx
  · cases hx

/-- An initialiser that evaluates the values of fields behind other code. -/
theorem balanced_initialiser {sym : SymbolicMethod} (before : SymbolicCode) {isStatic : Bool}
    {cls : String} {fields : List (FieldDecl × FieldSig)}
    (hcode : sym.code = before ++ fieldValues cls isStatic (size before) fields ++ [.ret])
    (hbefore : HasEffect callEffect? 0 before 0 0) (h : ∀ f ∈ fields, f.1.Stack) :
    ∃ height, sym.Balanced (.ofFields isStatic fields) height := by
  obtain ⟨height, hentry, hlinear⟩ := exists_linear callEffect? 0 0 sym.code
  have hvalues : HasEffect callEffect? (0 + size before)
      (fieldValues cls isStatic (size before) fields) 0 0 := by
    rw [Nat.zero_add]
    exact fieldValues_effect fields _ h
  have heffect : HasEffect callEffect? 0 sym.code 0 0 := by
    rw [hcode]
    exact (hbefore.append hvalues (Nat.le_refl 0) (b := 0) rfl).instr_behind rfl rfl
      (Nat.le_refl 0) rfl
  have hstack : ∀ x ∈ fieldExprs isStatic fields, x.Stacks := fieldExprs_stack h
  refine ⟨height, heffect.stacked hlinear hentry, nofun, fun x hx => ⟨?_, fun p hp => ?_⟩⟩
  · obtain ⟨p, hp⟩ : ∃ p, Stands (size before) (fieldValues cls isStatic (size before) fields) p
        (x.code p) :=
      fieldValues_stand fields (size before) (fun y hy => (hstack y hy).resolved) hx
    rw [hcode]
    exact ⟨p, .left (.behind _ hp (Nat.zero_add _).symm) _⟩
  · exact Expr.level_behind ((Expr.fieldExprs_closed _ _).allStack hstack hx) hlinear hp

/-- A declared method. -/
theorem MethodDecl.balanced {m : MethodDecl} (sig : MethodSig) (hfit : m.Fit) (h : m.Uses) :
    ∃ height, (m.symbolic sig).Balanced (m.outline sig) height := by
  have h := hfit.stack h
  obtain ⟨height, hentry, hlinear⟩ := exists_linear callEffect? 0 0 (m.code sig)
  have hbody := Stmt.codeAll_effect m.body.body 0 (m.firstLock sig) h
  have hlast (pc : Nat) :
      HasEffect callEffect? pc (if sig.ret = .void then [Instr.ret] else []) 0 0 := by
    split
    · exact .instr rfl rfl
    · exact .nil
  have heffect := hbody.append (hlast _) (Nat.le_refl 0) (b := 0) rfl
  refine ⟨height, heffect.stacked hlinear hentry, fun q hq => ?_, fun x hx => ⟨?_, fun p hp => ?_⟩⟩
  · have hstands := (Stmt.allSpots_stand m.body.body 0 (m.firstLock sig) q hq).left
      (if sig.ret = .void then [Instr.ret] else [])
    have hlevel := Stmt.allSpots_level m.body.body h hlinear.left q hq
    have hspot := q.2.2.code_effect q.1 q.2.1 (Stmt.allSpots_stack m.body.body h q hq)
    refine ⟨hstands, hlevel.trans hentry, ?_⟩
    exact (hspot height (hlinear.of_stands hstands) (Nat.zero_le _)).1.trans (hlevel.trans hentry)
  · obtain ⟨p, hp⟩ := Stmt.allEvaluated_stand m.body.body 0 (m.firstLock sig)
      ⟨fun y hy => (h.evaluated y hy).resolved, hfit.declared⟩ hx
    exact ⟨p, hp.left _⟩
  · exact Expr.level_behind ((Stmt.evaluatedAll_closed _).allStack h.evaluated hx) hlinear hp

/-! ## Classes -/

mutual

/-- Whether all fields and methods of a class, and of the classes in it, have given properties. -/
def ClassDecl.Each (F : FieldDecl → Prop) (M : MethodDecl → Prop) (c : ClassDecl) : Prop :=
  match c with
  | ⟨_, _, _, members, _⟩ => Member.AllEach F M members
termination_by structural c

/-- Whether all fields and methods among members, and in the classes among them, have given
properties. -/
def Member.AllEach (F : FieldDecl → Prop) (M : MethodDecl → Prop) (members : List Member) : Prop :=
  match members with
  | [] => True
  | .field f :: rest => F f ∧ Member.AllEach F M rest
  | .method m :: rest => M m ∧ Member.AllEach F M rest
  | .type decl :: rest => decl.Each F M ∧ Member.AllEach F M rest
termination_by structural members

end

section Each

variable {F : FieldDecl → Prop} {M : MethodDecl → Prop}

/-- Whether a member, with what is in it, has given properties. -/
def Member.Each (F : FieldDecl → Prop) (M : MethodDecl → Prop) : Member → Prop
  | .field f => F f
  | .method m => M m
  | .type decl => decl.Each F M

theorem Member.allEach_iff : ∀ {members : List Member},
    Member.AllEach F M members ↔ ∀ m ∈ members, m.Each F M
  | [] => by simp [Member.AllEach]
  | .field _ :: rest | .method _ :: rest | .type _ :: rest => by
      rw [List.forall_mem_cons, ← Member.allEach_iff]
      rfl

theorem ClassDecl.Each.members {c : ClassDecl} (h : c.Each F M) : ∀ m ∈ c.members, m.Each F M := by
  cases c
  exact Member.allEach_iff.mp h

theorem ClassDecl.Each.fields {c : ClassDecl} (h : c.Each F M) : ∀ f ∈ c.fields, F f := by
  intro f hf
  obtain ⟨m, hm, heq⟩ := List.mem_filterMap.mp hf
  cases m <;> cases heq
  exact h.members _ hm

theorem ClassDecl.Each.methods {c : ClassDecl} (h : c.Each F M) : ∀ m ∈ c.methods, M m := by
  intro m hm
  obtain ⟨m, hm, heq⟩ := List.mem_filterMap.mp hm
  cases m <;> cases heq
  exact h.members _ hm

mutual

/-- What holds of all members of a class holds in the classes in it. -/
theorem ClassDecl.each_of_mem_declared {unit : Nat} {package : Option String}
    {d : DeclaredClass} : ∀ (c : ClassDecl) {outer : Option String} {place : List Nat}
    {binary : String}, c.Each F M → d ∈ c.declared unit package outer place binary →
      d.decl.Each F M
  | ⟨_, _, _, members, _⟩, _, _, _, h, hd => by
      rcases List.mem_cons.mp hd with rfl | hd
      · exact h
      · exact Member.each_of_mem_declared members h hd

theorem Member.each_of_mem_declared {unit : Nat} {package : Option String} {d : DeclaredClass} :
    ∀ (members : List Member) {place : List Nat} {binary : String} {i : Nat},
      Member.AllEach F M members → d ∈ Member.declared unit package place binary i members →
        d.decl.Each F M
  | .field _ :: rest, _, _, _, h, hd | .method _ :: rest, _, _, _, h, hd =>
      Member.each_of_mem_declared rest h.2 hd
  | .type decl :: rest, _, _, _, h, hd => by
      rcases List.mem_append.mp hd with hd | hd
      · exact decl.each_of_mem_declared h.1 hd
      · exact Member.each_of_mem_declared rest h.2 hd

end

end Each

/-- Whether all code of a class, and of those in it, uses values. -/
def ClassDecl.Uses (c : ClassDecl) : Prop :=
  c.Each FieldDecl.Uses MethodDecl.Uses

/-- Whether all code of a member uses values. -/
def Member.Uses (m : Member) : Prop :=
  m.Each FieldDecl.Uses MethodDecl.Uses

/-- The methods of a class have heights. -/
theorem ClassDecl.symbolicMethods_balanced {c : ClassDecl} (symbol : ClassSymbol)
    {superclass : String} (hfit : c.Fit) (h : c.Uses)
    (hsuper : callEffect? (initReference superclass) = some (0, 0)) :
    List.Forall₂ (fun sym outline => ∃ height, sym.Balanced outline height)
      (c.symbolicMethods symbol superclass) (c.outlines symbol) := by
  have hfields : ∀ f ∈ c.fields.zip symbol.fields, f.1.Stack := fun f hf =>
    (hfit.fields (List.of_mem_zip hf).1).stack (h.fields f.1 (List.of_mem_zip hf).1)
  have hcall : HasEffect callEffect? 0 (self ++ [.invoke (initReference superclass)]) 0 0 :=
    self_effect.instr_behind (k := 1) (n := 0) (by simp [Instr.effect?, hsuper]) rfl
      (Nat.le_refl 1) rfl
  refine .cons (balanced_initialiser _ rfl hcall hfields) (List.rel_append ?_ ?_)
  · rw [List.forall₂_map_left_iff, List.forall₂_map_right_iff, List.forall₂_same]
    intro p hp
    have hm := (List.of_mem_zip hp).1
    exact p.1.balanced p.2 (hfit.methods hm) (h.methods p.1 hm)
  · split
    · exact .cons (balanced_initialiser [] rfl .nil hfields) .nil
    · exact .nil

/-! ## Artifacts -/

/-- Whether a method of an artifact is well-formed and heights in its code agree with what its
instructions do, the methods that they call having the descriptors that the constants name. -/
structure MethodInfo.Balanced (pool : ConstantPool) (m : MethodInfo) (code : Code)
    (sym : SymbolicMethod) (outline : MethodOutline) (height : Nat → Nat) : Prop where
  wellFormed : m.WellFormed pool code sym
  stacked : Stacked (fun k => (pool.get? k.toNat).bind callEffect?) code height
  symbolic : sym.Balanced outline height

theorem MethodInfo.WellFormed.balanced {pool : ConstantPool} {m : MethodInfo} {code : Code}
    {sym : SymbolicMethod} {outline : MethodOutline} {height : Nat → Nat}
    (h : m.WellFormed pool code sym) (hsym : sym.Balanced outline height) :
    m.Balanced pool code sym outline height := by
  refine ⟨h, ?_, hsym⟩
  have hresolved : Stacked (fun k => k.bind callEffect?) sym.code.resolved height :=
    stacked_map.mpr hsym.stacked
  rw [← h.constants] at hresolved
  exact stacked_map.mp hresolved

end ProbeLang
