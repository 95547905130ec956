import ProbeLang.Proofs.Analysis.Scopes
import ProbeLang.Proofs.Stack.Methods

/-!
# Slots of local variables

In a method that is analysed without an error the parameters have the first slots behind `this`, and
the local variables have the following ones, in the order of their declarations: a slot is not used
again when its variable goes out of scope, and the names that mean a variable refer to its slot.
-/

namespace ProbeLang

open SessionM

/-! ## Keeping two things -/

namespace SessionM

variable {σ α : Type} {s : Session σ} {P : Prop} {m : SessionM σ α} {Q Q' : α → Session σ → Prop}
  {R : α → Prop}

theorem Keeps.and (h : Keeps s P m Q) (h' : Keeps s P m Q') :
    Keeps s P m fun a t => Q a t ∧ Q' a t where
  grows := h.grows
  advances hrun hP hs herrors :=
    have ⟨hadvances, hq⟩ := h.advances hrun hP hs herrors
    ⟨hadvances, hq, (h'.advances hrun hP hs herrors).2⟩

/-- What a step keeps, and what its answer is known to be besides. -/
theorem Keeps.gives (h : Keeps s P m Q) (hgives : P → m.Gives R) :
    Keeps s P m fun a t => Q a t ∧ R a where
  grows := h.grows
  advances {a} hrun hP hs herrors :=
    have ⟨hadvances, hq⟩ := h.advances hrun hP hs herrors
    ⟨hadvances, hq, hgives hP s a (m.run.run s).2 (Prod.ext hrun rfl)⟩

end SessionM

/-! ## Declarations -/

/-- Whether variables have the slots from the next one on, each its own, and other variables may
follow. -/
structure Locals.Lays (l : Locals) (ds : List LocalVar) (l' : Locals) : Prop where
  slots : ds.map LocalVar.slot = (List.range' l.next ds.length).map some
  next : l'.next = l.next + ds.length
  bounded : l'.next ≤ BodyScope.slotLimit

namespace Locals.Lays

variable {l l' l'' : Locals} {ds ds' : List LocalVar}

theorem nil (h : l.next ≤ BodyScope.slotLimit) : l.Lays [] l :=
  ⟨rfl, rfl, h⟩

theorem append (h : l.Lays ds l') (h' : l'.Lays ds' l'') : l.Lays (ds ++ ds') l'' where
  slots := by
    rw [List.map_append, h.slots, h'.slots, h.next, ← List.map_append, List.length_append,
      List.range'_append_1]
  next := by rw [h'.next, h.next, List.length_append, Nat.add_assoc]
  bounded := h'.bounded

/-- The slots of variables that have gone out of scope are not used again. -/
theorem leave (h : l.Lays ds l') (vars : List LocalSlot) : l.Lays ds { l' with vars } :=
  ⟨h.slots, h.next, h.bounded⟩

end Locals.Lays

namespace BodyScope

variable {σ : Type} {s : Session σ} {P : Prop} {cx : BodyScope σ} {l : Locals}

/-- A variable that is declared without an error gets the next slot, under a name that is free. -/
theorem keeps_declare_next (name : Ident) (ty : Ty) (hP : P → l.next ≤ slotLimit) :
    Keeps s P (cx.declare l name ty) fun r _ =>
      r = (⟨⟨name.name, ty, l.next⟩ :: l.vars, l.next + 1⟩, l.next) ∧
        name.name ∉ l.bindings.map Prod.fst ∧ l.next < slotLimit := by
  unfold declare
  dsimp only
  split
  · refine .problem_bind fun _ => ?_
    split
    · exact .problem_bind fun _ => .pure fun h => h.elim
    · exact .pure fun h => h.elim
  · next hfree =>
      split
      · exact .problem_bind fun _ => .pure fun h => h.elim
      · next hlast =>
          refine .pure fun h _ => ⟨?_, fun hmem => hfree ?_, Nat.lt_of_le_of_ne (hP h) hlast⟩
          · rw [Nat.min_eq_left (hP h)]
          · obtain ⟨b, hb, heq⟩ := List.mem_map.mp hmem
            obtain ⟨v, hv, rfl⟩ := List.mem_map.mp hb
            exact List.any_eq_true.mpr ⟨v, hv, beq_iff_eq.mpr heq⟩

theorem keeps_localVar_scoped (hns : cx.names.Steady) (d : LocalVar)
    (hP : P → l.Known ∧ d.Parsed ∧ l.next ≤ slotLimit) :
    Keeps s P (cx.localVar l d) fun r _ => r.2.Scoped l.bindings ∧
      r.1.bindings = r.2.binds l.bindings ∧ l.Lays [r.2] r.1 := by
  unfold localVar
  refine (NameScope.keeps_resolveType hns d.type).bind fun ty _ _ => ?_
  have hrest : ∀ {s P'} (init : Option Expr),
      (P' → l.next ≤ slotLimit ∧ Expr.Scoped? l.bindings init) → Keeps s P' (do
        let r ← cx.declare l d.name ty
        return (r.1, { d with init, slot := some r.2 })) fun r _ => r.2.Scoped l.bindings ∧
          r.1.bindings = r.2.binds l.bindings ∧ l.Lays [r.2] r.1 := by
    intro s P' init hP'
    refine (keeps_declare_next d.name ty fun h => (hP' h).1).bind fun r _ _ => .pure fun h _ => ?_
    obtain ⟨h, rfl, hfree, hbound⟩ := h
    exact ⟨⟨(hP' h).2, hfree⟩, rfl, rfl, rfl, hbound⟩
  dsimp only
  split
  · exact hrest none fun h => ⟨(hP h.1).2.2, List.forall_mem_nil _⟩
  · next e he =>
      have hparsed (h : P) : e.Parsed := by
        have hinit := (hP h).2.1.init
        rwa [he] at hinit
      refine ((keeps_valueWith hns e fun h => ⟨(hP h.1).1, hparsed h.1⟩).gives
        fun h => gives_value_scoped (hparsed h.1)).bind fun r _ _ => ?_
      refine (NameScope.keeps_requireAssignable hns _ _ _).bind fun _ _ _ => ?_
      exact hrest (some r.2) fun h => ⟨(hP h.1.1.1).2.2, h.1.2.2⟩

/-! ## Expressions in statements -/

section Gives

theorem gives_condition_scoped {e : Expr} (h : e.Parsed) :
    (cx.condition l e).Gives fun e' => e'.Scoped l.bindings :=
  (gives_value_scoped h).bind fun _ hr => .behind fun _ => .pure hr

theorem gives_condition?_scoped {e : Option Expr} (h : Expr.Parsed? e) :
    (cx.condition? l e).Gives fun e' => Expr.Scoped? l.bindings e' := by
  cases e with
  | none => exact .pure nofun
  | some e => exact (gives_condition_scoped h).bind fun _ hr => .pure hr

theorem gives_value?_scoped {e : Option Expr} (h : Expr.Parsed? e) :
    (cx.value? l e).Gives fun e' => Expr.Scoped? l.bindings e' := by
  cases e with
  | none => exact .pure nofun
  | some e => exact (gives_value_scoped h).bind fun _ hr => .pure hr

theorem gives_effect_scoped {e : Expr} (h : e.Parsed) :
    (cx.effect l e).Gives fun e' => e'.Scoped l.bindings := by
  unfold effect
  dsimp only
  split
  · exact .behind fun _ => (gives_value_scoped h).bind fun _ hr => .pure hr
  · exact (gives_value_scoped h).bind fun _ hr => .pure hr

theorem gives_returned_scoped {pos : Pos} {e : Option Expr} (h : Expr.Parsed? e) :
    (cx.returned l pos e).Gives fun e' => Expr.Scoped? l.bindings e' := by
  unfold returned
  cases e with
  | none =>
      dsimp only
      split
      · exact .behind fun _ => .pure nofun
      · exact .pure nofun
  | some e =>
      refine (gives_value_scoped h).bind fun r hr => ?_
      dsimp only
      split
      · exact .behind fun _ => .pure hr
      · exact .behind fun _ => .pure hr

theorem gives_thrown_scoped {e : Expr} (h : e.Parsed) :
    (cx.thrown l e).Gives fun e' => e'.Scoped l.bindings :=
  (gives_value_scoped h).bind fun _ hr => .behind fun _ => .pure hr

theorem gives_lock_scoped {e : Expr} (h : e.Parsed) :
    (cx.lock l e).Gives fun e' => e'.Scoped l.bindings := by
  refine (gives_value_scoped h).bind fun r hr => ?_
  dsimp only
  split
  · exact .behind fun _ => .pure hr
  · exact .pure hr

end Gives

/-! ## Statements -/

theorem keeps_forInit_scoped (hns : cx.names.Steady) (init : ForInit)
    (hP : P → l.Known ∧ init.Parsed ∧ l.next ≤ slotLimit) :
    Keeps s P (cx.forInit l init) fun r _ => r.2.Scoped l.bindings ∧
      r.1.bindings = r.2.binds l.bindings ∧ l.Lays r.2.localVars r.1 := by
  cases init with
  | none => exact .pure fun h _ => ⟨trivial, rfl, .nil (hP h).2.2⟩
  | declare d => exact (keeps_localVar_scoped hns d hP).bind fun _ _ _ => .pure fun h _ => h.2
  | expr pos e =>
      refine ((keeps_effect hns e fun h => ⟨(hP h).1, (hP h).2.1⟩).gives
        fun h => gives_effect_scoped (hP h).2.1).bind fun _ _ _ => .pure fun h _ => ?_
      exact ⟨h.2.2, rfl, .nil (hP h.1).2.2⟩

mutual

/-- The names in a statement that is analysed without an error refer to the slots that they have, and
its variables have the slots from the next one on. -/
theorem keeps_stmt_scoped (hns : cx.names.Steady) : ∀ (st : Stmt) (l : Locals) {s : Session σ}
    {P : Prop}, (P → l.Known ∧ st.Parsed ∧ l.next ≤ slotLimit) →
      Keeps s P (cx.stmt l st) fun r _ => r.2.Scoped l.bindings ∧
        r.1.bindings = r.2.binds l.bindings ∧ l.Lays r.2.localVars r.1
  | .block pos body, l, _, _, hP => by
      unfold stmt
      refine (keeps_stmts_scoped hns body l [] hP).bind fun r _ _ => .pure fun h _ => ?_
      obtain ⟨body', hbody, hscoped, hlays⟩ := h.2
      rw [hbody]
      exact ⟨hscoped, rfl, hlays.leave _⟩
  | .declare d, l, _, _, hP => by
      unfold stmt
      exact (keeps_localVar_scoped hns d hP).bind fun _ _ _ => .pure fun h _ => h.2
  | .ifThen pos cond st, l, _, _, hP => by
      unfold stmt
      refine ((keeps_condition hns cond fun h => ⟨(hP h).1, (hP h).2.1.1⟩).gives
        fun h => gives_condition_scoped (hP h).2.1.1).bind fun cond' _ _ => ?_
      refine (keeps_adviseBody _ _).bind fun _ _ _ => ?_
      refine (keeps_stmt_scoped hns st l fun h => ⟨(hP h.1.1).1, (hP h.1.1).2.1.2,
        (hP h.1.1).2.2⟩).bind fun r _ _ => .pure fun h _ => ?_
      exact ⟨⟨h.1.1.2.2, h.2.1⟩, h.2.2⟩
  | .ifElse pos cond st st', l, _, _, hP => by
      unfold stmt
      refine ((keeps_condition hns cond fun h => ⟨(hP h).1, (hP h).2.1.1⟩).gives
        fun h => gives_condition_scoped (hP h).2.1.1).bind fun cond' _ _ => ?_
      refine (keeps_adviseBody _ _).bind fun _ _ _ => ?_
      refine ((keeps_stmt hns st l fun h => ⟨(hP h.1.1).1, (hP h.1.1).2.1.2.1⟩).and
        (keeps_stmt_scoped hns st l fun h => ⟨(hP h.1.1).1, (hP h.1.1).2.1.2.1,
          (hP h.1.1).2.2⟩)).bind fun r _ _ => ?_
      refine (keeps_stmt_scoped hns st' r.1 fun h => ⟨h.2.1.1, (hP h.1.1.1).2.1.2.2,
        h.2.2.2.2.bounded⟩).bind fun r' _ _ => .pure fun h _ => ?_
      obtain ⟨⟨⟨⟨-, -, hcond⟩, -⟩, -, hscoped, hbinds, hlays⟩, hscoped', hbinds', hlays'⟩ := h
      rw [hbinds] at hscoped' hbinds'
      exact ⟨⟨hcond, hscoped, hscoped'⟩, hbinds', hlays.append hlays'⟩
  | .whileLoop pos cond body, l, _, _, hP => by
      unfold stmt
      refine ((keeps_condition hns cond fun h => ⟨(hP h).1, (hP h).2.1.1⟩).gives
        fun h => gives_condition_scoped (hP h).2.1.1).bind fun cond' _ _ => ?_
      refine (keeps_adviseBody _ _).bind fun _ _ _ => ?_
      refine (keeps_stmt_scoped hns body l fun h => ⟨(hP h.1.1).1, (hP h.1.1).2.1.2,
        (hP h.1.1).2.2⟩).bind fun r _ _ => .pure fun h _ => ?_
      exact ⟨⟨h.1.1.2.2, h.2.1⟩, h.2.2⟩
  | .forLoop pos init cond update body, l, _, P, hP => by
      unfold stmt
      refine (keeps_requireFor pos).bind fun _ _ _ => ?_
      refine ((keeps_forInit hns init fun h => ⟨(hP h.1).1, (hP h.1).2.1.1⟩).and
        (keeps_forInit_scoped hns init fun h => ⟨(hP h.1).1, (hP h.1).2.1.1,
          (hP h.1).2.2⟩)).bind fun r _ _ => ?_
      refine ((keeps_condition? hns cond fun h => ⟨h.2.1.1, (hP h.1.1).2.1.2.1⟩).gives
        fun h => gives_condition?_scoped (hP h.1.1).2.1.2.1).bind fun cond' _ _ => ?_
      refine ((keeps_value? hns update fun h => ⟨h.1.2.1.1, (hP h.1.1.1).2.1.2.2.1⟩).gives
        fun h => gives_value?_scoped (hP h.1.1.1).2.1.2.2.1).bind fun update' _ _ => ?_
      refine (keeps_adviseBody _ _).bind fun _ _ _ => ?_
      refine (keeps_stmt_scoped hns body r.1 fun h => ⟨h.1.1.1.2.1.1,
        (hP h.1.1.1.1.1).2.1.2.2.2, h.1.1.1.2.2.2.2.bounded⟩).bind fun r' _ _ =>
          .pure fun h _ => ?_
      obtain ⟨⟨⟨⟨⟨-, -, hinit, hbinds, hlays⟩, -, hcond⟩, -, hupdate⟩, -⟩, hbody, -, hlays'⟩ := h
      rw [hbinds] at hcond hupdate hbody
      exact ⟨⟨hinit, hcond, hupdate, hbody⟩, rfl, (hlays.append hlays').leave _⟩
  | .ret pos value, l, _, _, hP => by
      unfold stmt
      refine ((keeps_returned hns pos value fun h => ⟨(hP h).1, (hP h).2.1⟩).gives
        fun h => gives_returned_scoped (hP h).2.1).bind fun _ _ _ => .pure fun h _ => ?_
      exact ⟨h.2.2, rfl, .nil (hP h.1).2.2⟩
  | .throw pos value, l, _, _, hP => by
      unfold stmt
      refine ((keeps_thrown hns value fun h => ⟨(hP h).1, (hP h).2.1⟩).gives
        fun h => gives_thrown_scoped (hP h).2.1).bind fun _ _ _ => .pure fun h _ => ?_
      exact ⟨h.2.2, rfl, .nil (hP h.1).2.2⟩
  | .synchronized pos locked bodyPos body, l, _, _, hP => by
      unfold stmt
      refine ((keeps_lock hns locked fun h => ⟨(hP h).1, (hP h).2.1.1⟩).gives
        fun h => gives_lock_scoped (hP h).2.1.1).bind fun locked' _ _ => ?_
      refine (keeps_stmts_scoped hns body l [] fun h => ⟨(hP h.1).1, (hP h.1).2.1.2,
        (hP h.1).2.2⟩).bind fun r _ _ => .pure fun h _ => ?_
      obtain ⟨body', hbody, hscoped, hlays⟩ := h.2
      rw [hbody]
      exact ⟨⟨h.1.2.2, hscoped⟩, rfl, hlays.leave _⟩
  | .expr pos value, l, _, _, hP => by
      unfold stmt
      refine ((keeps_effect hns value fun h => ⟨(hP h).1, (hP h).2.1⟩).gives
        fun h => gives_effect_scoped (hP h).2.1).bind fun _ _ _ => .pure fun h _ => ?_
      exact ⟨h.2.2, rfl, .nil (hP h.1).2.2⟩
  | .empty pos, l, _, _, hP => .pure fun h _ => ⟨trivial, rfl, .nil (hP h).2.2⟩

theorem keeps_stmts_scoped (hns : cx.names.Steady) : ∀ (ss : List Stmt) (l : Locals)
    (done : List Stmt) {s : Session σ} {P : Prop},
    (P → l.Known ∧ Stmt.AllParsed ss ∧ l.next ≤ slotLimit) →
      Keeps s P (cx.stmts l done ss) fun r _ => ∃ ss', r.2 = done.reverse ++ ss' ∧
        Stmt.AllScoped l.bindings ss' ∧ l.Lays (Stmt.allLocalVars ss') r.1
  | [], l, done, _, _, hP => .pure fun h _ =>
      ⟨[], (List.append_nil _).symm, trivial, .nil (hP h).2.2⟩
  | st :: rest, l, done, _, _, hP => by
      unfold stmts
      refine ((keeps_stmt hns st l fun h => ⟨(hP h).1, (hP h).2.1.1⟩).and
        (keeps_stmt_scoped hns st l fun h => ⟨(hP h).1, (hP h).2.1.1, (hP h).2.2⟩)).bind
          fun r _ _ => ?_
      refine (keeps_stmts_scoped hns rest r.1 (r.2 :: done) fun h => ⟨h.2.1.1, (hP h.1).2.1.2,
        h.2.2.2.2.bounded⟩).mono id fun r' _ h h' => ?_
      obtain ⟨ss', hss', hscoped, hlays⟩ := h'
      obtain ⟨-, hfirst, hbinds, hlays'⟩ := h.2
      refine ⟨r.2 :: ss', ?_, ⟨hfirst, hbinds ▸ hscoped⟩, hlays'.append hlays⟩
      rw [hss', List.reverse_cons, List.append_assoc, List.singleton_append]

end

end BodyScope

/-! ## Methods -/

/-- The first slot behind `this`. -/
def MethodDecl.firstSlot (m : MethodDecl) : Nat :=
  CodeM.firstSlot (m.modifiers.has .isStatic)

/-- The parameters of a method with their slots, last first. -/
def MethodDecl.bindings (m : MethodDecl) : Bindings :=
  ((m.params.zipIdx m.firstSlot).map fun p => (p.1.name.name, p.2)).reverse

theorem MethodDecl.firstSlot_le (m : MethodDecl) : m.firstSlot ≤ 1 := by
  unfold firstSlot CodeM.firstSlot
  split <;> decide

theorem MethodDecl.names_bindings (m : MethodDecl) :
    m.bindings.map Prod.fst = (m.params.map fun p => p.name.name).reverse := by
  rw [bindings, List.map_reverse, List.map_map]
  conv_rhs => rw [← List.zipIdx_map_fst m.firstSlot m.params, List.map_map]
  rfl

/-- Whether the names in a method refer to the slots that they have: its parameters have the first
slots behind `this` under different names, and its local variables those that follow. -/
structure MethodDecl.Scoped (m : MethodDecl) : Prop where
  distinct : (m.params.map fun p => p.name.name).Nodup
  body : Stmt.AllScoped m.bindings m.body.body
  slots : (Stmt.allLocalVars m.body.body).map LocalVar.slot =
    (List.range' (m.firstSlot + m.params.length) (Stmt.allLocalVars m.body.body).length).map some
  bounded : m.firstSlot + m.params.length + (Stmt.allLocalVars m.body.body).length ≤
    BodyScope.slotLimit

/-- Whether no name in the value of a field means a local variable. -/
def FieldDecl.Scoped (f : FieldDecl) : Prop :=
  Expr.Scoped? [] f.init

/-- Whether the names in a class, and in those in it, refer to the slots that they have. -/
def ClassDecl.Scoped (c : ClassDecl) : Prop :=
  c.Each FieldDecl.Scoped MethodDecl.Scoped

/-- Whether the names in a member of a class refer to the slots that they have. -/
def Member.Scoped (m : Member) : Prop :=
  m.Each FieldDecl.Scoped MethodDecl.Scoped

namespace NameScope

variable {σ : Type} {s : Session σ} {P : Prop} {ns : NameScope σ}

theorem keeps_analyseField_scoped (hns : ns.Steady) (sigs : List FieldSig) (f : FieldDecl)
    (hP : P → Expr.Parsed? f.init) :
    Keeps s P (ns.analyseField sigs f) fun f' _ => f'.Scoped := by
  unfold analyseField
  split
  · next hinit =>
      refine .pure fun _ _ => ?_
      rw [FieldDecl.Scoped, hinit]
      exact List.forall_mem_nil _
  · next e hinit =>
      have hparsed (h : P) : e.Parsed := by
        have hinit' := hP h
        rwa [hinit] at hinit'
      refine .bind (Keeps.gives
        (BodyScope.keeps_value hns e fun h => ⟨List.forall_mem_nil _, hparsed h⟩)
        fun h => BodyScope.gives_value_scoped (hparsed h)) fun r _ _ => ?_
      exact (keeps_requireAssignable hns _ _ _).bind fun _ _ _ => .pure fun h _ => h.1.2.2

/-- Parameters that are declared without an error have the slots from the next one on, under
different names. -/
theorem keeps_declareParams_next {cx : BodyScope σ} : ∀ (params : List (Param × Ty)) (l : Locals)
    {s : Session σ} {P : Prop},
    (P → l.next ≤ BodyScope.slotLimit ∧ (l.bindings.map Prod.fst).Nodup) →
      Keeps s P (declareParams cx l params) fun l' _ =>
        l'.vars = ((params.zipIdx l.next).map fun p =>
          ⟨p.1.1.name.name, p.1.2, p.2⟩).reverse ++ l.vars ∧
        l'.next = l.next + params.length ∧ l'.next ≤ BodyScope.slotLimit ∧
        (l'.bindings.map Prod.fst).Nodup
  | [], _, _, _, hP => .pure fun h _ => ⟨rfl, rfl, hP h⟩
  | (p, ty) :: rest, l, _, _, hP => by
      unfold declareParams
      refine (BodyScope.keeps_declare_next p.name ty fun h => (hP h).1).bind fun r _ _ => ?_
      refine (keeps_declareParams_next rest r.1 fun h => ?_).mono id fun l' _ h h' => ?_
      · obtain ⟨h, rfl, hfree, hbound⟩ := h
        exact ⟨hbound, List.nodup_cons.mpr ⟨hfree, (hP h).2⟩⟩
      · obtain ⟨-, rfl, -, -⟩ := h
        obtain ⟨hvars, hnext, hrest⟩ := h'
        refine ⟨?_, ?_, hrest⟩
        · rw [hvars, List.zipIdx_cons, List.map_cons, List.reverse_cons, List.append_assoc]
          rfl
        · rw [hnext, List.length_cons, Nat.add_right_comm, Nat.add_assoc]

/-- In a method that is analysed without an error every name refers to the slot that it has. -/
theorem keeps_analyseMethod_scoped (hns : ns.Steady) (sig : MethodSig) (m : MethodDecl)
    (hP : P → Stmt.AllParsed m.body.body ∧ (∀ p ∈ sig.params, p.Known) ∧
      sig.isStatic = m.modifiers.has .isStatic ∧ sig.params.length = m.params.length) :
    Keeps s P (ns.analyseMethod sig m) fun m' _ => m'.Scoped := by
  unfold analyseMethod
  dsimp only
  have hfirst (h : P) : (if sig.isStatic then 0 else 1) = m.firstSlot := by
    rw [(hP h).2.2.1]
    rfl
  generalize (if sig.isStatic then 0 else 1) = first at hfirst ⊢
  refine .bind (keeps_declareParams_next _ ⟨[], first⟩ fun h => ⟨?_, List.nodup_nil⟩)
    fun l _ _ => ?_
  · rw [hfirst h]
    exact Nat.le_trans m.firstSlot_le (by decide)
  refine .bind (BodyScope.keeps_stmts_scoped hns m.body.body l [] fun h => ⟨fun v hv => ?_,
    (hP h.1).1, h.2.2.2.1⟩) fun r _ _ => ?_
  · rw [h.2.1, List.append_nil, List.mem_reverse] at hv
    obtain ⟨p, hp, rfl⟩ := List.mem_map.mp hv
    exact (hP h.1).2.1 p.1.2 (List.of_mem_zip (List.fst_mem_of_mem_zipIdx hp)).2
  dsimp only
  split
  · exact .problem_bind fun _ => .pure fun h => h.elim
  · refine .pure fun h _ => ?_
    obtain ⟨⟨h, hvars, hnext, -, hnodup⟩, body, hbody, hscoped, hlays⟩ := h
    have hparams : (m.params.zip sig.params).map Prod.fst = m.params :=
      List.map_fst_zip (Nat.le_of_eq (hP h).2.2.2.symm)
    have hlength := congrArg List.length hparams
    rw [List.length_map] at hlength
    have hbindings : l.bindings = m.bindings := by
      rw [Locals.bindings, hvars, List.append_nil, List.map_reverse, List.map_map, hfirst h,
        MethodDecl.bindings]
      conv_rhs => rw [← hparams, List.zipIdx_map, List.map_map]
      rfl
    have hnames : (m.params.map fun p => p.name.name).Nodup := by
      rw [hbindings, m.names_bindings] at hnodup
      exact (List.pairwise_reverse.mp hnodup).imp Ne.symm
    rw [hfirst h, hlength] at hnext
    rw [List.reverse_nil, List.nil_append] at hbody
    subst hbody
    exact ⟨hnames, hbindings ▸ hscoped, hnext ▸ hlays.slots, hnext ▸ hlays.next ▸ hlays.bounded⟩

end NameScope

end ProbeLang
