import ProbeLang.Proofs.Analysis.Class
import ProbeLang.Proofs.Analysis.Resolution

/-!
# All that the analysis does to a session

Analysing code resolves names, loads classes with their superclasses and reports what is wrong. It
obeys every relation between sessions that the lookups of its scope obey, however it ends.
-/

namespace ProbeLang

open SessionM Session

variable {σ : Type} {s : Session σ} {R : Session σ → Session σ → Prop}
  {T : TaskFault → Session σ → Session σ → Prop}

namespace BodyScope

variable {cx : BodyScope σ}

theorem moves_packageProblem (hcx : cx.names.Within R T) (pos : Pos) (segments : List String) :
    Moves R T s (cx.packageProblem pos segments) fun _ _ => True := by
  unfold packageProblem
  split <;> exact hcx.problem _ _ _

variable [IsPreorder (Session σ) R]

/-! ## Names and fields -/

theorem moves_settle (hcx : cx.names.Within R T) (r : Operand × Expr) :
    Moves R T s (cx.settle r) fun _ _ => True := by
  obtain ⟨ty | cls | segments, e⟩ := r
  · exact .pure trivial
  · exact (hcx.problem _ _ _).bind fun _ _ _ _ => .pure trivial
  · exact (moves_packageProblem hcx _ _).bind fun _ _ _ _ => .pure trivial

theorem moves_findField (hcx : cx.names.Within R T) (cls name : String) :
    Moves R T s (cx.findField cls name) fun _ _ => True :=
  (hcx.chain cls).bind fun _ _ _ _ => .get (.pure trivial)

theorem moves_enclosingField (hcx : cx.names.Within R T) (pos : Pos) (name : String) :
    ∀ (classes : List String) (static : Bool) {s : Session σ},
      Moves R T s (cx.enclosingField pos name static classes) fun _ _ => True
  | [], _, _ => .pure trivial
  | cls :: outer, static, s => by
      unfold enclosingField
      refine (moves_findField hcx cls name).bind fun found _ _ _ => ?_
      cases found with
      | none => exact moves_enclosingField hcx pos name outer true
      | some found =>
          dsimp only
          split
          · exact (hcx.problem _ _ _).bind fun _ _ _ _ => .pure trivial
          · exact .pure trivial

theorem moves_nameOperand (hcx : cx.names.Within R T) (pos : Pos) (name : String) :
    Moves R T s (cx.nameOperand pos name) fun _ _ => True := by
  unfold nameOperand
  split
  · exact .pure trivial
  · refine (moves_enclosingField hcx pos name _ _).bind fun found _ _ _ => ?_
    cases found with
    | some found => exact .pure trivial
    | none =>
        refine (NameScope.moves_resolveSimple hcx name).bind fun found _ _ _ => ?_
        cases found with
        | some cls =>
            refine (hcx.of_quiet (NameScope.quiet_checkDeprecated cls pos)).bind fun _ _ _ _ => ?_
            exact .pure trivial
        | none => exact .pure trivial

theorem moves_memberOperand (hcx : cx.names.Within R T) (pos : Pos) (name : Ident) (o : Operand) :
    Moves R T s (cx.memberOperand pos name o) fun _ _ => True := by
  unfold memberOperand
  split
  · refine (moves_findField hcx _ _).bind fun found _ _ _ => ?_
    cases found with
    | some found => exact .pure trivial
    | none => exact (hcx.problem _ _ _).bind fun _ _ _ _ => .pure trivial
  · exact .pure trivial
  · split
    · exact .pure trivial
    · exact (hcx.problem _ _ _).bind fun _ _ _ _ => .pure trivial
  · refine (moves_findField hcx _ _).bind fun found _ _ _ => ?_
    cases found with
    | some found =>
        dsimp only
        split
        · exact (hcx.problem _ _ _).bind fun _ _ _ _ => .pure trivial
        · exact .pure trivial
    | none =>
        refine (NameScope.moves_memberType hcx _ _).bind fun found _ _ _ => ?_
        cases found with
        | some nested =>
            refine (hcx.of_quiet (NameScope.quiet_checkDeprecated _ _)).bind fun _ _ _ _ => ?_
            exact .pure trivial
        | none => exact (hcx.problem _ _ _).bind fun _ _ _ _ => .pure trivial
  · refine (hcx.knows _).bind fun _ _ _ _ => ?_
    split
    · refine (hcx.of_quiet (NameScope.quiet_checkDeprecated _ _)).bind fun _ _ _ _ => ?_
      exact .pure trivial
    · exact .pure trivial

/-! ## Calls -/

theorem moves_applicable (hcx : cx.names.Within R T) : ∀ (args params : List Ty) {s : Session σ},
    Moves R T s (cx.applicable args params) fun _ _ => True
  | [], [], _ => .pure trivial
  | a :: args, p :: params, _ => by
      unfold applicable
      refine (NameScope.moves_assignable hcx a p).bind fun _ _ _ _ => ?_
      split
      · exact moves_applicable hcx args params
      · exact .pure trivial
  | [], _ :: _, _ | _ :: _, [], _ => .pure trivial

theorem moves_select (hcx : cx.names.Within R T) (args : List Ty)
    (candidates : List (String × MethodSig)) :
    Moves R T s (cx.select args candidates) fun _ _ => True := by
  refine (Moves.findSomeM? (Q := fun _ _ => True) candidates fun p _ t => ?_).weaken
  obtain ⟨owner, m⟩ := p
  dsimp only
  split
  · refine (moves_applicable hcx args m.params).bind fun _ _ _ _ => ?_
    split <;> exact .pure fun _ _ => trivial
  · exact .pure fun _ _ => trivial

theorem moves_findMethods (hcx : cx.names.Within R T) (cls name : String) :
    Moves R T s (cx.findMethods cls name) fun _ _ => True :=
  (hcx.chain cls).bind fun _ _ _ _ => .get (.pure trivial)

theorem moves_callOn (hcx : cx.names.Within R T) (name : Ident) (args : List Ty) (cls : String)
    (static : Bool) : Moves R T s (cx.callOn name args cls static) fun _ _ => True := by
  unfold callOn
  refine (moves_findMethods hcx cls name.name).bind fun candidates _ _ _ => ?_
  split
  · exact (hcx.problem _ _ _).bind fun _ _ _ _ => .pure trivial
  · refine (moves_select hcx args candidates).bind fun found _ _ _ => ?_
    cases found with
    | none => exact (hcx.problem _ _ _).bind fun _ _ _ _ => .pure trivial
    | some found =>
        dsimp only
        split
        · exact (hcx.problem _ _ _).bind fun _ _ _ _ => .pure trivial
        · exact .pure trivial

theorem moves_callEnclosing (hcx : cx.names.Within R T) (name : Ident) (args : List Ty) :
    ∀ (classes : List String) (static : Bool) {s : Session σ},
      Moves R T s (cx.callEnclosing name args static classes) fun _ _ => True
  | [], _, _ => (hcx.problem _ _ _).bind fun _ _ _ _ => .pure trivial
  | cls :: outer, static, s => by
      unfold callEnclosing
      refine (moves_findMethods hcx cls name.name).bind fun _ _ _ _ => ?_
      split
      · exact moves_callEnclosing hcx name args outer true
      · exact moves_callOn hcx name args cls static

theorem moves_callOperand (hcx : cx.names.Within R T) (name : Ident) (args : List Ty)
    (r : Operand × Expr) : Moves R T s (cx.callOperand name args r) fun _ _ => True := by
  obtain ⟨ty | cls | segments, target⟩ := r
  · unfold callOperand
    dsimp only
    split
    · exact (moves_callOn hcx name args _ false).bind fun _ _ _ _ => .pure trivial
    · exact .pure trivial
    · exact (hcx.problem _ _ _).bind fun _ _ _ _ => .pure trivial
  · exact (moves_callOn hcx name args cls true).bind fun _ _ _ _ => .pure trivial
  · exact (moves_packageProblem hcx _ _).bind fun _ _ _ _ => .pure trivial

/-! ## Operators -/

theorem moves_unary (hcx : cx.names.Within R T) (pos : Pos) (op : UnaryOp) (ty : Ty) :
    Moves R T s (cx.unary pos op ty) fun _ _ => True := by
  unfold unary
  split
  · exact .pure trivial
  · exact .pure trivial
  · exact (hcx.problem _ _ _).bind fun _ _ _ _ => .pure trivial

theorem moves_comparable (hcx : cx.names.Within R T) (left right : Ty) :
    Moves R T s (cx.comparable left right) fun _ _ => True := by
  unfold comparable
  split
  · exact .pure trivial
  · split
    · refine (NameScope.moves_assignable hcx left right).bind fun _ _ _ _ => ?_
      split
      · exact .pure trivial
      · exact NameScope.moves_assignable hcx right left
    · exact .pure trivial

theorem moves_binary (hcx : cx.names.Within R T) (pos : Pos) (op : BinaryOp) (left right : Ty) :
    Moves R T s (cx.binary pos op left right) fun _ _ => True := by
  unfold binary
  split
  · exact .pure trivial
  · dsimp only
    cases binaryTy op left right with
    | none =>
        have hrest {s : Session σ} : Moves R T s (do
            cx.problem pos (.badOperands op left right)
            return Ty.unknown) fun _ _ => True :=
          (hcx.problem _ _ _).bind fun _ _ _ _ => .pure trivial
        dsimp only
        split
        · refine (moves_comparable hcx left right).bind fun _ _ _ _ => ?_
          split
          · exact (hcx.problem _ _ _).bind fun _ _ _ _ => hrest
          · exact hrest
        · exact hrest
    | some ty =>
        dsimp only
        split
        · refine (moves_comparable hcx left right).bind fun _ _ _ _ => ?_
          split
          · exact (hcx.problem _ _ _).bind fun _ _ _ _ => .pure trivial
          · exact .pure trivial
        · exact .pure trivial

theorem moves_requireIndex (hcx : cx.names.Within R T) (pos : Pos) (ty : Ty) :
    Moves R T s (cx.requireIndex pos ty) fun _ _ => True := by
  unfold requireIndex
  split
  · exact .pure trivial
  · exact .pure trivial
  · exact .pure trivial
  · exact hcx.problem _ _ _

theorem moves_elementTy (hcx : cx.names.Within R T) (pos : Pos) (ty : Ty) :
    Moves R T s (cx.elementTy pos ty) fun _ _ => True := by
  unfold elementTy
  split
  · exact .pure trivial
  · exact .pure trivial
  · exact (hcx.problem _ _ _).bind fun _ _ _ _ => .pure trivial

theorem moves_create (hcx : cx.names.Within R T) (pos : Pos) (type : TypeRef) (args : List Ty) :
    Moves R T s (cx.create pos type args) fun _ _ => True := by
  unfold create
  refine (NameScope.moves_resolveType hcx type).bind fun ty _ _ _ => ?_
  split
  · dsimp only
    split
    · exact .get ((hcx.problem _ _ _).bind fun _ _ _ _ => .pure trivial)
    · exact .pure trivial
  · exact .pure trivial

theorem moves_thisTy (hcx : cx.names.Within R T) (pos : Pos) :
    Moves R T s (cx.thisTy pos) fun _ _ => True := by
  unfold thisTy
  dsimp only
  split
  · exact (hcx.problem _ _ _).bind fun _ _ _ _ => .pure trivial
  · exact .pure trivial

/-! ## Expressions -/

mutual

theorem moves_operand (hcx : cx.names.Within R T) : ∀ (e : Expr) {s : Session σ},
    Moves R T s (cx.operand e) fun _ _ => True
  | .literal n v, _ => .pure trivial
  | .name n name, _ => (moves_nameOperand hcx n.pos name).bind fun _ _ _ _ => .pure trivial
  | .this n, _ => (moves_thisTy hcx n.pos).bind fun _ _ _ _ => .pure trivial
  | .field n target name, _ =>
      (moves_operand hcx target).bind fun _ _ _ _ =>
        (moves_memberOperand hcx _ name _).bind fun _ _ _ _ => .pure trivial
  | .call n name args, _ =>
      (moves_values hcx args).bind fun _ _ _ _ =>
        (moves_callEnclosing hcx name _ _ _).bind fun _ _ _ _ => .pure trivial
  | .invoke n target name args, _ =>
      (moves_values hcx args).bind fun _ _ _ _ =>
        (moves_operand hcx target).bind fun _ _ _ _ =>
          (moves_callOperand hcx name _ _).bind fun _ _ _ _ => .pure trivial
  | .new n type args, _ =>
      (moves_values hcx args).bind fun _ _ _ _ =>
        (moves_create hcx n.pos type _).bind fun _ _ _ _ => .pure trivial
  | .newArray n elem length, _ => by
      unfold operand
      refine (moves_operand hcx length).bind fun _ _ _ _ => ?_
      refine (moves_settle hcx _).bind fun _ _ _ _ => ?_
      refine (moves_requireIndex hcx _ _).bind fun _ _ _ _ => ?_
      refine (NameScope.moves_resolveType hcx elem).bind fun ty _ _ _ => ?_
      split <;> exact .pure trivial
  | .index n target i, _ =>
      (moves_operand hcx target).bind fun _ _ _ _ =>
        (moves_settle hcx _).bind fun _ _ _ _ =>
          (moves_operand hcx i).bind fun _ _ _ _ =>
            (moves_settle hcx _).bind fun _ _ _ _ =>
              (moves_requireIndex hcx _ _).bind fun _ _ _ _ =>
                (moves_elementTy hcx _ _).bind fun _ _ _ _ => .pure trivial
  | .unary n op e, _ =>
      (moves_operand hcx e).bind fun _ _ _ _ =>
        (moves_settle hcx _).bind fun _ _ _ _ =>
          (moves_unary hcx n.pos op _).bind fun _ _ _ _ => .pure trivial
  | .binary n op lhs rhs, _ =>
      (moves_operand hcx lhs).bind fun _ _ _ _ =>
        (moves_settle hcx _).bind fun _ _ _ _ =>
          (moves_operand hcx rhs).bind fun _ _ _ _ =>
            (moves_settle hcx _).bind fun _ _ _ _ =>
              (moves_binary hcx n.pos op _ _).bind fun _ _ _ _ => .pure trivial
  | .assign n target value, _ => by
      have hrest {s : Session σ} (ty : Ty) (target : Expr) : Moves R T s (do
          let (valueTy, value) ← cx.settle (← cx.operand value)
          cx.names.requireAssignable value.pos valueTy ty
          return (Operand.value ty, Expr.assign n target value)) fun _ _ => True :=
        (moves_operand hcx value).bind fun _ _ _ _ =>
          (moves_settle hcx _).bind fun _ _ _ _ =>
            (NameScope.moves_requireAssignable hcx _ _ _).bind fun _ _ _ _ => .pure trivial
      unfold operand
      refine (moves_operand hcx target).bind fun _ _ _ _ => ?_
      refine (moves_settle hcx _).bind fun _ _ _ _ => ?_
      dsimp only
      split
      · exact (hcx.problem _ _ _).bind fun _ _ _ _ => hrest _ _
      · exact hrest _ _

theorem moves_values (hcx : cx.names.Within R T) : ∀ (es : List Expr) {s : Session σ},
    Moves R T s (cx.values es) fun _ _ => True
  | [], _ => .pure trivial
  | e :: rest, _ =>
      (moves_operand hcx e).bind fun _ _ _ _ =>
        (moves_settle hcx _).bind fun _ _ _ _ =>
          (moves_values hcx rest).bind fun _ _ _ _ => .pure trivial

end

theorem moves_value (hcx : cx.names.Within R T) (e : Expr) :
    Moves R T s (cx.value e) fun _ _ => True :=
  (moves_operand hcx e).bind fun r _ _ _ => moves_settle hcx r

/-! ## Statements -/

theorem moves_valueWith (hcx : cx.names.Within R T) (l : Locals) (e : Expr) :
    Moves R T s ((cx.withLocals l).value e) fun _ _ => True := by
  have hinner : (cx.withLocals l).names.Within R T := hcx
  exact moves_value hinner e

theorem moves_declare (hcx : cx.names.Within R T) (l : Locals) (name : Ident) (ty : Ty) :
    Moves R T s (cx.declare l name ty) fun _ _ => True := by
  have hrest {s : Session σ} : Moves R T s (do
      if l.next = slotLimit then
        cx.problem name.pos (.tooManyLocals cx.label)
      let slot := min l.next slotLimit
      return (⟨⟨name.name, ty, slot⟩ :: l.vars, l.next + 1⟩, slot) : SessionM σ (Locals × Nat))
      fun _ _ => True := by
    split
    · exact (hcx.problem _ _ _).bind fun _ _ _ _ => .pure trivial
    · exact .pure trivial
  unfold declare
  dsimp only
  split
  · exact (hcx.problem _ _ _).bind fun _ _ _ _ => hrest
  · exact hrest

theorem moves_localVar (hcx : cx.names.Within R T) (l : Locals) (d : LocalVar) :
    Moves R T s (cx.localVar l d) fun _ _ => True := by
  unfold localVar
  refine (NameScope.moves_resolveType hcx d.type).bind fun ty _ _ _ => ?_
  have hrest {s : Session σ} (init : Option Expr) : Moves R T s (do
      let r ← cx.declare l d.name ty
      return (r.1, { d with init, slot := some r.2 })) fun _ _ => True :=
    (moves_declare hcx l d.name ty).bind fun _ _ _ _ => .pure trivial
  dsimp only
  split
  · exact hrest none
  · refine (moves_valueWith hcx l _).bind fun r _ _ _ => ?_
    exact (NameScope.moves_requireAssignable hcx _ _ _).bind fun _ _ _ _ => hrest (some r.2)

theorem moves_condition (hcx : cx.names.Within R T) (l : Locals) (e : Expr) :
    Moves R T s (cx.condition l e) fun _ _ => True :=
  (moves_valueWith hcx l e).bind fun _ _ _ _ =>
    (NameScope.moves_requireAssignable hcx _ _ _).bind fun _ _ _ _ => .pure trivial

theorem moves_condition? (hcx : cx.names.Within R T) (l : Locals) (e : Option Expr) :
    Moves R T s (cx.condition? l e) fun _ _ => True := by
  cases e with
  | none => exact .pure trivial
  | some e => exact (moves_condition hcx l e).bind fun _ _ _ _ => .pure trivial

theorem moves_value? (hcx : cx.names.Within R T) (l : Locals) (e : Option Expr) :
    Moves R T s (cx.value? l e) fun _ _ => True := by
  cases e with
  | none => exact .pure trivial
  | some e =>
      exact (moves_valueWith hcx l e).bind fun _ _ _ _ => .pure trivial

theorem moves_effect (hcx : cx.names.Within R T) (l : Locals) (e : Expr) :
    Moves R T s (cx.effect l e) fun _ _ => True := by
  have hrest {s : Session σ} : Moves R T s (do
      return (← (cx.withLocals l).value e).2 : SessionM σ Expr) fun _ _ => True :=
    (moves_valueWith hcx l e).bind fun _ _ _ _ => .pure trivial
  unfold effect
  dsimp only
  split
  · exact (hcx.problem _ _ _).bind fun _ _ _ _ => hrest
  · exact hrest

theorem moves_forInit (hcx : cx.names.Within R T) (l : Locals) (init : ForInit) :
    Moves R T s (cx.forInit l init) fun _ _ => True := by
  cases init with
  | none => exact .pure trivial
  | declare d => exact (moves_localVar hcx l d).bind fun _ _ _ _ => .pure trivial
  | expr pos e => exact (moves_effect hcx l e).bind fun _ _ _ _ => .pure trivial

theorem moves_adviseBody (hcx : cx.names.Within R T) (keyword : String) (body : Stmt) :
    Moves R T s (cx.adviseBody keyword body) fun _ _ => True := by
  unfold adviseBody
  split
  · refine .get ?_
    split
    · exact hcx.of_quiet (quiet_advise _ _ _)
    · exact .pure trivial
  · exact .pure trivial

theorem moves_requireFor (hcx : cx.names.Within R T) (pos : Pos) :
    Moves R T s (cx.requireFor pos) fun _ _ => True := by
  refine .get ?_
  dsimp only
  split
  · exact hcx.problem _ _ _
  · exact .pure trivial

theorem moves_returned (hcx : cx.names.Within R T) (l : Locals) (pos : Pos) (e : Option Expr) :
    Moves R T s (cx.returned l pos e) fun _ _ => True := by
  cases e with
  | none =>
      unfold returned
      dsimp only
      split
      · exact (hcx.problem _ _ _).bind fun _ _ _ _ => .pure trivial
      · exact .pure trivial
  | some e =>
      refine (moves_valueWith hcx l e).bind fun _ _ _ _ => ?_
      dsimp only
      split
      · exact (hcx.problem _ _ _).bind fun _ _ _ _ => .pure trivial
      · exact (NameScope.moves_requireAssignable hcx _ _ _).bind fun _ _ _ _ => .pure trivial

theorem moves_thrown (hcx : cx.names.Within R T) (l : Locals) (e : Expr) :
    Moves R T s (cx.thrown l e) fun _ _ => True :=
  (moves_valueWith hcx l e).bind fun _ _ _ _ =>
    (NameScope.moves_requireAssignable hcx _ _ _).bind fun _ _ _ _ => .pure trivial

theorem moves_lock (hcx : cx.names.Within R T) (l : Locals) (e : Expr) :
    Moves R T s (cx.lock l e) fun _ _ => True := by
  refine (moves_valueWith hcx l e).bind fun _ _ _ _ => ?_
  dsimp only
  split
  · exact (hcx.problem _ _ _).bind fun _ _ _ _ => .pure trivial
  · exact .pure trivial

mutual

theorem moves_stmt (hcx : cx.names.Within R T) : ∀ (st : Stmt) (l : Locals) {s : Session σ},
    Moves R T s (cx.stmt l st) fun _ _ => True
  | .block _ body, l, _ => (moves_stmts hcx body l []).bind fun _ _ _ _ => .pure trivial
  | .declare d, l, _ => (moves_localVar hcx l d).bind fun _ _ _ _ => .pure trivial
  | .ifThen _ cond st, l, _ =>
      (moves_condition hcx l cond).bind fun _ _ _ _ =>
        (moves_adviseBody hcx _ _).bind fun _ _ _ _ =>
          (moves_stmt hcx st l).bind fun _ _ _ _ => .pure trivial
  | .ifElse _ cond st st', l, _ =>
      (moves_condition hcx l cond).bind fun _ _ _ _ =>
        (moves_adviseBody hcx _ _).bind fun _ _ _ _ =>
          (moves_stmt hcx st l).bind fun _ _ _ _ =>
            (moves_stmt hcx st' _).bind fun _ _ _ _ => .pure trivial
  | .whileLoop _ cond body, l, _ =>
      (moves_condition hcx l cond).bind fun _ _ _ _ =>
        (moves_adviseBody hcx _ _).bind fun _ _ _ _ =>
          (moves_stmt hcx body l).bind fun _ _ _ _ => .pure trivial
  | .forLoop pos init cond update body, l, _ =>
      (moves_requireFor hcx pos).bind fun _ _ _ _ =>
        (moves_forInit hcx l init).bind fun _ _ _ _ =>
          (moves_condition? hcx _ cond).bind fun _ _ _ _ =>
            (moves_value? hcx _ update).bind fun _ _ _ _ =>
              (moves_adviseBody hcx _ _).bind fun _ _ _ _ =>
                (moves_stmt hcx body _).bind fun _ _ _ _ => .pure trivial
  | .ret pos value, l, _ => (moves_returned hcx l pos value).bind fun _ _ _ _ => .pure trivial
  | .throw _ value, l, _ => (moves_thrown hcx l value).bind fun _ _ _ _ => .pure trivial
  | .synchronized _ lock _ body, l, _ =>
      (moves_lock hcx l lock).bind fun _ _ _ _ =>
        (moves_stmts hcx body l []).bind fun _ _ _ _ => .pure trivial
  | .expr _ value, l, _ => (moves_effect hcx l value).bind fun _ _ _ _ => .pure trivial
  | .empty _, _, _ => .pure trivial

theorem moves_stmts (hcx : cx.names.Within R T) : ∀ (ss : List Stmt) (l : Locals)
    (done : List Stmt) {s : Session σ}, Moves R T s (cx.stmts l done ss) fun _ _ => True
  | [], _, _, _ => .pure trivial
  | st :: rest, l, _, _ =>
      (moves_stmt hcx st l).bind fun _ _ _ _ => moves_stmts hcx rest _ _

end

end BodyScope

/-! ## Classes -/

variable [IsPreorder (Session σ) R]

namespace NameScope

variable {ns : NameScope σ}

theorem moves_analyseField (hns : ns.Within R T) (sigs : List FieldSig) (f : FieldDecl) :
    Moves R T s (ns.analyseField sigs f) fun _ _ => True := by
  unfold analyseField
  split
  · exact .pure trivial
  · refine (BodyScope.moves_value hns _).bind fun _ _ _ _ => ?_
    exact (moves_requireAssignable hns _ _ _).bind fun _ _ _ _ => .pure trivial

theorem moves_declareParams {cx : BodyScope σ} (hcx : cx.names.Within R T) :
    ∀ (params : List (Param × Ty)) (l : Locals) {s : Session σ},
      Moves R T s (declareParams cx l params) fun _ _ => True
  | [], _, _ => .pure trivial
  | (p, ty) :: rest, l, _ =>
      (BodyScope.moves_declare hcx l p.name ty).bind fun _ _ _ _ => moves_declareParams hcx rest _

theorem moves_analyseMethod (hns : ns.Within R T) (sig : MethodSig) (m : MethodDecl) :
    Moves R T s (ns.analyseMethod sig m) fun _ _ => True := by
  unfold analyseMethod
  refine (moves_declareParams hns _ _).bind fun _ _ _ _ => ?_
  refine (BodyScope.moves_stmts hns _ _ _).bind fun _ _ _ _ => ?_
  dsimp only
  split
  · exact (hns.problem _ _ _).bind fun _ _ _ _ => .pure trivial
  · exact .pure trivial

theorem moves_checkImports (hns : ns.Within R T) : ∀ (imports : List Import) {s : Session σ},
    Moves R T s (ns.checkImports imports) fun _ _ => True
  | [], _ => .pure trivial
  | i :: rest, s => by
      unfold checkImports
      dsimp only
      split
      · refine (moves_lookupQualified hns _).bind fun _ _ _ _ => ?_
        split
        · exact (hns.problem _ _ _).bind fun _ _ _ _ => moves_checkImports hns rest
        · exact moves_checkImports hns rest
      · exact moves_checkImports hns rest

end NameScope

namespace SessionM

mutual

theorem moves_analyseClass : ∀ (c : ClassDecl) (ns : NameScope σ) (s : Session σ) (unit : Nat)
    (place : List Nat) (cls : String), Lookups R T → ns.Within R T →
    Moves R T s (analyseClass ns unit place cls c) fun c' _ => c'.name = c.name
  | ⟨name, modifiers, superclass, members, pos⟩, ns, s, unit, place, cls, h, hns => by
      have hinner : NameScope.Within { ns with classes := cls :: ns.classes } R T :=
        ⟨hns.toSearches, hns.chain⟩
      unfold analyseClass
      refine (moves_complete h hns.chain cls).bind fun _ t _ _ => .get ?_
      dsimp only
      exact (moves_analyseMembers members _ t unit place cls _ _ 0 [] h hinner).bind
        fun _ _ _ _ => .pure rfl

theorem moves_analyseMembers : ∀ (members : List Member) (ns : NameScope σ) (s : Session σ)
    (unit : Nat) (place : List Nat) (cls : String) (fields : List FieldSig)
    (methods : List MethodSig) (i : Nat) (done : List Member), Lookups R T → ns.Within R T →
    Moves R T s (analyseMembers ns unit place cls fields methods i done members) fun _ _ => True
  | [], ns, s, unit, place, cls, fields, methods, i, done, _, _ => .pure trivial
  | .field f :: rest, ns, s, unit, place, cls, fields, methods, i, done, h, hns => by
      unfold analyseMembers
      refine (NameScope.moves_analyseField hns fields f).bind fun _ t _ _ => ?_
      exact moves_analyseMembers rest ns t unit place cls fields methods (i + 1) _ h hns
  | .method m :: rest, ns, s, unit, place, cls, fields, methods, i, done, h, hns => by
      unfold analyseMembers
      have hrest (s : Session σ) (m : MethodDecl) := moves_analyseMembers rest ns s unit place cls
        fields methods.tail (i + 1) (.method m :: done) h hns
      split
      · exact (NameScope.moves_analyseMethod hns _ m).bind fun m t _ _ => hrest t m
      · exact hrest s m
  | .type decl :: rest, ns, s, unit, place, cls, fields, methods, i, done, h, hns => by
      unfold analyseMembers
      refine Moves.bind (Q := fun _ _ => True) (.get (.pure trivial)) fun owned t _ _ => ?_
      have hrest (s : Session σ) (decl : ClassDecl) := moves_analyseMembers rest ns s unit place cls
        fields methods (i + 1) (.type decl :: done) h hns
      dsimp only
      split
      · refine (moves_analyseClass decl ns t unit (place ++ [i]) _ h hns).bind
          fun decl u _ _ => hrest u decl
      · exact hrest t decl

end

/-- Analysing a top-level class, but for the replacement of its tree, obeys all that looking for
classes and completing them obey. The class keeps its name. -/
theorem moves_analyseDecl (h : Lookups R T) {bound unit number : Nat} {tree : UnitTree}
    {decl : ClassDecl} :
    Moves R T s (analyseDecl bound unit number tree decl) fun r _ =>
      ∀ decl', r = some decl' → decl'.name = decl.name := by
  have hns := NameScope.Within.ofTree h bound tree []
  have hclass {s : Session σ} : Moves R T s (do
      if ← owns unit [number] (tree.binaryName decl) then
        return some (← analyseClass (NameScope.ofTree (loadChain bound bound) tree []) unit [number]
          (tree.binaryName decl) decl)
      else return none) fun r _ => ∀ decl', r = some decl' → decl'.name = decl.name := by
    refine Moves.bind (Q := fun _ _ => True) (.get (.pure trivial)) fun owned t _ _ => ?_
    split
    · refine (moves_analyseClass decl _ t unit _ _ h hns).bind fun c _ _ hname => .pure ?_
      rintro decl' ⟨⟩
      exact hname
    · exact .pure fun _ h => by cases h
  unfold analyseDecl
  dsimp only
  split
  · exact (NameScope.moves_checkImports hns tree.imports).bind fun _ _ _ _ => hclass
  · exact hclass

end SessionM

end ProbeLang
