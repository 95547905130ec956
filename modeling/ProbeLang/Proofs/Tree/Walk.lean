import Mathlib.Data.List.Basic
import ProbeLang.Tree.Walk

/-!
# What a walk visits

An expression comes before its operands when a tree is walked, and what is in its operands is all
that comes after it.

Every part of a class is made of further parts (`TreePart.children`), and a place in it is named by
the numbers of the children that lead there. A visitor is at each hook given a walk that visits the
children one after another (`Visitor.visit_eq`). So a visitor that goes on with the walk wherever it
comes visits every place below the class once, in the order of the source (`Visitor.walk_each`).
-/

namespace ProbeLang

/-! ## Operands -/

namespace Expr

/-- The expressions that an expression is made of. -/
def operands : Expr → List Expr
  | .literal .. | .name .. | .this _ => []
  | .field _ target _ => [target]
  | .call _ _ args => args
  | .invoke _ target _ args => target :: args
  | .new _ _ args => args
  | .newArray _ _ length => [length]
  | .index _ target i => [target, i]
  | .unary _ _ operand => [operand]
  | .binary _ _ lhs rhs => [lhs, rhs]
  | .assign _ target value => [target, value]

theorem preorder_eq (e : Expr) : e.preorder = e :: preorderAll e.operands := by
  cases e <;> simp [preorder, preorderAll, operands]

theorem mem_preorder_self (e : Expr) : e ∈ e.preorder := by
  rw [preorder_eq]
  exact List.mem_cons_self

theorem mem_preorderAll : ∀ {es : List Expr} {x : Expr},
    x ∈ preorderAll es ↔ ∃ e ∈ es, x ∈ e.preorder
  | [], x => by simp [preorderAll]
  | e :: es, x => by
      rw [preorderAll, List.mem_append, mem_preorderAll]
      simp

theorem mem_preorder_of_operand {e x y : Expr} (hx : x ∈ e.operands) (hy : y ∈ x.preorder) :
    y ∈ e.preorder := by
  rw [preorder_eq]
  exact List.mem_cons_of_mem _ (mem_preorderAll.mpr ⟨x, hx, hy⟩)

end Expr

/-! ## Parts -/

/-- A part of a tree for which a visitor has a hook. -/
inductive TreePart
  | cls (decl : ClassDecl)
  | field (decl : FieldDecl)
  | method (decl : MethodDecl)
  | stmt (s : Stmt)
  | expr (e : Expr)

/-- A member as a part. -/
def Member.part : Member → TreePart
  | .field f => .field f
  | .method m => .method m
  | .type decl => .cls decl

/-- The statement in the first part of a `for` header. -/
def ForInit.stmt? : ForInit → Option Stmt
  | .none => Option.none
  | .declare d => some (.declare d)
  | .expr pos e => some (.expr pos e)

/-- The parts that a statement is made of. -/
def Stmt.parts : Stmt → List TreePart
  | .block _ body => body.map .stmt
  | .declare d => d.init.toList.map .expr
  | .ifThen _ cond t => [.expr cond, .stmt t]
  | .ifElse _ cond t e => [.expr cond, .stmt t, .stmt e]
  | .whileLoop _ cond body => [.expr cond, .stmt body]
  | .forLoop _ init cond update body =>
      init.stmt?.toList.map .stmt ++ cond.toList.map .expr ++ update.toList.map .expr ++ [.stmt body]
  | .ret _ value => value.toList.map .expr
  | .throw _ value | .expr _ value => [.expr value]
  | .synchronized _ lock _ body => .expr lock :: body.map .stmt
  | .empty _ => []

namespace TreePart

/-- The parts that a part is made of, in the order in which they are written. -/
def children : TreePart → List TreePart
  | .cls c => c.members.map Member.part
  | .field f => f.init.toList.map .expr
  | .method m => m.body.body.map .stmt
  | .stmt s => s.parts
  | .expr e => e.operands.map .expr

section

variable {u : TreePart}

theorem sizeOf_optional {x : Option Expr} (h : u ∈ x.toList.map expr) :
    sizeOf u < 1 + sizeOf x := by
  obtain ⟨e, he, rfl⟩ := List.mem_map.mp h
  cases x with
  | none => cases he
  | some y =>
      obtain rfl := List.mem_singleton.mp he
      simp only [expr.sizeOf_spec, Option.some.sizeOf_spec]
      omega

theorem sizeOf_body {body : List Stmt} (h : u ∈ body.map stmt) : sizeOf u < 1 + sizeOf body := by
  obtain ⟨s, hs, rfl⟩ := List.mem_map.mp h
  exact Nat.add_lt_add_left (List.sizeOf_lt_of_mem hs) 1

theorem sizeOf_member {c : ClassDecl} (h : u ∈ c.members.map Member.part) :
    sizeOf u < 1 + sizeOf c := by
  obtain ⟨m, hm, rfl⟩ := List.mem_map.mp h
  have hlt : sizeOf m < sizeOf c.members := List.sizeOf_lt_of_mem hm
  cases c
  cases m <;> simp [Member.part] at hlt ⊢ <;> omega

theorem sizeOf_part {s : Stmt} (h : u ∈ s.parts) : sizeOf u < 1 + sizeOf s := by
  cases s with
  | block pos body =>
      have := sizeOf_body h
      simp only [Stmt.block.sizeOf_spec]
      omega
  | declare d =>
      obtain ⟨_, _, _, init, _⟩ := d
      have : sizeOf u < 1 + sizeOf init := sizeOf_optional h
      simp only [Stmt.declare.sizeOf_spec, LocalVar.mk.sizeOf_spec]
      omega
  | ifThen pos cond t | whileLoop pos cond t =>
      simp only [Stmt.parts, List.mem_cons, List.not_mem_nil, or_false] at h
      simp only [Stmt.ifThen.sizeOf_spec, Stmt.whileLoop.sizeOf_spec]
      rcases h with rfl | rfl
      all_goals simp only [expr.sizeOf_spec, stmt.sizeOf_spec]; omega
  | ifElse pos cond t e =>
      simp only [Stmt.parts, List.mem_cons, List.not_mem_nil, or_false] at h
      simp only [Stmt.ifElse.sizeOf_spec]
      rcases h with rfl | rfl | rfl
      all_goals simp only [expr.sizeOf_spec, stmt.sizeOf_spec]; omega
  | forLoop pos init cond update body =>
      have hinit (hu : u ∈ init.stmt?.toList.map stmt) : sizeOf u < 2 + sizeOf init := by
        cases init with
        | none => cases hu
        | declare d | expr pos e =>
            obtain rfl := List.mem_singleton.mp hu
            simp
      simp only [Stmt.parts, List.mem_append, List.mem_singleton] at h
      simp only [Stmt.forLoop.sizeOf_spec]
      rcases h with ((h | h) | h) | rfl
      · have := hinit h
        omega
      · have := sizeOf_optional h
        omega
      · have := sizeOf_optional h
        omega
      · simp only [stmt.sizeOf_spec]
        omega
  | ret pos value =>
      have := sizeOf_optional h
      simp only [Stmt.ret.sizeOf_spec]
      omega
  | throw pos value | expr pos value =>
      obtain rfl := List.mem_singleton.mp h
      simp only [expr.sizeOf_spec, Stmt.throw.sizeOf_spec, Stmt.expr.sizeOf_spec]
      omega
  | synchronized pos lock bodyPos body =>
      simp only [Stmt.synchronized.sizeOf_spec]
      rcases List.mem_cons.mp h with rfl | h
      · simp only [expr.sizeOf_spec]
        omega
      · have := sizeOf_body h
        omega
  | empty pos => cases h

theorem sizeOf_operand {e x : Expr} (h : x ∈ e.operands) : sizeOf x < sizeOf e := by
  cases e with
  | literal | name | this => cases h
  | call n name args | new n type args =>
      have : sizeOf x < sizeOf args := List.sizeOf_lt_of_mem h
      simp only [Expr.call.sizeOf_spec, Expr.new.sizeOf_spec]
      omega
  | invoke n target name args =>
      simp only [Expr.invoke.sizeOf_spec]
      rcases List.mem_cons.mp h with rfl | h
      · omega
      · have := List.sizeOf_lt_of_mem h
        omega
  | field | newArray | unary =>
      obtain rfl := List.mem_singleton.mp h
      simp only [Expr.field.sizeOf_spec, Expr.newArray.sizeOf_spec, Expr.unary.sizeOf_spec]
      omega
  | index | binary | assign =>
      simp only [Expr.operands, List.mem_cons, List.not_mem_nil, or_false] at h
      simp only [Expr.index.sizeOf_spec, Expr.binary.sizeOf_spec, Expr.assign.sizeOf_spec]
      rcases h with rfl | rfl
      all_goals omega

end

theorem sizeOf_children {t u : TreePart} (h : u ∈ t.children) : sizeOf u < sizeOf t := by
  cases t with
  | cls c => exact sizeOf_member h
  | field f =>
      have := sizeOf_optional h
      cases f
      simp at this ⊢
      omega
  | method m =>
      have := sizeOf_body h
      obtain ⟨_, _, _, _, ⟨_, _⟩, _⟩ := m
      simp at this ⊢
      omega
  | stmt s => exact sizeOf_part h
  | expr e =>
      obtain ⟨x, hx, rfl⟩ := List.mem_map.mp h
      exact Nat.add_lt_add_left (sizeOf_operand hx) 1

/-- What holds of a part if it holds of its children holds of every part. -/
theorem induct {P : TreePart → Prop} (step : ∀ t : TreePart, (∀ u ∈ t.children, P u) → P t)
    (t : TreePart) : P t :=
  step t fun u _ => induct step u
termination_by sizeOf t
decreasing_by exact sizeOf_children ‹_›

/-! ## Places -/

/-- The part at a place, which is given by the numbers of the children that lead there. -/
def at? : TreePart → List Nat → Option TreePart
  | t, [] => some t
  | t, i :: rest => t.children[i]?.bind fun u => u.at? rest

/-- A part and the parts in it with their places: a part before its children, and these in their
order. -/
def preorder (t : TreePart) : List (List Nat × TreePart) :=
  ([], t) :: (t.children.attach.mapIdx fun i u => u.1.preorder.map (Prod.map (i :: ·) id)).flatten
termination_by sizeOf t
decreasing_by exact sizeOf_children u.2

/-- The parts in a part with their places. -/
def below (t : TreePart) : List (List Nat × TreePart) :=
  (t.children.mapIdx fun i u => u.preorder.map (Prod.map (i :: ·) id)).flatten

theorem preorder_eq (t : TreePart) : t.preorder = ([], t) :: t.below := by
  rw [preorder, below]
  congr 2
  exact List.ext_getElem (by simp) fun i _ _ => by simp

theorem mem_below {t u : TreePart} {path : List Nat} :
    (path, u) ∈ t.below ↔ ∃ i rest x, path = i :: rest ∧ t.children[i]? = some x ∧
      (rest, u) ∈ x.preorder := by
  simp only [below, List.mem_flatten, List.mem_mapIdx]
  constructor
  · rintro ⟨_, ⟨i, hi, rfl⟩, hmem⟩
    obtain ⟨⟨rest, x⟩, hx, heq⟩ := List.mem_map.mp hmem
    cases heq
    exact ⟨i, rest, _, rfl, List.getElem?_eq_getElem hi, hx⟩
  · rintro ⟨i, rest, x, rfl, hx, hmem⟩
    obtain ⟨hi, rfl⟩ := List.getElem?_eq_some_iff.mp hx
    exact ⟨_, ⟨i, hi, rfl⟩, List.mem_map.mpr ⟨_, hmem, rfl⟩⟩

/-- The places of a part and of all in it are those that lead somewhere. -/
theorem mem_preorder {t u : TreePart} {path : List Nat} :
    (path, u) ∈ t.preorder ↔ t.at? path = some u := by
  rw [preorder_eq, List.mem_cons, mem_below]
  induction path generalizing t with
  | nil => simp [at?, eq_comm]
  | cons i rest ih =>
      constructor
      · rintro (heq | ⟨i, rest, x, heq, hx, hmem⟩)
        · cases heq
        · cases heq
          rw [preorder_eq, List.mem_cons, mem_below, ih] at hmem
          rw [at?, hx, Option.bind_some, hmem]
      · intro h
        obtain ⟨x, hx, hat⟩ := Option.bind_eq_some_iff.mp h
        refine .inr ⟨i, rest, x, rfl, hx, ?_⟩
        rw [preorder_eq, List.mem_cons, mem_below]
        exact ih.mpr hat

/-- The places below a part are those that lead away from it. -/
theorem mem_below_iff_at? {t u : TreePart} {path : List Nat} :
    (path, u) ∈ t.below ↔ path ≠ [] ∧ t.at? path = some u := by
  rw [← mem_preorder, preorder_eq, List.mem_cons]
  constructor
  · intro h
    obtain ⟨_, _, _, rfl, -⟩ := mem_below.mp h
    exact ⟨List.cons_ne_nil _ _, .inr h⟩
  · rintro ⟨hne, hmem⟩
    exact hmem.resolve_left fun heq => hne (congrArg Prod.fst heq)

/-- The places come in the order of the source. -/
theorem preorder_sorted (t : TreePart) :
    t.preorder.Pairwise fun a b => List.Lex (· < ·) a.1 b.1 := by
  induction t using induct with
  | step t ih =>
      rw [preorder_eq, List.pairwise_cons, below, List.pairwise_flatten]
      refine ⟨fun ⟨path, u⟩ h => ?_, fun walk hwalk => ?_, List.pairwise_iff_getElem.mpr ?_⟩
      · obtain ⟨_, _, _, rfl, -⟩ := mem_below.mp h
        exact .nil
      · obtain ⟨i, hi, rfl⟩ := List.mem_mapIdx.mp hwalk
        exact List.pairwise_map.mpr ((ih _ (List.getElem_mem hi)).imp .cons)
      · intro i j hi hj hij a ha b hb
        rw [List.getElem_mapIdx] at ha hb
        obtain ⟨_, -, rfl⟩ := List.mem_map.mp ha
        obtain ⟨_, -, rfl⟩ := List.mem_map.mp hb
        exact .rel hij

theorem below_sorted (t : TreePart) :
    t.below.Pairwise fun a b => List.Lex (· < ·) a.1 b.1 := by
  have h := t.preorder_sorted
  rw [preorder_eq] at h
  exact (List.pairwise_cons.mp h).2

/-- A part and all parts in it. -/
def parts (t : TreePart) : List TreePart :=
  t.preorder.map Prod.snd

theorem map_below (t : TreePart) : t.below.map Prod.snd = t.children.flatMap parts := by
  rw [below, List.map_flatten, List.flatMap_def]
  congr 1
  exact List.ext_getElem (by simp) fun i _ _ => by simp [parts]

theorem parts_eq (t : TreePart) : t.parts = t :: t.children.flatMap parts := by
  rw [parts, preorder_eq, List.map_cons, map_below]

end TreePart

/-! ## Visitors -/

namespace Visitor

variable {σ : Type} (v : Visitor σ)

/-- The hook for a part. -/
def hook : TreePart → (σ → σ) → σ → σ
  | .cls c => v.cls c
  | .field f => v.field f
  | .method m => v.method m
  | .stmt s => v.stmt s
  | .expr e => v.expr e

/-- The walk through a part. -/
def walk : TreePart → σ → σ
  | .cls c => v.walkClass c
  | .field f => v.visitExpr? f.init
  | .method m => v.visitStmts m.body.body
  | .stmt s => v.walkStmt s
  | .expr e => v.walkExpr e

/-- Visit a part. -/
def visit (t : TreePart) : σ → σ :=
  v.hook t (v.walk t)

theorem visitExprs_eq : ∀ (es : List Expr) (s : σ),
    v.visitExprs es s = (es.map TreePart.expr).foldl (fun s u => v.visit u s) s
  | [], _ => rfl
  | _ :: rest, _ => visitExprs_eq rest _

theorem visitStmts_eq : ∀ (ss : List Stmt) (s : σ),
    v.visitStmts ss s = (ss.map TreePart.stmt).foldl (fun s u => v.visit u s) s
  | [], _ => rfl
  | _ :: rest, _ => visitStmts_eq rest _

theorem visitMembers_eq : ∀ (members : List Member) (s : σ),
    v.visitMembers members s = (members.map Member.part).foldl (fun s u => v.visit u s) s
  | [], _ => rfl
  | .field _ :: rest, _ | .method _ :: rest, _ | .type _ :: rest, _ => visitMembers_eq rest _

theorem visitExpr?_eq (e : Option Expr) (s : σ) :
    v.visitExpr? e s = (e.toList.map TreePart.expr).foldl (fun s u => v.visit u s) s := by
  cases e <;> rfl

theorem visitInit_eq (init : ForInit) (s : σ) :
    v.visitInit init s = (init.stmt?.toList.map TreePart.stmt).foldl (fun s u => v.visit u s) s := by
  cases init <;> rfl

/-- The walk through a part visits its children, one after another. -/
theorem walk_eq (t : TreePart) (s : σ) :
    v.walk t s = t.children.foldl (fun s u => v.visit u s) s := by
  cases t with
  | cls c =>
      cases c
      exact v.visitMembers_eq _ s
  | field f => exact v.visitExpr?_eq f.init s
  | method m => exact v.visitStmts_eq m.body.body s
  | stmt t =>
      cases t with
      | block pos body => exact v.visitStmts_eq body s
      | declare d => exact v.visitExpr?_eq d.init s
      | ret pos value => exact v.visitExpr?_eq value s
      | synchronized pos lock bodyPos body => exact v.visitStmts_eq body _
      | forLoop pos init cond update body =>
          show v.visit (.stmt body) (v.visitExpr? update (v.visitExpr? cond (v.visitInit init s))) = _
          rw [visitExpr?_eq, visitExpr?_eq, visitInit_eq, ← List.foldl_append, ← List.foldl_append,
            ← List.append_assoc]
          simp only [TreePart.children, Stmt.parts, List.foldl_append, List.foldl_cons, List.foldl_nil]
      | _ => rfl
  | expr e =>
      cases e with
      | call n name args | new n type args => exact v.visitExprs_eq args s
      | invoke n target name args => exact v.visitExprs_eq args _
      | _ => rfl

theorem visit_eq (t : TreePart) :
    v.visit t = v.hook t fun s => t.children.foldl (fun s u => v.visit u s) s := by
  rw [visit, funext (v.walk_eq t)]

/-- The visitor that does something wherever it comes and then goes on with the walk. -/
def each (f : TreePart → σ → σ) : Visitor σ where
  cls c walk s := walk (f (.cls c) s)
  field d walk s := walk (f (.field d) s)
  method d walk s := walk (f (.method d) s)
  stmt t walk s := walk (f (.stmt t) s)
  expr e walk s := walk (f (.expr e) s)

variable (f : TreePart → σ → σ)

theorem hook_each (t : TreePart) (walk : σ → σ) (s : σ) :
    (each f).hook t walk s = walk (f t s) := by
  cases t <;> rfl

/-- It comes to a part and then to all that is in it. -/
theorem visit_each (t : TreePart) (s : σ) :
    (each f).visit t s = t.parts.foldl (fun s u => f u s) s := by
  induction t using TreePart.induct generalizing s with
  | step t ih =>
      rw [visit_eq, hook_each, TreePart.parts_eq, List.foldl_cons, List.foldl_flatMap]
      exact List.foldl_ext _ _ _ fun s u hu => ih u hu s

theorem walk_each (t : TreePart) (s : σ) :
    (each f).walk t s = (t.below.map Prod.snd).foldl (fun s u => f u s) s := by
  rw [walk_eq, TreePart.map_below, List.foldl_flatMap]
  exact List.foldl_ext _ _ _ fun s u _ => visit_each f u s

end Visitor

end ProbeLang
