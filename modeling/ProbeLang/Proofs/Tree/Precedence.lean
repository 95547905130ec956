import ProbeLang.Proofs.Tree.Fuel

/-!
# How operators group

A chain is what stands between operands: an operand, and operators each with an operand behind it,
up to a token that is no operator (`Parse.Chain`). Of the trees over a chain in order there is
exactly one in which operators that bind tighter stand below those that bind less tight, and on the
left those that bind alike (`OpTree.Grouped`). That tree is what the reader answers with. The
reader holds a left operand that is grouped already and no looser than the operator in front of it;
`Parse.climb` says what it makes of it, by induction on the number of operators that are left.
-/

namespace ProbeLang

/-- The binary operators from those that bind least tight to those that bind most. -/
def BinaryOp.rows : List (List BinaryOp) :=
  [[.or], [.and], [.eq, .ne], [.lt, .le, .gt, .ge], [.add, .sub], [.mul, .div, .rem]]

/-- The row that an operator stands in. -/
def BinaryOp.row (op : BinaryOp) : Nat :=
  BinaryOp.rows.findIdx (·.contains op)

theorem BinaryOp.level_eq (op : BinaryOp) : op.level = op.row + 1 := by
  cases op <;> rfl

/-- The trees over operands with binary operators at their nodes. -/
inductive OpTree
  | operand (u : Expr)
  | node (op : BinaryOp) (left right : OpTree)

namespace OpTree

/-- The operand that comes first in order. -/
def first : OpTree → Expr
  | operand u => u
  | node _ left _ => left.first

/-- The operators in order, each with the operand behind it. -/
def links : OpTree → List (BinaryOp × Expr)
  | operand _ => []
  | node op left right => left.links ++ (op, right.first) :: right.links

/-- The operator at the root. -/
def root? : OpTree → Option BinaryOp
  | operand _ => none
  | node op _ _ => some op

/-- Whether every operator has on its left an operand or one that binds as tight or tighter, and on
its right an operand or one that binds tighter. -/
def Grouped : OpTree → Prop
  | operand _ => True
  | node op left right =>
      left.Grouped ∧ right.Grouped ∧
        (∀ op' ∈ left.root?, op.row ≤ op'.row) ∧ ∀ op' ∈ right.root?, op.row < op'.row

instance decidableGrouped : ∀ tree : OpTree, Decidable tree.Grouped
  | operand _ => inferInstanceAs (Decidable True)
  | node _ left right =>
      have := decidableGrouped left
      have := decidableGrouped right
      inferInstanceAs (Decidable (_ ∧ _ ∧ _ ∧ _))

/-- The expression that a tree stands for. It is placed where it begins. -/
def expr : OpTree → Expr
  | operand u => u
  | node op left right => .binary ⟨left.expr.pos, none, none⟩ op left.expr right.expr

/-- Whether a tree groups operands and the operators between them, in their order. -/
structure Groups (tree : OpTree) (u : Expr) (ops : List (BinaryOp × Expr)) : Prop where
  grouped : tree.Grouped
  first : tree.first = u
  links : tree.links = ops

variable {op : BinaryOp} {row : Nat} {tree tree' left right : OpTree}

/-- In a grouped tree no operator binds less tight than the one at the root. -/
theorem Grouped.le_row : ∀ {tree : OpTree}, tree.Grouped → (∀ op ∈ tree.root?, row ≤ op.row) →
    ∀ link ∈ tree.links, row ≤ link.1.row
  | operand _, _, _ => List.forall_mem_nil _
  | node op left right, ⟨hleft, hright, hle, hlt⟩, hroot => by
      have hop : row ≤ op.row := hroot op rfl
      refine List.forall_mem_append.mpr ⟨?_, List.forall_mem_cons.mpr ⟨hop, ?_⟩⟩
      · exact hleft.le_row fun op' hop' => Nat.le_trans hop (hle op' hop')
      · exact hright.le_row fun op' hop' => Nat.le_trans hop (Nat.le_of_lt (hlt op' hop'))

theorem Grouped.left_row (h : (node op left right).Grouped) :
    ∀ link ∈ left.links, op.row ≤ link.1.row :=
  h.1.le_row h.2.2.1

theorem Grouped.right_row (h : (node op left right).Grouped) :
    ∀ link ∈ right.links, op.row < link.1.row :=
  fun link hlink => Nat.lt_of_succ_le (h.2.1.le_row h.2.2.2 link hlink)

/-- The root of a grouped tree is the last of the operators that bind least tight, so it does not
come before the root of another one over the same operators. -/
theorem Grouped.not_before {op' : BinaryOp} {left' right' : OpTree}
    {between : List (BinaryOp × Expr)} (h : (node op left right).Grouped)
    (h' : (node op' left' right').Grouped)
    (hleft : left'.links = left.links ++ (op, right.first) :: between)
    (hright : right.links = between ++ (op', right'.first) :: right'.links) : False := by
  have hle : op'.row ≤ op.row := h'.left_row (op, right.first) (by simp [hleft])
  have hlt : op.row < op'.row := h.right_row (op', right'.first) (by simp [hright])
  omega

/-- Grouped trees over the same operators have the same one at the root. -/
theorem Grouped.split {op' : BinaryOp} {left' right' : OpTree} (h : (node op left right).Grouped)
    (h' : (node op' left' right').Grouped)
    (hlinks : (node op left right).links = (node op' left' right').links) :
    left.links = left'.links ∧
      (op, right.first) :: right.links = (op', right'.first) :: right'.links := by
  rcases List.append_eq_append_iff.mp hlinks with ⟨between, hl, hr⟩ | ⟨between, hl, hr⟩
  · cases between with
    | nil =>
        rw [List.append_nil] at hl
        exact ⟨hl.symm, hr⟩
    | cons link between =>
        obtain ⟨rfl, hrest⟩ := List.cons.inj hr
        exact (h.not_before h' hl hrest).elim
  · cases between with
    | nil =>
        rw [List.append_nil] at hl
        exact ⟨hl, hr.symm⟩
    | cons link between =>
        obtain ⟨rfl, hrest⟩ := List.cons.inj hr
        exact (h'.not_before h hl hrest).elim

/-- A chain is grouped in one way only. -/
theorem Grouped.eq_of_links : ∀ {tree tree' : OpTree}, tree.Grouped → tree'.Grouped →
    tree.first = tree'.first → tree.links = tree'.links → tree = tree'
  | operand u, operand u', _, _, hfirst, _ => congrArg operand hfirst
  | operand u, node op left right, _, _, _, hlinks
  | node op left right, operand u, _, _, _, hlinks => by simp [links] at hlinks
  | node op left right, node op' left' right', h, h', hfirst, hlinks => by
      obtain ⟨hleft, hright⟩ := h.split h' hlinks
      obtain ⟨hlink, hrest⟩ := List.cons.inj hright
      obtain ⟨rfl, hbehind⟩ := Prod.mk.inj hlink
      rw [h.1.eq_of_links h'.1 hfirst hleft, h.2.1.eq_of_links h'.2.1 hbehind hrest]

end OpTree

namespace Parse

/-- Whether operators with an operand behind each stand here, up to a token that is no operator. -/
inductive Links : TokenStream → List (BinaryOp × Expr) → TokenStream → Prop
  | stop {t : TokenStream} (hop : binaryOp? t.current.kind = none) : Links t [] t
  | link {t t' k : TokenStream} {op : BinaryOp} {u : Expr} {ops : List (BinaryOp × Expr)}
      (hop : binaryOp? t.current.kind = some op) (hoperand : Gives unary t.advance u t') :
      Links t' ops k → Links t ((op, u) :: ops) k

/-- Whether an operand stands here and behind it operators with an operand behind each, up to a
token that is no operator. -/
def Chain (s : TokenStream) (u : Expr) (ops : List (BinaryOp × Expr)) (k : TokenStream) : Prop :=
  ∃ t, Gives unary s u t ∧ Links t ops k

variable {s t j k : TokenStream} {u rhs : Expr} {op : BinaryOp} {ops left : List (BinaryOp × Expr)}
  {fuel level : Nat} {lhs tree : OpTree}

/-! ## Steps of the climb -/

theorem run_binaryRest_none {lhs : Expr} (hop : binaryOp? t.current.kind = none) :
    (binaryRest (fuel + 1) level lhs).run t = .ok (lhs, t) := by
  rw [binaryRest, run_peek_bind, hop]
  rfl

theorem run_binaryRest_loose {lhs : Expr} (hop : binaryOp? t.current.kind = some op)
    (hloose : op.level < level) : (binaryRest (fuel + 1) level lhs).run t = .ok (lhs, t) := by
  rw [binaryRest, run_peek_bind, hop]
  dsimp only
  rw [if_pos hloose]
  rfl

theorem run_binaryRest_tight {lhs : Expr} (hop : binaryOp? t.current.kind = some op)
    (htight : level ≤ op.level)
    (hrun : (binary fuel (op.level + 1)).run t.advance = .ok (rhs, j)) :
    (binaryRest (fuel + 1) level lhs).run t =
      (binaryRest fuel level (.binary ⟨lhs.pos, none, none⟩ op lhs rhs)).run j := by
  have hstep : (binaryRest (fuel + 1) level lhs).run t =
      (binary fuel (op.level + 1) >>= fun rhs =>
        binaryRest fuel level (.binary ⟨lhs.pos, none, none⟩ op lhs rhs)).run t.advance := by
    rw [binaryRest, run_peek_bind, hop]
    dsimp only
    rw [if_neg (Nat.not_lt_of_le htight)]
    rfl
  rw [hstep, StateT.run_bind, hrun]
  rfl

/-- What is made of a left operand: a grouped tree over some of the operators behind it, all of them
as tight as the level, and the operators that are left, of which the first is not. -/
structure Climbed (level : Nat) (lhs : OpTree) (t : TokenStream) (ops : List (BinaryOp × Expr))
    (k : TokenStream) (tree : OpTree) (left : List (BinaryOp × Expr)) (j : TokenStream) : Prop where
  grouped : tree.Grouped
  tight : ∀ op ∈ tree.root?, level ≤ op.level
  first : tree.first = lhs.first
  links : tree.links ++ left = lhs.links ++ ops
  behind : Links j left k
  loose : ∀ op, binaryOp? j.current.kind = some op → op.level < level
  runs : ∀ fuel, 5 * t.rest.length + 1 ≤ fuel →
    (binaryRest fuel level lhs.expr).run t = .ok (tree.expr, j)

namespace Climbed

theorem leaves (h : Climbed level lhs t ops k tree left j) (ht : t.Closed) :
    j.Closed ∧ j.rest.length ≤ t.rest.length := by
  have hrun := h.runs _ (Nat.le_refl _)
  have hleaves := (agree_binaryRest _ _ ht (Nat.le_refl _) (Nat.le_refl _)).leaves _ _ hrun
  exact hleaves.imp_right Nat.le_of_lt_succ

/-- Nothing is made of a left operand where the level is not reached. -/
theorem stay (hlinks : Links t ops k) (hgrouped : lhs.Grouped)
    (htight : ∀ op ∈ lhs.root?, level ≤ op.level)
    (hloose : ∀ op, binaryOp? t.current.kind = some op → op.level < level) :
    Climbed level lhs t ops k lhs ops t where
  grouped := hgrouped
  tight := htight
  first := rfl
  links := rfl
  behind := hlinks
  loose := hloose
  runs := by
    intro fuel hfuel
    obtain ⟨fuel, rfl⟩ : ∃ n, fuel = n + 1 := ⟨fuel - 1, by omega⟩
    cases hop : binaryOp? t.current.kind with
    | none => exact run_binaryRest_none hop
    | some op => exact run_binaryRest_loose hop (hloose op hop)

/-- An operand and what is made of it are read together. -/
theorem run_binary (h : Climbed level (.operand u) t ops k tree left j) (hs : s.Closed)
    (hoperand : Gives unary s u t) (hfuel : 5 * s.rest.length + 4 ≤ fuel) :
    (binary fuel level).run s = .ok (tree.expr, j) := by
  obtain ⟨fuel, rfl⟩ : ∃ n, fuel = n + 1 := ⟨fuel - 1, by omega⟩
  have hunary : (unary fuel).run s = .ok (u, t) := hoperand.run_unary hs (by omega)
  have hlength := (hoperand.leaves hs).2
  rw [binary, StateT.run_bind, hunary]
  exact h.runs fuel (by omega)

/-- An operator is passed that is as tight as the level: its right operand is made of what is
tighter, and both are the left operand of what is behind them. -/
theorem link {t' i : TokenStream} {right : OpTree} {left' : List (BinaryOp × Expr)}
    (hop : binaryOp? t.current.kind = some op) (hlevel : level ≤ op.level) (ht : t.Closed)
    (hoperand : Gives unary t.advance u t')
    (hright : Climbed (op.level + 1) (.operand u) t' ops k right left j)
    (hwhole : Climbed level (.node op lhs right) j left k tree left' i) :
    Climbed level lhs t ((op, u) :: ops) k tree left' i where
  grouped := hwhole.grouped
  tight := hwhole.tight
  first := hwhole.first
  links := by
    have hops : right.links ++ left = ops := hright.links
    rw [hwhole.links, OpTree.links, hright.first, List.append_assoc, List.cons_append, hops]
    rfl
  behind := hwhole.behind
  loose := hwhole.loose
  runs := by
    intro fuel hfuel
    obtain ⟨fuel, rfl⟩ : ∃ n, fuel = n + 1 := ⟨fuel - 1, by omega⟩
    have hadvance := ht.length_advance (ne_eof_of_binaryOp? hop)
    obtain ⟨ht', hlength⟩ := hoperand.leaves ht.advance
    have hlength' := (hright.leaves ht').2
    rw [run_binaryRest_tight hop hlevel (hright.run_binary ht.advance hoperand (by omega))]
    exact hwhole.runs fuel (by omega)

end Climbed

/-- A left operand that is grouped, and no looser than the operator behind it if that is read, is
made into a grouped tree. -/
theorem climb {ops : List (BinaryOp × Expr)} {t k : TokenStream} {lhs : OpTree} {level : Nat}
    (ht : t.Closed) (hlinks : Links t ops k) (hgrouped : lhs.Grouped)
    (htight : ∀ op ∈ lhs.root?, level ≤ op.level)
    (hnext : ∀ op, binaryOp? t.current.kind = some op → level ≤ op.level →
      ∀ op' ∈ lhs.root?, op.row ≤ op'.row) :
    ∃ tree left j, Climbed level lhs t ops k tree left j := by
  cases hlinks with
  | stop hop =>
      refine ⟨lhs, [], t, .stay (.stop hop) hgrouped htight ?_⟩
      rw [hop]
      exact fun _ h => nomatch h
  | @link _ t' _ op u ops hop hoperand hrest =>
      by_cases hloose : op.level < level
      · refine ⟨lhs, (op, u) :: ops, t, .stay (.link hop hoperand hrest) hgrouped htight ?_⟩
        rw [hop]
        rintro _ ⟨⟩
        exact hloose
      · have hlevel : level ≤ op.level := Nat.le_of_not_lt hloose
        have ht' := (hoperand.leaves ht.advance).1
        have hright : ∃ right left j, Climbed (op.level + 1) (.operand u) t' ops k right left j :=
          climb ht' hrest trivial (fun _ h => nomatch h) (fun _ _ _ _ h => nomatch h)
        obtain ⟨right, left, j, hright⟩ := hright
        have hshorter : left.length < ops.length + 1 := by
          have hops : right.links ++ left = ops := hright.links
          rw [← hops, List.length_append]
          omega
        have hnode : (OpTree.node op lhs right).Grouped := by
          refine ⟨hgrouped, hright.grouped, hnext op hop hlevel, fun op' hop' => ?_⟩
          have hle := hright.tight op' hop'
          rw [op.level_eq, op'.level_eq] at hle
          omega
        -- The operator behind the right operand is no tighter than the one in front of it.
        have hwhole : ∃ tree left' i, Climbed level (.node op lhs right) j left k tree left' i := by
          refine climb (hright.leaves ht').1 hright.behind hnode ?_ ?_
          · rintro _ ⟨⟩
            exact hlevel
          · rintro op' hop' - _ ⟨⟩
            have hlt := hright.loose op' hop'
            rw [op.level_eq, op'.level_eq] at hlt
            omega
        obtain ⟨tree, left', i, hwhole⟩ := hwhole
        exact ⟨tree, left', i, .link hop hlevel ht hoperand hright hwhole⟩
termination_by ops.length

/-! ## Whole chains -/

namespace Chain

theorem climbed (h : Chain s u ops k) (hs : s.Closed) :
    ∃ tree : OpTree, tree.Groups u ops ∧
      ∀ fuel, 5 * s.rest.length + 4 ≤ fuel → (binary fuel 0).run s = .ok (tree.expr, k) := by
  obtain ⟨t, hoperand, hlinks⟩ := h
  obtain ⟨ht, -⟩ := hoperand.leaves hs
  obtain ⟨tree, left, j, h⟩ : ∃ tree left j, Climbed 0 (.operand u) t ops k tree left j :=
    climb ht hlinks trivial (fun _ h => nomatch h) (fun _ _ _ _ h => nomatch h)
  have hbehind := h.behind
  have hlinks := h.links
  cases hbehind with
  | stop hop =>
      rw [List.append_nil] at hlinks
      exact ⟨tree, ⟨h.grouped, h.first, hlinks⟩, fun fuel hfuel => h.run_binary hs hoperand hfuel⟩
  | link hop _ _ => exact absurd (h.loose _ hop) (Nat.not_lt_zero _)

/-- A unary operator in front of a chain belongs to its first operand. -/
theorem unary {t₀ : Token} {op₀ : UnaryOp} (h : Chain s u ops k) (hs : s.Closed)
    (hop : unaryOp? t₀.kind = some op₀) :
    Chain ⟨t₀, s.current :: s.rest⟩ (.unary ⟨t₀.pos, none, none⟩ op₀ u) ops k := by
  obtain ⟨t, hoperand, hlinks⟩ := h
  refine ⟨t, ?_, hlinks⟩
  intro fuel hfuel
  have hlength : s.rest.length + 1 = (s.current :: s.rest).length := List.length_cons.symm
  unfold TokenStream.enough at hfuel
  obtain ⟨fuel, rfl⟩ : ∃ n, fuel = n + 1 := ⟨fuel - 1, by omega⟩
  have hunary : (Parse.unary fuel).run s = .ok (u, t) := hoperand.run_unary hs (by
    dsimp only at hfuel
    omega)
  have hstep : (Parse.unary (fuel + 1)).run ⟨t₀, s.current :: s.rest⟩ =
      (Parse.unary fuel >>= fun operand =>
        pure (.unary ⟨t₀.pos, none, none⟩ op₀ operand)).run s := by
    rw [Parse.unary, run_peek_bind]
    dsimp only
    rw [hop]
    rfl
  rw [hstep, StateT.run_bind, hunary]
  rfl

end Chain

/-- Behind what is read of a chain, an expression goes on only if it is an assignment. -/
theorem run_expr {e : Expr} (hs : s.Closed) (hfuel : s.enough ≤ fuel)
    (hrun : ∀ fuel, 5 * s.rest.length + 4 ≤ fuel → (binary fuel 0).run s = .ok (e, k)) :
    (expr fuel).run s = if k.current.kind = .assign
      then ((expr fuel).run k.advance).map fun r => (.assign ⟨e.pos, none, none⟩ e r.1, r.2)
      else .ok (e, k) := by
  unfold TokenStream.enough at hfuel
  obtain ⟨fuel, rfl⟩ : ∃ n, fuel = n + 1 := ⟨fuel - 1, by omega⟩
  have hbinary := hrun fuel (by omega)
  obtain ⟨hk, hlength⟩ :=
    (agree_binary fuel fuel hs (by omega) (by omega)).leaves e k hbinary
  have hstep : (expr (fuel + 1)).run s = if k.current.kind = .assign
      then (expr fuel >>= fun value => pure (.assign ⟨e.pos, none, none⟩ e value)).run k.advance
      else .ok (e, k) := by
    rw [expr, StateT.run_bind, hbinary]
    show (accept .assign >>= fun found => if found = true
      then expr fuel >>= fun value => pure (.assign ⟨e.pos, none, none⟩ e value)
      else pure e).run k = _
    rw [run_accept_bind]
    rfl
  have hadvance := k.length_advance_le
  rw [hstep, StateT.run_bind,
    (agree_expr fuel (fuel + 1) hk.advance (by omega) (by omega)).run_eq]
  cases (expr (fuel + 1)).run k.advance <;> rfl

/-- A chain is read to its end, as the one tree that groups it. A unary operator in front of it
belongs to the first operand alone, and an assignment takes all that is read behind it. -/
theorem reads_chain (hs : s.Closed) (hchain : Chain s u ops k) :
    ∃ tree : OpTree, tree.Groups u ops ∧
      (∀ tree' : OpTree, tree'.Groups u ops → tree' = tree) ∧
      Gives (fun fuel => binary fuel 0) s tree.expr k ∧
      (k.current.kind ≠ .assign → Gives expr s tree.expr k) ∧
      (k.current.kind = .assign → ∀ fuel, s.enough ≤ fuel → (expr fuel).run s =
        ((expr fuel).run k.advance).map
          fun r => (.assign ⟨tree.expr.pos, none, none⟩ tree.expr r.1, r.2)) ∧
      ∀ (t₀ : Token) (op₀ : UnaryOp), unaryOp? t₀.kind = some op₀ →
        Chain ⟨t₀, s.current :: s.rest⟩ (.unary ⟨t₀.pos, none, none⟩ op₀ u) ops k := by
  obtain ⟨tree, htree, hrun⟩ := hchain.climbed hs
  refine ⟨tree, htree, ?_, ?_, ?_, ?_, ?_⟩
  · intro tree' htree'
    exact htree'.grouped.eq_of_links htree.grouped (htree'.first.trans htree.first.symm)
      (htree'.links.trans htree.links.symm)
  · intro fuel hfuel
    unfold TokenStream.enough at hfuel
    exact hrun fuel (by omega)
  · intro hkind fuel hfuel
    rw [run_expr hs hfuel hrun, if_neg hkind]
  · intro hkind fuel hfuel
    rw [run_expr hs hfuel hrun, if_pos hkind]
  · intro t₀ op₀ hop
    exact hchain.unary hs hop

/-- What is left of `-a - b * c - d;` from its operand at a place on. -/
def differences (place : Nat) : TokenStream :=
  .ofList ([⟨.minus, "-", ⟨1, 1⟩⟩, ⟨.identifier, "a", ⟨1, 2⟩⟩, ⟨.minus, "-", ⟨1, 4⟩⟩,
    ⟨.identifier, "b", ⟨1, 6⟩⟩, ⟨.star, "*", ⟨1, 8⟩⟩, ⟨.identifier, "c", ⟨1, 10⟩⟩,
    ⟨.minus, "-", ⟨1, 12⟩⟩, ⟨.identifier, "d", ⟨1, 14⟩⟩, ⟨.semicolon, ";", ⟨1, 15⟩⟩,
    ⟨.eof, "", ⟨1, 16⟩⟩].drop place)

/-- It is read as the difference of `-a - b * c` and `d`. -/
theorem reads_chain_differences :
    let a := Expr.unary ⟨⟨1, 1⟩, none, none⟩ .neg (.name ⟨⟨1, 2⟩, none, none⟩ "a")
    let b := Expr.name ⟨⟨1, 6⟩, none, none⟩ "b"
    let c := Expr.name ⟨⟨1, 10⟩, none, none⟩ "c"
    let d := Expr.name ⟨⟨1, 14⟩, none, none⟩ "d"
    (differences 0).Closed ∧
      Chain (differences 0) a [(.sub, b), (.mul, c), (.sub, d)] (differences 8) ∧
      Gives expr (differences 0) (.binary ⟨⟨1, 1⟩, none, none⟩ .sub
        (.binary ⟨⟨1, 1⟩, none, none⟩ .sub a (.binary ⟨⟨1, 6⟩, none, none⟩ .mul b c)) d)
        (differences 8) := by
  intro a b c d
  have hclosed : (differences 0).Closed := rfl
  have hchain : Chain (differences 0) a [(.sub, b), (.mul, c), (.sub, d)] (differences 8) := by
    have ha : Gives unary (differences 0) a (differences 2) := .unary_of_run 50 rfl (by decide) rfl
    have hb : Gives unary (differences 3) b (differences 4) := .unary_of_run 50 rfl (by decide) rfl
    have hc : Gives unary (differences 5) c (differences 6) := .unary_of_run 50 rfl (by decide) rfl
    have hd : Gives unary (differences 7) d (differences 8) := .unary_of_run 50 rfl (by decide) rfl
    exact ⟨differences 2, ha, .link rfl hb (.link rfl hc (.link rfl hd (.stop rfl)))⟩
  refine ⟨hclosed, hchain, ?_⟩
  obtain ⟨tree, -, hunique, -, hexpr, -⟩ := reads_chain hclosed hchain
  have hgroups : (OpTree.node .sub (.node .sub (.operand a) (.node .mul (.operand b) (.operand c)))
      (.operand d)).Groups a [(.sub, b), (.mul, c), (.sub, d)] :=
    ⟨by decide, rfl, rfl⟩
  rw [← hunique _ hgroups] at hexpr
  exact hexpr (by decide)

end Parse

end ProbeLang
