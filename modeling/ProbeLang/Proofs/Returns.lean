import Mathlib.Logic.Relation
import ProbeLang.Proofs.Analysis.Class
import ProbeLang.Proofs.Meaning.Execution
import ProbeLang.Proofs.Meaning.Machine
import ProbeLang.Proofs.Monitors.Methods

/-!
# Methods that give back values

Control reaches the end of the code of a statement only if the statement completes: the jump out of a
loop whose condition is the constant `true` is in the code, but the number on the stack is then one,
so no run takes it. The body of a method with a result does not complete, and no `return` in it goes
without a value. So a run of the method leaves it with a value, throws, or goes on for ever.
-/

namespace ProbeLang

open CodeM Code SymbolicCode

variable {V : Type}

/-! ## Runs on any values

A machine that knows no values but the numbers that the code pushes itself. Whatever else an
instruction leaves on the stack, the results of calls among them, may be any values; so the machine
has a choice at each step. A jump with a condition looks at the value on top of the stack.

How code goes on is told by what it comes to at its end. A place is safe for a number of steps
(`Fetch.Safe`) if all runs from there find an instruction at each step, and none that returns without
a value; code is safe where it begins if it is where it may end. -/

/-- Values of which some are true. A number is true unless it is zero. -/
structure Truth (V : Type) where
  int : UInt32 → V
  isTrue : V → Bool
  isTrue_int (n : UInt32) : isTrue (int n) = (n != 0)

/-- Whether a value may be taken from a stack: the one on top, or any if the stack is empty. -/
inductive Takes : List V → V → Prop
  | top (v : V) (rest : List V) : Takes (v :: rest) v
  | any (v : V) : Takes [] v

namespace Instr

variable (T : Truth V)

/-- What an instruction may leave of a stack. If it calls a method, its constant tells how many values
it takes and leaves; they are not known if the constant names no method. -/
def Leaves : Instr (Option String) → List V → List V → Prop
  | .pushInt n, stack, stack' => stack' = T.int n :: stack
  | i, stack, stack' => ∀ pops pushes, i.effect? (·.bind callEffect?) = some (pops, pushes) →
      ∃ values, values.length = pushes ∧ stack' = values ++ stack.drop pops

/-- Whether code goes on at a place behind an instruction at another one. -/
def LeadsTo (pc : Nat) (stack : List V) : Instr (Option String) → Nat → Prop
  | .jumpIfFalse target, q => ∃ v, Takes stack v ∧
      q = if T.isTrue v then pc + (jumpIfFalse target : Instr String).size else target
  | .jumpIfTrue target, q => ∃ v, Takes stack v ∧
      q = if T.isTrue v then target else pc + (jumpIfTrue target : Instr String).size
  | i, q => q ∈ i.successors pc

end Instr

/-- Whether a machine may come from a place, with a stack, to another in one step. -/
def Fetch.Moves (fetch : Fetch) (T : Truth V) (s t : Nat × List V) : Prop :=
  ∃ i, fetch s.1 = some i ∧ i.LeadsTo T s.1 s.2 t.1 ∧ i.Leaves T s.2 t.2

/-- Whether a machine finds an instruction at each of a number of steps, and none that returns without
a value. -/
def Fetch.Lasts (fetch : Fetch) (T : Truth V) : Nat → Nat × List V → Prop
  | 0, _ => True
  | k + 1, s => ∃ i, fetch s.1 = some i ∧ i ≠ .ret ∧ ∀ t, fetch.Moves T s t → fetch.Lasts T k t

/-- Whether a machine lasts for a number of steps from a place on, whatever is on the stack. -/
def Fetch.Safe (fetch : Fetch) (T : Truth V) (k pc : Nat) : Prop :=
  ∀ stack, fetch.Lasts T k (pc, stack)

/-! ### Steps -/

theorem Takes.exists (T : Truth V) (stack : List V) : ∃ v, Takes stack v := by
  cases stack with
  | nil => exact ⟨T.int 0, .any _⟩
  | cons v rest => exact ⟨v, .top v rest⟩

namespace Instr

variable {T : Truth V} {pc q : Nat} {stack : List V}

theorem LeadsTo.mem_successors {i : Instr (Option String)} (h : i.LeadsTo T pc stack q) :
    q ∈ i.successors pc := by
  cases i with
  | jumpIfFalse target | jumpIfTrue target =>
      obtain ⟨v, -, rfl⟩ := h
      split <;> simp [successors, size]
  | _ => exact h

/-- Every instruction leaves something. -/
theorem exists_leaves (i : Instr (Option String)) (stack : List V) :
    ∃ stack', i.Leaves T stack stack' := by
  have hother : ∃ stack', ∀ pops pushes, i.effect? (·.bind callEffect?) = some (pops, pushes) →
      ∃ values, values.length = pushes ∧ stack' = values ++ stack.drop pops := by
    cases i.effect? (·.bind callEffect?) with
    | none => exact ⟨[], nofun⟩
    | some e =>
        refine ⟨List.replicate e.2 (T.int 0) ++ stack.drop e.1, ?_⟩
        intro pops pushes he
        cases he
        exact ⟨_, List.length_replicate, rfl⟩
  cases i with
  | pushInt n => exact ⟨_, rfl⟩
  | _ => exact hother

/-- Only instructions that leave the method lead nowhere. -/
theorem exists_leadsTo (i : Instr (Option String)) (pc : Nat) (stack : List V) :
    (∃ q, i.LeadsTo T pc stack q) ∨ i = .ret ∨ i = .retValue ∨ i = .throw := by
  obtain ⟨v, hv⟩ := Takes.exists T stack
  cases i with
  | ret => exact .inr (.inl rfl)
  | retValue => exact .inr (.inr (.inl rfl))
  | throw => exact .inr (.inr (.inr rfl))
  | jumpIfFalse target | jumpIfTrue target => exact .inl ⟨_, v, hv, rfl⟩
  | _ => exact .inl ⟨_, List.mem_singleton_self _⟩

end Instr

namespace Fetch

variable {fetch : Fetch} {T : Truth V} {k m pc : Nat} {i : Instr (Option String)}
  {c : List (Instr String)} {s t : Nat × List V}

/-- A step is one of the instruction that is found. -/
theorem Moves.of_fetch {stack stack' : List V} {q : Nat}
    (h : fetch.Moves T (pc, stack) (q, stack')) (hi : fetch pc = some i) :
    i.LeadsTo T pc stack q ∧ i.Leaves T stack stack' := by
  obtain ⟨j, hj, h⟩ := h
  cases hi.symm.trans hj
  exact h

theorem Lasts.pred : ∀ {k : Nat} {s : Nat × List V}, fetch.Lasts T (k + 1) s → fetch.Lasts T k s
  | 0, _, _ => trivial
  | _ + 1, _, ⟨i, hi, hret, h⟩ => ⟨i, hi, hret, fun t ht => (h t ht).pred⟩

theorem Safe.mono (h : fetch.Safe T m pc) (hk : k ≤ m) : fetch.Safe T k pc := by
  induction hk with
  | refl => exact h
  | step _ ih => exact ih fun stack => (h stack).pred

/-- What a machine comes to that lasts. -/
theorem Lasts.of_reaches (h : ∀ k, fetch.Lasts T k s)
    (hst : Relation.ReflTransGen (fetch.Moves T) s t) : ∀ k, fetch.Lasts T k t := by
  induction hst with
  | refl => exact h
  | tail _ hmove ih =>
      intro k
      obtain ⟨_, _, -, hnext⟩ := ih (k + 1)
      exact hnext _ hmove

/-! ### Code at a place -/

/-- An instruction makes a place safe for one more step than where it leads. -/
theorem Safe.step (hi : fetch pc = some i) (hret : i ≠ .ret)
    (h : ∀ q ∈ i.successors pc, fetch.Safe T k q) : fetch.Safe T (k + 1) pc := by
  intro stack
  refine ⟨i, hi, hret, ?_⟩
  rintro ⟨q, stack'⟩ hmove
  have hq : q ∈ i.successors pc := (Moves.of_fetch hmove hi).1.mem_successors
  exact h q hq stack'

/-- Code that does not return, and from which no jump leads, is safe if the place behind it is. -/
theorem Safe.plain (hcode : fetch.Holds pc c) (hplain : ∀ i ∈ c, i.Plain) (hin : JumpsInside pc c)
    (hstop : fetch.Safe T k (pc + size c)) : fetch.Safe T k pc := by
  suffices h : ∀ k, fetch.Safe T k (pc + size c) → ∀ p ∈ starts pc c, fetch.Safe T k p from
    h k hstop pc (first_mem_starts pc c)
  intro k
  induction k with
  | zero => exact fun _ _ _ _ => trivial
  | succ k ih =>
      intro hstop p hp
      rcases mem_located_of_mem_starts hp with rfl | ⟨i, hi⟩
      · exact hstop
      have hmem := mem_of_mem_located hi
      refine Safe.step (hcode _ hi) ?_ fun q hq => ih (hstop.mono (Nat.le_succ k)) q ?_
      · intro hret
        have hreturns := (hplain i hmem).2
        rw [← Instr.isReturn_map some, hret] at hreturns
        cases hreturns
      · rw [Instr.successors_map] at hq
        rcases Instr.mem_successors hq with rfl | hq
        · exact behind_mem_starts hi
        · exact hin i hmem q hq

end Fetch

/-! ## Methods on any values -/

variable {fetch : Fetch} {T : Truth V}

namespace Fetch.Safe

variable {k pc exit : Nat}

/-- A place to which all code from there leads back is safe, whatever the number of steps is. -/
theorem loop (h : ∀ j < k, fetch.Safe T j pc → fetch.Safe T (j + 1) pc) : fetch.Safe T k pc := by
  induction k with
  | zero => exact fun _ => trivial
  | succ k ih => exact h k (Nat.lt_succ_self k) (ih fun j hj => h j (Nat.lt_succ_of_lt hj))

theorem jump {target : Nat} (hi : fetch pc = some (.jump target)) (h : fetch.Safe T k target) :
    fetch.Safe T (k + 1) pc :=
  .step hi nofun fun q hq => by
    rw [List.mem_singleton.mp hq]
    exact h

/-- An instruction behind which the next one comes. -/
theorem next {i : Instr (Option String)} (hi : fetch pc = some i) (hret : i ≠ .ret)
    (htarget : i.target? = none) (h : fetch.Safe T k (pc + i.size)) : fetch.Safe T k pc := by
  refine .mono (.step hi hret fun q hq => ?_) (Nat.le_succ k)
  rcases Instr.mem_successors hq with rfl | hq
  · exact h
  · rw [htarget] at hq
    cases hq

/-- A run ends with an instruction that leaves the method. -/
theorem leaves {i : Instr (Option String)} (hi : fetch pc = some i)
    (hleaves : i = .retValue ∨ i = .throw) : fetch.Safe T k pc := by
  refine .mono (.step hi ?_ fun q hq => ?_) (Nat.le_succ k)
  · rcases hleaves with rfl | rfl <;> exact nofun
  · rcases hleaves with rfl | rfl <;> cases hq

/-- A condition with a jump behind it. The jump is not taken if the condition is the constant
`true`. -/
theorem test {cond : Expr} (hcond : fetch.Holds pc (cond.code pc))
    (htest : fetch (pc + size (cond.code pc)) = some (.jumpIfFalse exit))
    (hthen : fetch.Safe T k (pc + size (cond.code pc) + jumpSize))
    (helse : cond.isTrue = false → fetch.Safe T k exit) : fetch.Safe T (k + 1) pc := by
  cases htrue : cond.isTrue with
  | false =>
      refine .plain hcond (cond.code_plain pc) (cond.code_skips pc).inside
        (.step htest nofun fun q hq => ?_)
      rcases Instr.mem_successors hq with rfl | hq
      · exact hthen
      · cases hq
        exact helse htrue
  | true =>
      obtain ⟨n, rfl⟩ : ∃ n, cond = .literal n (.bool true) := by
        unfold Expr.isTrue at htrue
        split at htrue
        · exact ⟨_, rfl⟩
        · cases htrue
      have hpush : fetch pc = some (.pushInt 1) := (Holds.cons_iff.mp hcond).1
      have htrue : T.isTrue (T.int 1) = true := T.isTrue_int 1
      refine fun stack => ⟨_, hpush, nofun, ?_⟩
      rintro ⟨p, stack'⟩ hp
      obtain ⟨hleads, hstack⟩ := Moves.of_fetch hp hpush
      cases List.mem_singleton.mp hleads
      cases hstack
      refine Lasts.pred ⟨_, htest, nofun, ?_⟩
      rintro ⟨q, stack'⟩ hq
      obtain ⟨⟨v, hv, rfl⟩, -⟩ := Moves.of_fetch hq htest
      cases hv
      rw [if_pos htrue]
      exact hthen stack'

end Fetch.Safe

/-! ### Statements -/

mutual

/-- Code of a statement is safe if the place behind it is, unless the statement does not complete. -/
theorem Stmt.code_safe : ∀ (s : Stmt) {pc slot k : Nat}, (∀ v ∈ s.returned, v.isSome = true) →
    fetch.Holds pc (s.code pc slot) →
    (s.completes = true → fetch.Safe T k (pc + size (s.code pc slot))) → fetch.Safe T k pc
  | .block _ body, pc, slot, k, hret, hcode, hstop => Stmt.codeAll_safe body hret hcode hstop
  | .declare d, pc, slot, k, hret, hcode, hstop =>
      .plain hcode (d.code_plain pc) (d.code_skips pc).inside (hstop rfl)
  | .ifThen _ cond s, pc, slot, k, hret, hcode, hstop => by
      obtain ⟨hcond, hrest⟩ := Fetch.Holds.append_iff.mp hcode
      obtain ⟨htest, hs⟩ := Fetch.Holds.cons_iff.mp hrest
      have hexit := hstop rfl
      rw [Stmt.code, size_append, size_cons, ← Nat.add_assoc, ← Nat.add_assoc] at hexit
      refine (Fetch.Safe.test hcond htest ?_ fun _ => hexit).mono (Nat.le_succ k)
      exact s.code_safe hret hs fun _ => hexit
  | .ifElse _ cond s t, pc, slot, k, hret, hcode, hstop => by
      obtain ⟨hfirst, hsecond⟩ := Fetch.Holds.append_iff.mp hcode
      obtain ⟨hcond, hrest⟩ := Fetch.Holds.append_iff.mp hfirst
      obtain ⟨htest, hs⟩ := Fetch.Holds.cons_iff.mp hrest
      obtain ⟨hjump, ht⟩ := Fetch.Holds.cons_iff.mp hsecond
      rw [size_append, size_cons, ← Nat.add_assoc, ← Nat.add_assoc] at hjump ht
      obtain ⟨hrets, hrett⟩ := List.forall_mem_append.mp hret
      have hexit (h : s.completes = true ∨ t.completes = true) := hstop (Bool.or_eq_true_iff.mpr h)
      rw [Stmt.code, size_append, size_append, size_cons, size_cons] at hexit
      simp only [← Nat.add_assoc] at hexit
      refine (Fetch.Safe.test hcond htest ?_ fun _ => ?_).mono (Nat.le_succ k)
      · exact s.code_safe hrets hs fun h =>
          (Fetch.Safe.jump hjump (hexit (.inl h))).mono (Nat.le_succ k)
      · exact t.code_safe hrett ht fun h => hexit (.inr h)
  | .whileLoop _ cond body, pc, slot, k, hret, hcode, hstop => by
      obtain ⟨hfirst, hback⟩ := Fetch.Holds.append_iff.mp hcode
      obtain ⟨hcond, hrest⟩ := Fetch.Holds.append_iff.mp hfirst
      obtain ⟨htest, hbody⟩ := Fetch.Holds.cons_iff.mp hrest
      rw [size_append, size_cons, ← Nat.add_assoc, ← Nat.add_assoc] at hback
      rw [Stmt.code, size_append, size_append, size_cons, size_cons, size_nil, Nat.add_zero] at hstop
      simp only [← Nat.add_assoc] at hstop
      refine .loop fun j hj hsafe => .test hcond htest ?_ fun hfalse => ?_
      · exact body.code_safe hret hbody fun _ =>
          (Fetch.Safe.jump (Fetch.Holds.cons_iff.mp hback).1 hsafe).mono (Nat.le_succ j)
      · exact (hstop (by rw [Stmt.completes, hfalse]; rfl)).mono (Nat.le_of_lt hj)
  | .forLoop _ init none update body, pc, slot, k, hret, hcode, hstop => by
      rw [Stmt.code_forever] at hcode
      obtain ⟨hinit, hloop⟩ := Fetch.Holds.append_iff.mp hcode
      obtain ⟨hrest, hback⟩ := Fetch.Holds.append_iff.mp hloop
      obtain ⟨hbody, hupdate⟩ := Fetch.Holds.append_iff.mp hrest
      refine .plain hinit (init.code_plain pc) (init.code_skips pc).inside ?_
      rw [size_append, ← Nat.add_assoc] at hback
      refine .loop fun j hj hsafe => body.code_safe hret hbody fun _ => ?_
      exact .plain hupdate (Expr.discardedCode?_plain update _)
        (Expr.discardedCode?_skips update _).inside (.jump (Fetch.Holds.cons_iff.mp hback).1 hsafe)
  | .forLoop _ init (some cond) update body, pc, slot, k, hret, hcode, hstop => by
      rw [Stmt.code_forLoop] at hcode hstop
      obtain ⟨hinit, hloop⟩ := Fetch.Holds.append_iff.mp hcode
      obtain ⟨hfirst, hback⟩ := Fetch.Holds.append_iff.mp hloop
      obtain ⟨hcond, hrest⟩ := Fetch.Holds.append_iff.mp hfirst
      obtain ⟨htest, hrest⟩ := Fetch.Holds.cons_iff.mp hrest
      obtain ⟨hbody, hupdate⟩ := Fetch.Holds.append_iff.mp hrest
      rw [size_append, size_cons, size_append] at hback
      dsimp only at hstop
      simp only [size_append, size_cons, size_nil, Nat.add_zero, ← Nat.add_assoc] at hback hstop
      refine .plain hinit (init.code_plain pc) (init.code_skips pc).inside ?_
      refine .loop fun j hj hsafe => .test hcond htest ?_ fun hfalse => ?_
      · refine body.code_safe hret hbody fun _ => ?_
        refine .plain hupdate (Expr.discardedCode?_plain update _)
          (Expr.discardedCode?_skips update _).inside ?_
        exact (Fetch.Safe.jump (Fetch.Holds.cons_iff.mp hback).1 hsafe).mono (Nat.le_succ j)
      · exact (hstop (by rw [Stmt.completes, Option.any_some, hfalse]; rfl)).mono (Nat.le_of_lt hj)
  | .ret _ none, pc, slot, k, hret, hcode, hstop => nomatch hret none List.mem_cons_self
  | .ret _ (some e), pc, slot, k, hret, hcode, hstop => by
      obtain ⟨he, hleave⟩ := Fetch.Holds.append_iff.mp hcode
      exact .plain he (e.code_plain pc) (e.code_skips pc).inside
        (.leaves (Fetch.Holds.cons_iff.mp hleave).1 (.inl rfl))
  | .throw _ e, pc, slot, k, hret, hcode, hstop => by
      obtain ⟨he, hleave⟩ := Fetch.Holds.append_iff.mp hcode
      exact .plain he (e.code_plain pc) (e.code_skips pc).inside
        (.leaves (Fetch.Holds.cons_iff.mp hleave).1 (.inr rfl))
  | .synchronized _ lock _ body, pc, slot, k, hret, hcode, hstop => by
      rw [Stmt.code_synchronized] at hcode hstop
      obtain ⟨hfirst, hexit⟩ := Fetch.Holds.append_iff.mp hcode
      obtain ⟨hlock, hrest⟩ := Fetch.Holds.append_iff.mp hfirst
      obtain ⟨henter, hbody⟩ := Fetch.Holds.cons_iff.mp hrest
      obtain ⟨hload, hrelease⟩ := Fetch.Holds.cons_iff.mp hexit
      simp only [size_append, size_cons, size_nil, Nat.add_zero, ← Nat.add_assoc] at hload hrelease hstop
      refine .plain hlock (lock.lockCode_plain pc slot) (lock.lockCode_inside pc slot) ?_
      refine .next henter nofun rfl (Stmt.codeAll_safe body hret hbody fun hcompletes => ?_)
      exact .next hload nofun rfl (.next (Fetch.Holds.cons_iff.mp hrelease).1 nofun rfl
        (hstop hcompletes))
  | .expr _ e, pc, slot, k, hret, hcode, hstop =>
      .plain hcode (e.discardedCode_plain pc) (e.discardedCode_skips pc).inside (hstop rfl)
  | .empty _, pc, slot, k, hret, hcode, hstop => hstop rfl

theorem Stmt.codeAll_safe : ∀ (ss : List Stmt) {pc slot k : Nat},
    (∀ v ∈ Stmt.allReturned ss, v.isSome = true) → fetch.Holds pc (Stmt.codeAll pc slot ss) →
    (Stmt.allComplete ss = true → fetch.Safe T k (pc + size (Stmt.codeAll pc slot ss))) →
      fetch.Safe T k pc
  | [], pc, slot, k, hret, hcode, hstop => hstop rfl
  | s :: rest, pc, slot, k, hret, hcode, hstop => by
      obtain ⟨hs, hrest⟩ := Fetch.Holds.append_iff.mp hcode
      obtain ⟨hrets, hretrest⟩ := List.forall_mem_append.mp hret
      refine s.code_safe hrets hs fun hcompletes => ?_
      refine Stmt.codeAll_safe rest hretrest hrest fun hcompletes' => ?_
      rw [Nat.add_assoc, ← size_append]
      exact hstop (Bool.and_eq_true_iff.mpr ⟨hcompletes, hcompletes'⟩)

end

/-! ### Methods -/

/-- The body of a method that gives back a value never comes to its end. -/
theorem MethodDecl.code_safe {m : MethodDecl} {sig : MethodSig} (h : m.Concludes)
    (hbase : m.ret.base ≠ .void) (hcode : fetch.Holds 0 (m.code sig)) (k : Nat) :
    fetch.Safe T k 0 := by
  obtain ⟨hcompletes, hreturned⟩ := h hbase
  refine Stmt.codeAll_safe m.body.body hreturned (Fetch.Holds.append_iff.mp hcode).1 fun h => ?_
  rw [hcompletes] at h
  cases h

/-- Whether all runs of a method leave it with a value, throw, or go on: wherever a run comes to, it
is in front of the end of the code and not at an instruction that returns without a value, and it can
make a step unless it is at an instruction that returns a value or throws. -/
def MethodInfo.GivesValue (pool : ConstantPool) (info : MethodInfo) : Prop :=
  ∀ (V : Type) (T : Truth V) (pc : Nat) (stack : List V),
    Relation.ReflTransGen ((info.fetch pool).Moves T) (0, []) (pc, stack) →
      pc < info.code.length ∧ ∃ i, info.fetch pool pc = some i ∧ i ≠ .ret ∧
        ((∃ next, (info.fetch pool).Moves T (pc, stack) next) ∨ i = .retValue ∨ i = .throw)

/-- An instruction is found only in front of the end of the code. -/
theorem MethodInfo.lt_of_fetch {pool : ConstantPool} {info : MethodInfo} {pc : Nat}
    {i : Instr (Option String)} (h : info.fetch pool pc = some i) : pc < info.code.length := by
  by_contra hle
  rw [fetch, List.drop_eq_nil_of_le (Nat.le_of_not_lt hle), Instr.read?, Option.map_none] at h
  cases h

theorem MethodInfo.givesValue {pool : ConstantPool} {info : MethodInfo}
    (h : ∀ {V : Type} (T : Truth V) (k : Nat), (info.fetch pool).Safe T k 0) :
    info.GivesValue pool := by
  intro V T pc stack hrun
  obtain ⟨i, hi, hret, -⟩ := Fetch.Lasts.of_reaches (fun k => h T k []) hrun 1
  refine ⟨lt_of_fetch hi, i, hi, hret, ?_⟩
  rcases i.exists_leadsTo (T := T) pc stack with ⟨q, hq⟩ | hleaves
  · obtain ⟨stack', hstack⟩ := i.exists_leaves (T := T) stack
    exact .inl ⟨(q, stack'), i, hi, hq, hstack⟩
  · exact .inr (hleaves.resolve_left hret)

end ProbeLang
