import ProbeLang.Proofs.Analysis.Attribution
import ProbeLang.Proofs.Meaning.Machine

/-!
# Code does what statements mean

The code of an expression in the fragment leaves its value on the stack. A machine that runs the
code of a statement comes to what the statement ends with: to the place behind the code, to the same
return, to where it is stuck. If the statement has no outcome within a number of rounds, the machine
is still running after as many steps.

Nothing is said about the stack that a statement leaves: the value of a discarded expression stays
there if its type is `void`, as a variable of that type may be assigned to.
-/

namespace ProbeLang

open CodeM Code

variable {V : Type} {I : Interpretation V} {fetch : Fetch}

/-- Whether all slots that expressions name can be operands. -/
def Expr.SlotsFit (es : List Expr) : Prop :=
  ∀ x ∈ es, ∀ slot, x.localSlot? = some slot → slot < 65536

theorem slotOperand_toNat {slot : Nat} (h : slot < 65536) : (slotOperand slot).toNat = slot :=
  UInt16.toNat_ofNat_of_lt' h

/-! ## Expressions -/

namespace Status

/-- What a machine comes to when an expression has been evaluated. -/
def after (stop : Nat) (stack : List V) : Option (V × Slots V) → Status V
  | some (v, l) => .running stop (v :: stack) l
  | none => .stuck

/-- What follows an expression. If the expression has no value, so has nothing that follows. -/
theorem Reaches.after_bind {s : Status V} {mid stop : Nat} {stack stack' : List V}
    {r : Option (V × Slots V)} {f : V × Slots V → Option (V × Slots V)}
    (h : Reaches I fetch s (.after mid stack r))
    (h' : ∀ v l, Reaches I fetch (.running mid (v :: stack) l) (.after stop stack' (f (v, l)))) :
    Reaches I fetch s (.after stop stack' (r >>= f)) := by
  cases r with
  | none => exact h
  | some q => exact h.trans (h' q.1 q.2)

end Status

open Status

theorem exec_constant (c : Literal) (next : Nat) (stack : List V) (l : Slots V) :
    ∃ i : Instr String, SymbolicCode.constant c = [i] ∧
      (i.map some).exec I next stack l = .running next (I.literal c :: stack) l := by
  cases c <;> exact ⟨_, rfl, rfl⟩

theorem exec_unaryInstr (op : UnaryOp) (v : V) (next : Nat) (stack : List V) (l : Slots V) :
    ((unaryInstr op : Instr String).map some).exec I next (v :: stack) l =
      .after next stack ((I.unary op v).map (·, l)) := by
  cases op <;> simp only [unaryInstr, Instr.map, Instr.exec, Instr.work?]
  · cases I.unary .not v <;> rfl
  · cases I.unary .neg v <;> rfl

/-- The operators that take both values do what their instruction does. -/
theorem exec_binaryInstr {op : BinaryOp} (text : Bool) (hop : op.skipsOn = none) (a b : V)
    (next : Nat) (stack : List V) (l : Slots V) :
    ((binaryInstr text op : Instr String).map some).exec I next (b :: a :: stack) l =
      .after next stack ((I.operate text op a b).map (·, l)) := by
  cases op with
  | and | or => cases hop
  | add =>
      cases text
      · simp only [binaryInstr, Interpretation.operate, Bool.and_false, Bool.false_eq_true, if_false,
          Instr.map, Instr.exec, Instr.work?]
        cases I.binary .add a b <;> rfl
      · simp only [binaryInstr, Interpretation.operate, decide_true, Bool.and_true, if_true,
          Instr.map, Instr.exec, Instr.work?]
        cases I.concat a b <;> rfl
  | sub | mul | div | rem | eq | ne | lt | le | gt | ge =>
      simp only [binaryInstr, Interpretation.operate, reduceCtorEq, decide_false, Bool.false_and,
        Bool.false_eq_true, if_false, Instr.map, Instr.exec, Instr.work?]
      rcases I.binary _ a b with _ | c <;> rfl

/-- An operator that may leave out its right side does so on the value that its jump leads over it
with. -/
theorem skipInstr_of_skipsOn {op : BinaryOp} {truth : Bool} (h : op.skipsOn = some truth) :
    ∃ skip : Nat → Instr String, skipInstr op = some skip ∧
      ∀ target, (skip target).size = jumpSize ∧
        ∀ next v stack (l : Slots V), ((skip target).map some).exec I next (v :: stack) l =
          .running (if I.isTrue v = truth then target else next) stack l := by
  cases op <;> simp only [BinaryOp.skipsOn, Option.some.injEq, reduceCtorEq] at h
  · subst h
    refine ⟨.jumpIfFalse, rfl, fun target => ⟨rfl, fun next v stack l => ?_⟩⟩
    cases hv : I.isTrue v <;> simp [Instr.map, hv]
  · subst h
    refine ⟨.jumpIfTrue, rfl, fun target => ⟨rfl, fun next v stack l => ?_⟩⟩
    cases hv : I.isTrue v <;> simp [Instr.map, hv]

theorem skipInstr_of_skipsOn_none {op : BinaryOp} (h : op.skipsOn = none) :
    (skipInstr op : Option (Nat → Instr String)) = none := by
  cases op <;> first | rfl | cases h

/-- A copy of a value decides whether a jump leads over what would take the place of the value. -/
theorem skip_runs {skip : Instr String} {mid target : Nat} {truth : Bool} {a : V} {stack : List V}
    {l : Slots V} {r : Option (V × Slots V)} (hsize : skip.size = jumpSize)
    (hskip : ∀ next v stack (l : Slots V), (skip.map some).exec I next (v :: stack) l =
      .running (if I.isTrue v = truth then target else next) stack l)
    (hcode : fetch.Holds mid [.dup, skip, .pop])
    (hrest : Reaches I fetch (.running (mid + 7) stack l) (.after target stack r)) :
    Reaches I fetch (.running mid (a :: stack) l)
      (.after target stack (if I.isTrue a = truth then some (a, l) else r)) := by
  have hjump := (Fetch.Holds.cons_iff.mp hcode).2
  have hpop := (Fetch.Holds.cons_iff.mp hjump).2
  refine (hcode.reaches (a :: stack) l).trans ((hjump.reaches (a :: a :: stack) l).trans ?_)
  rw [hskip]
  split
  · exact .refl _
  · refine (Reaches.trans ?_ hrest)
    have hstep := hpop.reaches (I := I) (a :: stack) l
    rw [hsize] at hstep ⊢
    exact hstep

theorem Expr.exists_name_of_isLocal {n : Note} {target value : Expr}
    (h : (Expr.assign n target value).isLocal = true) : ∃ m ident, target = .name m ident := by
  cases target with
  | name m ident => exact ⟨m, ident, rfl⟩
  | _ => cases h

/-- The code of an expression leaves its value on the stack. -/
theorem Expr.code_runs : ∀ (e : Expr) {pc : Nat}, e.isLocal = true → SlotsFit e.preorder →
    fetch.Holds pc (e.code pc) → ∀ (stack : List V) (l : Slots V),
      Reaches I fetch (.running pc stack l)
        (.after (pc + size (e.code pc)) stack (e.eval I l))
  | .literal n c, pc, _, _, hcode, stack, l => by
      obtain ⟨i, hi, hexec⟩ := exec_constant (I := I) c (pc + size (SymbolicCode.constant c)) stack l
      have hsize : pc + size (SymbolicCode.constant c) = pc + i.size := by rw [hi]; rfl
      rw [Expr.code, hi] at hcode
      have hstep := hcode.reaches (I := I) stack l
      rw [← hsize, hexec] at hstep
      exact hstep
  | .name n ident, pc, hlocal, hslots, hcode, stack, l => by
      obtain ⟨slot, hr⟩ := Note.refers_of_isLocal hlocal
      have hslot : slot < 65536 := hslots _ (mem_preorder_self _) slot (by simp [localSlot?, note, hr])
      simp only [Expr.code, hr, Expr.eval] at hcode ⊢
      have hstep := hcode.reaches (I := I) stack l
      simp only [Instr.map, Instr.exec_load, slotOperand_toNat hslot] at hstep
      exact hstep
  | .unary n op e, pc, hlocal, hslots, hcode, stack, l => by
      rw [Expr.code] at hcode ⊢
      obtain ⟨he, hop⟩ := Fetch.Holds.append_iff.mp hcode
      have hrun := e.code_runs hlocal (fun x hx => hslots x (List.mem_cons_of_mem _ hx)) he stack l
      rw [Expr.eval]
      refine hrun.after_bind fun v l => ?_
      have hstep := hop.reaches (I := I) (v :: stack) l
      rw [exec_unaryInstr] at hstep
      have hsize : (unaryInstr op : Instr String).size = 1 := by cases op <;> rfl
      simp only [size_append, size_cons, size_nil, hsize, ← Nat.add_assoc] at hstep ⊢
      cases hv : I.unary op v <;> rw [hv] at hstep <;> exact hstep
  | .binary n op lhs rhs, pc, hlocal, hslots, hcode, stack, l => by
      have hslotsl : SlotsFit lhs.preorder := fun x hx =>
        hslots x (List.mem_cons_of_mem _ (List.mem_append_left _ hx))
      have hslotsr : SlotsFit rhs.preorder := fun x hx =>
        hslots x (List.mem_cons_of_mem _ (List.mem_append_right _ hx))
      obtain ⟨hlocall, hlocalr⟩ := Bool.and_eq_true_iff.mp hlocal
      rw [Expr.eval]
      cases hop : op.skipsOn with
      | none =>
          simp only [Expr.code, skipInstr_of_skipsOn_none hop] at hcode ⊢
          obtain ⟨hboth, hinstr⟩ := Fetch.Holds.append_iff.mp hcode
          obtain ⟨hl, hr⟩ := Fetch.Holds.append_iff.mp hboth
          refine (lhs.code_runs hlocall hslotsl hl stack l).after_bind fun a l => ?_
          refine (rhs.code_runs hlocalr hslotsr hr (a :: stack) l).after_bind fun b l => ?_
          have hstep := hinstr.reaches (I := I) (b :: a :: stack) l
          rw [exec_binaryInstr _ hop] at hstep
          have hsize : (binaryInstr (n.ty.any Ty.isString) op : Instr String).size = 1 := by
            cases op <;> first | rfl | (cases n.ty.any Ty.isString <;> rfl)
          simp only [size_append, size_cons, size_nil, hsize, ← Nat.add_assoc] at hstep ⊢
          cases hv : I.operate (n.ty.any Ty.isString) op a b <;> rw [hv] at hstep <;> exact hstep
      | some truth =>
          obtain ⟨skip, hskip, hjump⟩ := skipInstr_of_skipsOn (I := I) hop
          simp only [Expr.code, hskip] at hcode ⊢
          obtain ⟨hfront, hr⟩ := Fetch.Holds.append_iff.mp hcode
          obtain ⟨hl, hcopy⟩ := Fetch.Holds.append_iff.mp hfront
          refine (lhs.code_runs hlocall hslotsl hl stack l).after_bind fun a l => ?_
          generalize htarget : pc + size (lhs.code pc) + 7 +
            size (rhs.code (pc + size (lhs.code pc) + 7)) = target at hr hcopy ⊢
          obtain ⟨hsize, hexec⟩ := hjump target
          have hcopied : size [.dup, skip target, .pop] = 7 := by
            simp only [size_cons, hsize]
            rfl
          rw [size_append, hcopied, ← Nat.add_assoc] at hr
          rw [size_append, size_append, hcopied, ← Nat.add_assoc, ← Nat.add_assoc, htarget]
          refine skip_runs hsize hexec hcopy ?_
          rw [← htarget]
          exact rhs.code_runs hlocalr hslotsr hr stack l
  | .assign n target value, pc, hlocal, hslots, hcode, stack, l => by
      obtain ⟨m, ident, rfl⟩ := exists_name_of_isLocal hlocal
      obtain ⟨hname, hvalue⟩ := Bool.and_eq_true_iff.mp hlocal
      obtain ⟨slot, hr⟩ := Note.refers_of_isLocal hname
      have hslot : slot < 65536 := hslots (.name m ident)
        (List.mem_cons_of_mem _ (List.mem_append_left _ (mem_preorder_self _))) slot
        (by simp [localSlot?, note, hr])
      have hslotsv : SlotsFit value.preorder := fun x hx =>
        hslots x (List.mem_cons_of_mem _ (List.mem_append_right _ hx))
      simp only [Expr.code, hr, Expr.eval] at hcode ⊢
      obtain ⟨hv, hkeep⟩ := Fetch.Holds.append_iff.mp hcode
      refine (value.code_runs hvalue hslotsv hv stack l).after_bind fun v l => ?_
      refine (hkeep.reaches (v :: stack) l).trans ?_
      have hstep := (Fetch.Holds.cons_iff.mp hkeep).2.reaches (I := I) (v :: v :: stack) l
      simp only [Instr.map, Instr.exec_store, slotOperand_toNat hslot] at hstep
      rw [SymbolicCode.keepLocal, size_append]
      exact hstep
  | .this .., _, hlocal, _, _, _, _ | .field .., _, hlocal, _, _, _, _
  | .call .., _, hlocal, _, _, _, _ | .invoke .., _, hlocal, _, _, _, _
  | .new .., _, hlocal, _, _, _, _ | .newArray .., _, hlocal, _, _, _, _
  | .index .., _, hlocal, _, _, _, _ => nomatch hlocal

/-! ## Outcomes -/

namespace Status

variable {s t : Status V} {stop mid k m : Nat} {r : Option (Outcome V)}

/-- Whether a machine comes to what an outcome tells, where control goes on at a place. Without an
outcome it outlasts a number of steps. -/
def Meets (I : Interpretation V) (fetch : Fetch) (stop k : Nat) (s : Status V) :
    Option (Outcome V) → Prop
  | none => Outlasts I fetch k s
  | some (.next l) => ∃ stack, Reaches I fetch s (.running stop stack l)
  | some (.returned value l) => Reaches I fetch s (.returned value l)
  | some .fault => Reaches I fetch s .stuck

namespace Meets

theorem of_reaches (h : Reaches I fetch s t) (h' : Meets I fetch stop k t r) :
    Meets I fetch stop k s r := by
  rcases r with _ | (l | ⟨value, l⟩ | _)
  · exact Outlasts.of_reaches h h'
  · obtain ⟨stack, h'⟩ := h'
    exact ⟨stack, h.trans h'⟩
  · exact h.trans h'
  · exact h.trans h'

theorem mono (h : Meets I fetch stop k s r) (hm : m ≤ k) : Meets I fetch stop m s r := by
  rcases r with _ | (l | ⟨value, l⟩ | _)
  · exact Outlasts.mono h hm
  · exact h
  · exact h
  · exact h

/-- With a step in front a machine lasts longer. -/
theorem of_step (h : Meets I fetch stop k (s.step I fetch) r) :
    Meets I fetch stop (k + 1) s r := by
  rcases r with _ | (l | ⟨value, l⟩ | _)
  · exact Outlasts.of_step h
  all_goals exact of_reaches (t := s.step I fetch) ⟨1, rfl⟩ (by exact h)

theorem andThen {f : Slots V → Option (Outcome V)} (h : Meets I fetch mid k s r)
    (hf : ∀ stack l, Meets I fetch stop k (.running mid stack l) (f l)) :
    Meets I fetch stop k s (Outcome.andThen r f) := by
  rcases r with _ | (l | ⟨value, l⟩ | _)
  · exact h
  · obtain ⟨stack, h⟩ := h
    exact of_reaches h (hf stack l)
  · exact h
  · exact h

/-- Where a jump stands, control goes on where the jump leads. -/
theorem jump {c : SymbolicCode} (h : Meets I fetch mid k s r)
    (hjump : fetch.Holds mid (.jump stop :: c)) : Meets I fetch stop k s r := by
  rcases r with _ | (l | ⟨value, l⟩ | _)
  · exact h
  · obtain ⟨stack, h⟩ := h
    exact ⟨stack, h.trans (hjump.reaches stack l)⟩
  · exact h
  · exact h

end Meets

end Status

/-! ## Statements -/

section

variable {pc stop k n : Nat} {stack : List V} {l : Slots V}

theorem Expr.slotsFit {e : Expr} (hn : e.slotsNeeded n ≤ 65536) : SlotsFit e.preorder :=
  fun _ hx _ hs => Nat.lt_of_lt_of_le (foldl_slots_lt n hx hs) hn

/-- What follows the code of an expression finds its value on the stack. -/
theorem Expr.evalThen_meets {e : Expr} {f : V → Slots V → Option (Outcome V)} (he : e.isLocal = true)
    (hn : e.slotsNeeded n ≤ 65536) (hcode : fetch.Holds pc (e.code pc))
    (hf : ∀ v l, Meets I fetch stop k (.running (pc + size (e.code pc)) (v :: stack) l) (f v l)) :
    Meets I fetch stop k (.running pc stack l) (e.evalThen I l f) := by
  have hrun := e.code_runs (I := I) he (slotsFit hn) hcode stack l
  unfold Expr.evalThen
  rcases heval : e.eval I l with _ | ⟨v, l'⟩ <;> rw [heval] at hrun
  · exact hrun
  · exact .of_reaches hrun (hf v l')

theorem Expr.discardedCode_meets {e : Expr} (he : e.isLocal = true) (hn : e.slotsNeeded n ≤ 65536)
    (hcode : fetch.Holds pc (e.discardedCode pc)) :
    Meets I fetch (pc + size (e.discardedCode pc)) k (.running pc stack l)
      (e.evalThen I l fun _ l => some (.next l)) := by
  unfold Expr.discardedCode at hcode ⊢
  split at hcode
  · next hvoid =>
      rw [if_pos hvoid]
      exact Expr.evalThen_meets he hn hcode fun v l => ⟨v :: stack, .refl _⟩
  · next hvoid =>
      rw [if_neg hvoid]
      obtain ⟨hcode, hpop⟩ := Fetch.Holds.append_iff.mp hcode
      refine Expr.evalThen_meets he hn hcode fun v l => ⟨stack, ?_⟩
      rw [size_append, ← Nat.add_assoc]
      exact hpop.reaches (v :: stack) l

theorem Expr.discardedCode?_meets {e : Option Expr} (he : e.all Expr.isLocal = true)
    (hn : Expr.slotsNeeded? n e ≤ 65536) (hcode : fetch.Holds pc (Expr.discardedCode? pc e)) :
    Meets I fetch (pc + size (Expr.discardedCode? pc e)) k (.running pc stack l)
      (Expr.execDiscarded I e l) := by
  cases e with
  | none => exact ⟨stack, .refl _⟩
  | some e => exact Expr.discardedCode_meets he hn hcode

/-- If a condition is met, control goes on behind its jump, or else where the jump leads. -/
theorem Expr.test_meets {e : Expr} {f : Slots V → Option (Outcome V)} {c : SymbolicCode}
    (he : e.isLocal = true) (hn : e.slotsNeeded n ≤ 65536) (hcode : fetch.Holds pc (e.code pc))
    (hjump : fetch.Holds (pc + size (e.code pc)) (.jumpIfFalse stop :: c))
    (hf : ∀ stack l,
      Meets I fetch stop k (.running (pc + size (e.code pc) + jumpSize) stack l) (f l)) :
    Meets I fetch stop k (.running pc stack l) (Expr.test I (some e) l f) := by
  refine Expr.evalThen_meets he hn hcode fun v l => ?_
  have hstep := hjump.reaches (I := I) (v :: stack) l
  cases hv : I.isTrue v
  · simp only [Instr.map, Instr.exec_jumpIfFalse, hv, Bool.false_eq_true, if_false] at hstep ⊢
    exact ⟨stack, hstep⟩
  · simp only [Instr.map, Instr.exec_jumpIfFalse, hv, if_true] at hstep ⊢
    exact .of_reaches hstep (hf stack l)

theorem LocalVar.code_meets {d : LocalVar} (hlocal : d.init.all Expr.isLocal = true)
    (hslot : d.slot.isSome = true) (hn : d.slotsNeeded n ≤ 65536)
    (hcode : fetch.Holds pc (d.code pc)) :
    Meets I fetch (pc + size (d.code pc)) k (.running pc stack l) (d.exec I l) := by
  obtain ⟨slot, hslot⟩ := Option.isSome_iff_exists.mp hslot
  unfold LocalVar.slotsNeeded at hn
  rcases hinit : d.init with _ | e
  · simp only [LocalVar.code, LocalVar.exec, hinit]
    exact ⟨stack, .refl _⟩
  · rw [hinit] at hlocal
    simp only [LocalVar.code, LocalVar.exec, hinit, hslot, Option.elim_some] at hcode hn ⊢
    obtain ⟨hcode, hstore⟩ := Fetch.Holds.append_iff.mp hcode
    have hbound : slot < 65536 := by
      have := Nat.le_trans (e.le_slotsNeeded (max n (slot + 1))) hn
      omega
    refine Expr.evalThen_meets hlocal hn hcode fun v l => ⟨stack, ?_⟩
    have hstep := hstore.reaches (I := I) (v :: stack) l
    simp only [Instr.map, Instr.exec_store, slotOperand_toNat hbound] at hstep
    rw [size_append, ← Nat.add_assoc]
    exact hstep

theorem ForInit.code_meets {init : ForInit} (hlocal : init.isLocal = true)
    (hslots : ∀ d ∈ init.localVars, d.slot.isSome = true) (hn : init.slotsNeeded n ≤ 65536)
    (hcode : fetch.Holds pc (init.code pc)) :
    Meets I fetch (pc + size (init.code pc)) k (.running pc stack l) (init.exec I l) := by
  cases init with
  | none => exact ⟨stack, .refl _⟩
  | declare d => exact d.code_meets hlocal (hslots d List.mem_cons_self) hn hcode
  | expr pos e => exact Expr.discardedCode_meets hlocal hn hcode

/-- The rounds of a loop. Every round but the last takes the step of the jump back, so a loop with
rounds left over lasts for as many steps. -/
theorem loop_meets {cond update : Option Expr} {body : Slots V → Option (Outcome V)}
    {start inner mid back K : Nat} {c : SymbolicCode}
    (htest : ∀ {k : Nat} {f : Slots V → Option (Outcome V)},
      (∀ stack l, Meets I fetch stop k (.running inner stack l) (f l)) →
        ∀ stack l, Meets I fetch stop k (.running start stack l) (Expr.test I cond l f))
    (hbody : ∀ stack l, Meets I fetch mid K (.running inner stack l) (body l))
    (hupdate : ∀ {k : Nat} stack l,
      Meets I fetch back k (.running mid stack l) (Expr.execDiscarded I update l))
    (hjump : fetch.Holds back (.jump start :: c)) {rounds : Nat} (hK : rounds ≤ K) :
    ∀ stack l, Meets I fetch stop rounds (.running start stack l)
      (loop I cond update body rounds l) := by
  induction rounds with
  | zero => exact fun stack l => Outlasts.of_running start stack l
  | succ rounds ih =>
      refine htest fun stack l => ?_
      refine ((hbody stack l).mono hK).andThen fun stack l => ?_
      refine (hupdate stack l).andThen fun stack l => .of_step ?_
      rw [hjump.step]
      exact ih (Nat.le_of_succ_le hK) stack l

end

mutual

/-- The code of a statement does what the statement means. -/
theorem Stmt.code_meets : ∀ (s : Stmt) {pc slot n : Nat}, s.isLocal = true →
    (∀ d ∈ s.localVars, d.slot.isSome = true) → s.slotsNeeded n ≤ 65536 →
    fetch.Holds pc (s.code pc slot) → ∀ (rounds : Nat) (stack : List V) (l : Slots V),
      Meets I fetch (pc + size (s.code pc slot)) rounds (.running pc stack l) (s.exec I rounds l)
  | .block _ body, _, _, _, hlocal, hslots, hn, hcode, rounds, stack, l =>
      Stmt.codeAll_meets body hlocal hslots hn hcode rounds stack l
  | .declare d, _, _, _, hlocal, hslots, hn, hcode, rounds, stack, l =>
      d.code_meets hlocal (hslots d List.mem_cons_self) hn hcode
  | .ifThen _ cond s, pc, slot, n, hlocal, hslots, hn, hcode, rounds, stack, l => by
      have hle := Nat.le_trans (s.le_slotsNeeded _) hn
      simp only [Stmt.code, size_append, size_cons, ← Nat.add_assoc] at hcode ⊢
      obtain ⟨hcond, hjump⟩ := Fetch.Holds.append_iff.mp hcode
      have hs := (Fetch.Holds.cons_iff.mp hjump).2
      obtain ⟨hcl, hsl⟩ := Bool.and_eq_true_iff.mp hlocal
      refine Expr.test_meets hcl hle hcond hjump fun stack l => ?_
      exact s.code_meets hsl hslots hn hs rounds stack l
  | .ifElse _ cond s t, pc, slot, n, hlocal, hslots, hn, hcode, rounds, stack, l => by
      have hle := Nat.le_trans (t.le_slotsNeeded _) hn
      have hle' := Nat.le_trans (s.le_slotsNeeded _) hle
      obtain ⟨hslots, hslots'⟩ := List.forall_mem_append.mp hslots
      simp only [Stmt.code, size_append, size_cons, ← Nat.add_assoc] at hcode ⊢
      obtain ⟨hfront, hback⟩ := Fetch.Holds.append_iff.mp hcode
      obtain ⟨hcond, hjump⟩ := Fetch.Holds.append_iff.mp hfront
      have hs := (Fetch.Holds.cons_iff.mp hjump).2
      simp only [size_append, size_cons, ← Nat.add_assoc] at hback
      have ht := (Fetch.Holds.cons_iff.mp hback).2
      obtain ⟨hlocal, htl⟩ := Bool.and_eq_true_iff.mp hlocal
      obtain ⟨hcl, hsl⟩ := Bool.and_eq_true_iff.mp hlocal
      refine Expr.evalThen_meets hcl hle' hcond fun v l => ?_
      have hstep := hjump.reaches (I := I) (v :: stack) l
      cases hv : I.isTrue v
      · simp only [Instr.map, Instr.exec_jumpIfFalse, hv, Bool.false_eq_true, if_false] at hstep ⊢
        exact .of_reaches hstep (t.code_meets htl hslots' hn ht rounds stack l)
      · simp only [Instr.map, Instr.exec_jumpIfFalse, hv, if_true] at hstep ⊢
        refine .of_reaches hstep (Meets.jump ?_ hback)
        exact s.code_meets hsl hslots hle hs rounds stack l
  | .whileLoop _ cond body, pc, slot, n, hlocal, hslots, hn, hcode, rounds, stack, l => by
      have hle := Nat.le_trans (body.le_slotsNeeded _) hn
      simp only [Stmt.code, size_append, size_cons, size_nil, Nat.add_zero, ← Nat.add_assoc]
        at hcode ⊢
      obtain ⟨hfront, hback⟩ := Fetch.Holds.append_iff.mp hcode
      obtain ⟨hcond, hjump⟩ := Fetch.Holds.append_iff.mp hfront
      have hbody := (Fetch.Holds.cons_iff.mp hjump).2
      simp only [size_append, size_cons, ← Nat.add_assoc] at hback
      obtain ⟨hcl, hbl⟩ := Bool.and_eq_true_iff.mp hlocal
      refine loop_meets (fun hf stack l => Expr.test_meets hcl hle hcond hjump hf)
        (fun stack l => body.code_meets hbl hslots hn hbody rounds stack l)
        (fun stack l => ?_) hback (Nat.le_refl rounds) stack l
      exact ⟨stack, .refl _⟩
  | .forLoop _ init cond update body, pc, slot, n, hlocal, hslots, hn, hcode, rounds, stack, l => by
      obtain ⟨hlocal, hbody⟩ := Bool.and_eq_true_iff.mp hlocal
      obtain ⟨hlocal, hupdate⟩ := Bool.and_eq_true_iff.mp hlocal
      obtain ⟨hinit, hcond⟩ := Bool.and_eq_true_iff.mp hlocal
      have hle := Nat.le_trans (body.le_slotsNeeded _) hn
      have hle' := Nat.le_trans (Expr.le_slotsNeeded? update _) hle
      have hle'' := Nat.le_trans (Expr.le_slotsNeeded? cond _) hle'
      obtain ⟨hfirst, hlast⟩ := List.forall_mem_append.mp hslots
      cases cond with
      | none =>
          simp only [Stmt.code, size_append, size_cons, size_nil, Nat.add_zero, ← Nat.add_assoc]
            at hcode ⊢
          obtain ⟨hcode, hback⟩ := Fetch.Holds.append_iff.mp hcode
          obtain ⟨hcode, hu⟩ := Fetch.Holds.append_iff.mp hcode
          obtain ⟨hi, hb⟩ := Fetch.Holds.append_iff.mp hcode
          simp only [size_append, ← Nat.add_assoc] at hu hback
          refine (init.code_meets hinit hfirst hle'' hi).andThen fun stack l => ?_
          exact loop_meets (fun hf stack l => hf stack l)
            (fun stack l => body.code_meets hbody hlast hn hb rounds stack l)
            (fun stack l => Expr.discardedCode?_meets hupdate hle hu) hback (Nat.le_refl rounds)
            stack l
      | some cond =>
          simp only [Stmt.code, size_append, size_cons, size_nil, Nat.add_zero, ← Nat.add_assoc]
            at hcode ⊢
          obtain ⟨hcode, hback⟩ := Fetch.Holds.append_iff.mp hcode
          obtain ⟨hcode, hu⟩ := Fetch.Holds.append_iff.mp hcode
          obtain ⟨hcode, hjump⟩ := Fetch.Holds.append_iff.mp hcode
          obtain ⟨hi, hc⟩ := Fetch.Holds.append_iff.mp hcode
          simp only [size_append, size_cons, ← Nat.add_assoc] at hu hback hjump
          have hb := (Fetch.Holds.cons_iff.mp hjump).2
          refine (init.code_meets hinit hfirst hle'' hi).andThen fun stack l => ?_
          exact loop_meets
            (fun hf stack l => Expr.test_meets hcond hle' hc hjump hf)
            (fun stack l => body.code_meets hbody hlast hn hb rounds stack l)
            (fun stack l => Expr.discardedCode?_meets hupdate hle hu) hback (Nat.le_refl rounds)
            stack l
  | .ret _ value, pc, slot, n, hlocal, hslots, hn, hcode, rounds, stack, l => by
      cases value with
      | none => exact hcode.reaches stack l
      | some e =>
          obtain ⟨he, hret⟩ := Fetch.Holds.append_iff.mp hcode
          exact Expr.evalThen_meets hlocal hn he fun v l => hret.reaches (v :: stack) l
  | .expr _ e, _, _, _, hlocal, _, hn, hcode, rounds, stack, l =>
      Expr.discardedCode_meets hlocal hn hcode
  | .empty _, _, _, _, _, _, _, _, rounds, stack, l => ⟨stack, .refl _⟩

/-- The code of statements does what the statements mean. -/
theorem Stmt.codeAll_meets : ∀ (ss : List Stmt) {pc slot n : Nat}, Stmt.allLocal ss = true →
    (∀ d ∈ Stmt.allLocalVars ss, d.slot.isSome = true) → Stmt.allSlotsNeeded n ss ≤ 65536 →
    fetch.Holds pc (Stmt.codeAll pc slot ss) → ∀ (rounds : Nat) (stack : List V) (l : Slots V),
      Meets I fetch (pc + size (Stmt.codeAll pc slot ss)) rounds (.running pc stack l)
        (Stmt.execAll I rounds ss l)
  | [], _, _, _, _, _, _, _, rounds, stack, l => ⟨stack, .refl _⟩
  | s :: rest, pc, slot, n, hlocal, hslots, hn, hcode, rounds, stack, l => by
      obtain ⟨hslots, hslots'⟩ := List.forall_mem_append.mp hslots
      obtain ⟨hs, hrest⟩ := Fetch.Holds.append_iff.mp hcode
      have hle := Nat.le_trans (Stmt.le_allSlotsNeeded rest _) hn
      obtain ⟨hsl, hrestl⟩ := Bool.and_eq_true_iff.mp hlocal
      refine (s.code_meets hsl hslots hle hs rounds stack l).andThen fun stack l => ?_
      simp only [Stmt.codeAll, size_append, ← Nat.add_assoc]
      exact Stmt.codeAll_meets rest hrestl hslots' hn hrest rounds stack l

end

end ProbeLang
