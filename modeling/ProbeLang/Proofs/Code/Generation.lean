import ProbeLang.Proofs.Artifact.Interning
import ProbeLang.Proofs.Code.Symbolic
import ProbeLang.Proofs.Fallible

/-!
# The code that is made is the symbolic code

Making the code of a tree with a constant pool gives the symbolic code of the tree with every text
replaced by an index at which the pool has it (`Emits`). The pool only grows, the slots that are
taken are those that the symbolic code counts, and the lines that are noted stand at places where
instructions begin. The argument follows the recursion of the code generator; `Emits.append` joins
what two steps emit.
-/

namespace ProbeLang

/-- Code whose constants are looked up in a pool. -/
def Code.resolve (p : ConstantPool) (c : Code) : List (Instr (Option String)) :=
  c.map (Instr.map fun i => p.get? i.toNat)

/-- Symbolic code as the outcome of looking up constants. -/
def SymbolicCode.resolved (c : SymbolicCode) : List (Instr (Option String)) :=
  c.map (Instr.map some)

open CodeM Code SymbolicCode

namespace Code

@[simp] theorem resolve_append (p : ConstantPool) (c d : Code) :
    resolve p (c ++ d) = resolve p c ++ resolve p d :=
  List.map_append

@[simp] theorem resolved_append (c d : SymbolicCode) :
    resolved (c ++ d) = resolved c ++ resolved d :=
  List.map_append

theorem size_eq_of_resolve {p : ConstantPool} {c : Code} {a : SymbolicCode}
    (h : resolve p c = resolved a) : size c = size a := by
  have := congrArg size h
  simpa [resolve, resolved] using this

/-- Constants that can be looked up keep their texts when the pool grows. -/
theorem resolve_of_extends {p q : ConstantPool} (hq : q.Extends p) {c : Code} {a : SymbolicCode}
    (h : resolve p c = resolved a) : resolve q c = resolved a := by
  rw [← h]
  refine List.map_congr_left fun i hi => Instr.map_congr fun k hk => ?_
  have hmem : i.map (fun k => p.get? k.toNat) ∈ resolved a := by
    rw [← h]
    exact List.mem_map_of_mem hi
  obtain ⟨j, -, hj⟩ := List.mem_map.mp hmem
  have hs : (j.map some).constant? = some (p.get? k.toNat) := by rw [hj]; simp [hk]
  rw [Instr.constant?_map, Option.map_eq_some_iff] at hs
  obtain ⟨s, -, hs⟩ := hs
  rw [← hs, hq.get? hs.symm]

end Code

/-- Places and lines, last first, that may stand in the line table of code at a place. -/
structure LineMarks {κ : Type} (pc : Nat) (c : List (Instr κ)) (marks : List (Nat × Nat)) :
    Prop where
  ordered : marks.Pairwise fun later earlier => earlier.1 ≤ later.1
  starts : ∀ m ∈ marks, m.1 ∈ starts pc c

namespace LineMarks

variable {κ : Type}

theorem nil (pc : Nat) (c : List (Instr κ)) : LineMarks pc c [] :=
  ⟨.nil, by simp⟩

theorem append {pc : Nat} {c d : List (Instr κ)} {marks marks' : List (Nat × Nat)}
    (h : LineMarks pc c marks) (h' : LineMarks (pc + size c) d marks') :
    LineMarks pc (c ++ d) (marks' ++ marks) := by
  refine ⟨List.pairwise_append.mpr ⟨h'.ordered, h.ordered, fun m' hm' m hm => ?_⟩,
    fun m hm => ?_⟩
  · have := bounds_of_mem_starts (h.starts m hm)
    have := bounds_of_mem_starts (h'.starts m' hm')
    omega
  · rw [mem_starts_append]
    exact (List.mem_append.mp hm).symm.imp (h.starts m) (h'.starts m)

end LineMarks

/-- The largest number of slots that a method may have. -/
def maxSlots : Nat := 65535

/-- What a step that makes code for a place leaves behind: the code is the symbolic code, and the
step has taken some slots. -/
structure Emits (pc : Nat) (before : CodeState) (code : Code) (after : CodeState)
    (symbolic : SymbolicCode) (locks : Nat) : Prop where
  fits : after.pool.Fits
  extends_ : after.pool.Extends before.pool
  resolve : resolve after.pool code = resolved symbolic
  nextSlot : after.nextSlot = before.nextSlot + locks
  slots : before.nextSlot ≤ maxSlots → after.nextSlot ≤ maxSlots
  lines : ∃ marks, after.lines = marks ++ before.lines ∧ LineMarks pc symbolic marks

namespace Emits

variable {pc k l : Nat} {s₁ s₂ s₃ : CodeState} {c d : Code} {a b : SymbolicCode}

theorem size_eq (h : Emits pc s₁ c s₂ a k) : size c = size a :=
  size_eq_of_resolve h.resolve

/-- Code that names no constant. -/
theorem plain (pc : Nat) (hs : s₁.pool.Fits) (h : Code.resolve s₁.pool c = resolved a) :
    Emits pc s₁ c s₁ a 0 :=
  ⟨hs, .refl _, h, rfl, id, [], rfl, .nil _ _⟩

/-- What two steps emit one after the other. -/
theorem append (h : Emits pc s₁ c s₂ a k) (h' : Emits (pc + size a) s₂ d s₃ b l) :
    Emits pc s₁ (c ++ d) s₃ (a ++ b) (k + l) := by
  obtain ⟨marks, hmarks, hm⟩ := h.lines
  obtain ⟨marks', hmarks', hm'⟩ := h'.lines
  refine ⟨h'.fits, h'.extends_.trans h.extends_, ?_, ?_, h'.slots ∘ h.slots, marks' ++ marks, ?_,
    hm.append hm'⟩
  · rw [resolve_append, resolved_append, resolve_of_extends h'.extends_ h.resolve, h'.resolve]
  · rw [h'.nextSlot, h.nextSlot, Nat.add_assoc]
  · rw [hmarks', hmarks, List.append_assoc]

theorem append_at {pc' : Nat} (h : Emits pc s₁ c s₂ a k) (h' : Emits pc' s₂ d s₃ b l)
    (hpc : pc' = pc + size a) : Emits pc s₁ (c ++ d) s₃ (a ++ b) (k + l) :=
  h.append (hpc ▸ h')

/-- What a step without locks emits, and then another. -/
theorem andThen {pc' : Nat} (h : Emits pc s₁ c s₂ a 0) (h' : Emits pc' s₂ d s₃ b l)
    (hpc : pc' = pc + size a) : Emits pc s₁ (c ++ d) s₃ (a ++ b) l := by
  have := h.append_at h' hpc
  rwa [Nat.zero_add] at this

/-- What a step emits that takes a slot before. -/
theorem takeSlot (h : Emits pc { s₁ with nextSlot := s₁.nextSlot + 1 } c s₂ a k)
    (hs : s₁.nextSlot < maxSlots) : Emits pc s₁ c s₂ a (k + 1) :=
  ⟨h.fits, h.extends_, h.resolve, by rw [h.nextSlot, Nat.add_assoc, Nat.add_comm 1],
    fun _ => h.slots hs, h.lines⟩

/-- What a step emits with code behind it that names no constant. -/
theorem append_plain (h : Emits pc s₁ c s₂ a k) (hd : Code.resolve s₂.pool d = resolved b) :
    Emits pc s₁ (c ++ d) s₂ (a ++ b) k :=
  h.append (.plain _ h.fits hd)

end Emits

namespace CodeM

variable {s t : CodeState}

/-! ## Constants, slots and lines -/

theorem constant_ok {text : String} {i : UInt16} (h : (constant text).run s = .ok (i, t)) :
    ∃ pool, s.pool.intern text = .ok (i, pool) ∧ t = { s with pool } := by
  simp only [constant, StateT.run_bind, StateT.run_get, pure_bind] at h
  cases hp : s.pool.intern text with
  | error e =>
      rw [hp] at h
      cases h
  | ok r =>
      rw [hp] at h
      cases h
      exact ⟨r.2, rfl, rfl⟩

theorem pooled_emits (instr : {κ : Type} → κ → Instr κ) {text : String} {code : Code} (pc : Nat)
    (hs : s.pool.Fits) (h : (pooled instr text).run s = .ok (code, t))
    (natural : ∀ (f : UInt16 → Option String) k, (instr k).map f = instr (f k) := by
      intro f k; rfl)
    (natural' : (instr text).map some = instr (some text) := by rfl) :
    Emits pc s code t [instr text] 0 := by
  obtain ⟨k, s', hk, h⟩ := bind_ok h
  obtain ⟨rfl, rfl⟩ := pure_ok h
  obtain ⟨pool, hpool, rfl⟩ := constant_ok hk
  obtain ⟨hfits, hext, hget⟩ := ConstantPool.intern_eq_ok hs hpool
  refine ⟨hfits, hext, ?_, rfl, id, [], rfl, .nil _ _⟩
  simp only [Code.resolve, resolved, List.map_cons, List.map_nil]
  rw [natural, natural', hget]

theorem freshSlot_ok {slot : UInt16} (h : freshSlot.run s = .ok (slot, t)) :
    slot = UInt16.ofNat s.nextSlot ∧ t = { s with nextSlot := s.nextSlot + 1 } ∧
      s.nextSlot < maxSlots := by
  simp only [freshSlot, StateT.run_bind, StateT.run_get, pure_bind] at h
  split at h
  · next hlt =>
      cases h
      exact ⟨rfl, rfl, hlt⟩
  · cases h

theorem reserve_ok {n : Nat} (h : (reserve n).run s = .ok ((), t)) :
    t = { s with nextSlot := max s.nextSlot n } ∧ max s.nextSlot n ≤ maxSlots := by
  simp only [reserve, StateT.run_bind, StateT.run_get, pure_bind] at h
  split at h
  · next hle =>
      cases h
      exact ⟨rfl, hle⟩
  · cases h

theorem line_emits {debug : DebugInfo} {pc : Nat} {pos : Pos} (hs : s.pool.Fits)
    (h : (line debug pc pos).run s = .ok ((), t)) : Emits pc s [] t [] 0 := by
  have none_noted : Emits pc s [] s [] 0 := .plain pc hs rfl
  unfold line at h
  split at h
  · have ht : t = if s.lines.head?.map Prod.snd = some pos.line then s
        else { s with lines := (pc, pos.line) :: s.lines } := by
      cases h
      rfl
    split at ht
    · exact ht ▸ none_noted
    · subst ht
      refine ⟨hs, .refl _, rfl, rfl, id, [(pc, pos.line)], rfl, List.pairwise_singleton _ _, ?_⟩
      simp [Code.starts]
  · obtain ⟨-, rfl⟩ := pure_ok h
    exact none_noted

/-! ## Expressions -/

theorem literal_emits (pc : Nat) {v : Literal} {code : Code} (hs : s.pool.Fits)
    (h : (literal v).run s = .ok (code, t)) : Emits pc s code t (SymbolicCode.constant v) 0 := by
  cases v with
  | string text => exact pooled_emits .pushConst pc hs h
  | int n | bool b | char c | long n | null =>
      obtain ⟨rfl, rfl⟩ := pure_ok h
      exact .plain pc hs rfl

theorem create_emits (pc : Nat) {cls : String} {code : Code} (hs : s.pool.Fits)
    (h : (create cls).run s = .ok (code, t)) : Emits pc s code t (SymbolicCode.create cls) 0 := by
  obtain ⟨new, s₁, hnew, h⟩ := bind_ok h
  obtain ⟨init, s₂, hinit, h⟩ := bind_ok h
  obtain ⟨rfl, rfl⟩ := pure_ok h
  have enew := pooled_emits .new pc hs hnew
  have edup := enew.append_plain (d := [.dup]) (b := [.dup]) rfl
  rw [List.append_cons]
  exact edup.append (pooled_emits .invoke _ edup.fits hinit)

theorem keepLocal_emits {pc : Nat} (slot : Nat) {value : Code} {symbolic : SymbolicCode}
    (h : Emits pc s value t symbolic 0) :
    Emits pc s (keepLocal slot value) t (SymbolicCode.keepLocal slot symbolic) 0 :=
  h.append_plain rfl

theorem keepField_emits {pc : Nat} {isStatic : Bool} {reference : String} {value code : Code}
    {symbolic : SymbolicCode} {s' : CodeState} (hv : Emits pc s value s' symbolic 0)
    (h : (keepField isStatic reference value).run s' = .ok (code, t)) :
    Emits pc s code t (SymbolicCode.keepField isStatic reference symbolic) 0 := by
  cases isStatic with
  | true =>
      obtain ⟨put, s₁, hput, h⟩ := bind_ok h
      obtain ⟨rfl, rfl⟩ := pure_ok h
      have edup := hv.append_plain (d := [.dup]) (b := [.dup]) rfl
      rw [List.append_cons value, SymbolicCode.keepField, if_pos rfl, List.append_cons symbolic]
      exact edup.append (pooled_emits .putStatic _ edup.fits hput)
  | false =>
      obtain ⟨put, s₁, hput, h⟩ := bind_ok h
      obtain ⟨rfl, rfl⟩ := pure_ok h
      have edup := hv.append_plain (d := [.dupX1]) (b := [.dupX1]) rfl
      rw [List.append_cons value, SymbolicCode.keepField, if_neg Bool.false_ne_true,
        List.append_cons symbolic]
      exact edup.append (pooled_emits .putField _ edup.fits hput)

theorem nothing_emits (pc : Nat) {code : Code} (hs : s.pool.Fits)
    (h : (pure [] : CodeM Code).run s = .ok (code, t)) : Emits pc s code t [] 0 := by
  obtain ⟨rfl, rfl⟩ := pure_ok h
  exact .plain pc hs rfl

theorem self_emits (pc : Nat) (hs : s.pool.Fits) : Emits pc s thisCode s self 0 :=
  .plain pc hs rfl

mutual

theorem expr_emits : ∀ (e : Expr) {pc : Nat} {s t : CodeState} {code : Code},
    s.pool.Fits → (expr pc e).run s = .ok (code, t) → Emits pc s code t (e.code pc) 0
  | .literal _ v, pc, _, _, _, hs, h => literal_emits pc hs h
  | .name n ident, pc, s, _, _, hs, h => by
      rcases hr : n.refers with _ | (slot | ⟨owner, _ | _, d⟩ | ⟨owner, isStatic, d⟩ | cls | cls)
      all_goals simp only [expr, Expr.code, hr] at h ⊢
      case some.localVar =>
        obtain ⟨rfl, rfl⟩ := pure_ok h
        exact .plain pc hs rfl
      case some.field.false =>
        obtain ⟨get, s₁, hget, h⟩ := bind_ok h
        obtain ⟨rfl, rfl⟩ := pure_ok h
        exact (self_emits pc hs).append (pooled_emits .getField _ hs hget)
      case some.field.true => exact pooled_emits .getStatic pc hs h
      all_goals exact nothing_emits pc hs h
  | .this _, pc, _, _, _, hs, h => by
      simp only [expr] at h
      obtain ⟨rfl, rfl⟩ := pure_ok h
      exact self_emits pc hs
  | .field n target member, pc, s, _, _, hs, h => by
      rcases hr : n.refers with _ | (slot | ⟨owner, _ | _, d⟩ | ⟨owner, isStatic, d⟩ | cls | cls)
      all_goals simp only [expr, Expr.code, hr] at h ⊢
      case some.field.true => exact pooled_emits .getStatic pc hs h
      case some.field.false =>
        obtain ⟨code, s₁, hcode, h⟩ := bind_ok h
        obtain ⟨get, s₂, hget, h⟩ := bind_ok h
        obtain ⟨rfl, rfl⟩ := pure_ok h
        have ecode := expr_emits target hs hcode
        exact ecode.append (pooled_emits .getField _ ecode.fits hget)
      all_goals
        rcases hty : target.ty? with _ | ty
        · simp only [hty] at h ⊢
          exact nothing_emits pc hs h
        · cases ty <;> simp only [hty] at h ⊢
          case array =>
            obtain ⟨code, s₁, hcode, h⟩ := bind_ok h
            obtain ⟨rfl, rfl⟩ := pure_ok h
            exact (expr_emits target hs hcode).append_plain rfl
          all_goals exact nothing_emits pc hs h
  | .call n callee args, pc, s, _, _, hs, h => by
      rcases hr : n.refers with _ | (slot | ⟨owner, isStatic, d⟩ | ⟨owner, _ | _, d⟩ | cls | cls)
      all_goals simp only [expr, Expr.code, hr] at h ⊢
      case some.method.true =>
        obtain ⟨code, s₁, hcode, h⟩ := bind_ok h
        obtain ⟨call, s₂, hcall, h⟩ := bind_ok h
        obtain ⟨rfl, rfl⟩ := pure_ok h
        have ecode := exprs_emits args hs hcode
        exact ecode.append (pooled_emits .invokeStatic _ ecode.fits hcall)
      case some.method.false =>
        obtain ⟨code, s₁, hcode, h⟩ := bind_ok h
        obtain ⟨call, s₂, hcall, h⟩ := bind_ok h
        obtain ⟨rfl, rfl⟩ := pure_ok h
        have ecode := exprs_emits args hs hcode
        exact ((self_emits pc hs).append ecode).append
          (pooled_emits .invoke _ ecode.fits hcall)
      all_goals exact nothing_emits pc hs h
  | .invoke n target callee args, pc, s, _, _, hs, h => by
      rcases hr : n.refers with _ | (slot | ⟨owner, isStatic, d⟩ | ⟨owner, _ | _, d⟩ | cls | cls)
      all_goals simp only [expr, Expr.code, hr] at h ⊢
      case some.method.true =>
        obtain ⟨code, s₁, hcode, h⟩ := bind_ok h
        obtain ⟨call, s₂, hcall, h⟩ := bind_ok h
        obtain ⟨rfl, rfl⟩ := pure_ok h
        have ecode := exprs_emits args hs hcode
        exact ecode.append (pooled_emits .invokeStatic _ ecode.fits hcall)
      case some.method.false =>
        obtain ⟨code, s₁, hcode, h⟩ := bind_ok h
        obtain ⟨more, s₂, hmore, h⟩ := bind_ok h
        obtain ⟨call, s₃, hcall, h⟩ := bind_ok h
        obtain ⟨rfl, rfl⟩ := pure_ok h
        have ecode := expr_emits target hs hcode
        rw [ecode.size_eq] at hmore
        have emore := exprs_emits args ecode.fits hmore
        exact (ecode.append emore).append (pooled_emits .invoke _ emore.fits hcall)
      all_goals exact nothing_emits pc hs h
  | .new n type args, pc, s, _, _, hs, h => by
      rcases hr : n.refers with _ | (slot | ⟨owner, isStatic, d⟩ | ⟨owner, isStatic, d⟩ | cls | cls)
      all_goals simp only [expr, Expr.code, hr] at h ⊢
      case some.cls => exact create_emits pc hs h
      all_goals exact nothing_emits pc hs h
  | .newArray n elem length, pc, s, _, _, hs, h => by
      simp only [expr, Expr.code] at h ⊢
      obtain ⟨code, s₁, hcode, h⟩ := bind_ok h
      obtain ⟨new, s₂, hnew, h⟩ := bind_ok h
      obtain ⟨rfl, rfl⟩ := pure_ok h
      have ecode := expr_emits length hs hcode
      exact ecode.append (pooled_emits .newArray _ ecode.fits hnew)
  | .index _ target i, pc, s, _, _, hs, h => by
      simp only [expr, Expr.code] at h ⊢
      obtain ⟨code, s₁, hcode, h⟩ := bind_ok h
      obtain ⟨at_, s₂, hat, h⟩ := bind_ok h
      obtain ⟨rfl, rfl⟩ := pure_ok h
      have ecode := expr_emits target hs hcode
      rw [ecode.size_eq] at hat
      exact (ecode.append (expr_emits i ecode.fits hat)).append_plain rfl
  | .unary _ op operand, pc, s, _, _, hs, h => by
      simp only [expr, Expr.code] at h ⊢
      obtain ⟨code, s₁, hcode, h⟩ := bind_ok h
      obtain ⟨rfl, rfl⟩ := pure_ok h
      exact (expr_emits operand hs hcode).append_plain (by cases op <;> rfl)
  | .binary n op lhs rhs, pc, s, _, _, hs, h => by
      simp only [expr, Expr.code] at h ⊢
      obtain ⟨left, s₁, hleft, h⟩ := bind_ok h
      have eleft := expr_emits lhs hs hleft
      rw [eleft.size_eq] at h
      cases op with
      | and | or =>
          simp only [skipInstr] at h ⊢
          obtain ⟨right, s₂, hright, h⟩ := bind_ok h
          obtain ⟨rfl, rfl⟩ := pure_ok h
          have eright := expr_emits rhs eleft.fits hright
          rw [eright.size_eq]
          exact (eleft.append_plain rfl).append_at eright (by simp [Instr.size, Nat.add_assoc])
      | add | sub | mul | div | rem | eq | ne | lt | le | gt | ge =>
          simp only [skipInstr] at h ⊢
          obtain ⟨right, s₂, hright, h⟩ := bind_ok h
          obtain ⟨rfl, rfl⟩ := pure_ok h
          refine (eleft.append (expr_emits rhs eleft.fits hright)).append_plain ?_
          first | rfl | cases n.ty.any Ty.isString <;> rfl
  | .assign n target value, pc, s, _, _, hs, h => by
      cases target with
      | name m ident =>
          rcases hr : m.refers with _ | (slot | ⟨owner, _ | _, d⟩ | ⟨owner, st, d⟩ | cls | cls)
          all_goals simp only [expr, Expr.code, hr] at h ⊢
          case some.localVar =>
            obtain ⟨code, s₁, hcode, h⟩ := bind_ok h
            obtain ⟨rfl, rfl⟩ := pure_ok h
            exact keepLocal_emits slot (expr_emits value hs hcode)
          case some.field.false =>
            obtain ⟨code, s₁, hcode, h⟩ := bind_ok h
            obtain ⟨put, s₂, hput, h⟩ := bind_ok h
            obtain ⟨rfl, rfl⟩ := pure_ok h
            exact (self_emits pc hs).append (keepField_emits (expr_emits value hs hcode) hput)
          case some.field.true =>
            obtain ⟨code, s₁, hcode, h⟩ := bind_ok h
            obtain ⟨put, s₂, hput, h⟩ := bind_ok h
            obtain ⟨rfl, rfl⟩ := pure_ok h
            exact keepField_emits (expr_emits value hs hcode) hput
          all_goals exact expr_emits value hs h
      | field m of member =>
          rcases hr : m.refers with _ | (slot | ⟨owner, _ | _, d⟩ | ⟨owner, st, d⟩ | cls | cls)
          all_goals simp only [expr, Expr.code, hr] at h ⊢
          case some.localVar =>
            obtain ⟨code, s₁, hcode, h⟩ := bind_ok h
            obtain ⟨rfl, rfl⟩ := pure_ok h
            exact keepLocal_emits slot (expr_emits value hs hcode)
          case some.field.false =>
            obtain ⟨first, s₁, hfirst, h⟩ := bind_ok h
            obtain ⟨code, s₂, hcode, h⟩ := bind_ok h
            obtain ⟨put, s₃, hput, h⟩ := bind_ok h
            obtain ⟨rfl, rfl⟩ := pure_ok h
            have efirst := expr_emits of hs hfirst
            rw [efirst.size_eq] at hcode
            exact efirst.append (keepField_emits (expr_emits value efirst.fits hcode) hput)
          case some.field.true =>
            obtain ⟨code, s₁, hcode, h⟩ := bind_ok h
            exact keepField_emits (expr_emits value hs hcode) h
          all_goals exact expr_emits value hs h
      | index m of i =>
          rcases hr : m.refers with _ | (slot | ⟨owner, _ | _, d⟩ | ⟨owner, st, d⟩ | cls | cls)
          all_goals simp only [expr, Expr.code, hr] at h ⊢
          case some.localVar =>
            obtain ⟨code, s₁, hcode, h⟩ := bind_ok h
            obtain ⟨rfl, rfl⟩ := pure_ok h
            exact keepLocal_emits slot (expr_emits value hs hcode)
          all_goals
            obtain ⟨first, s₁, hfirst, h⟩ := bind_ok h
            obtain ⟨second, s₂, hsecond, h⟩ := bind_ok h
            obtain ⟨code, s₃, hcode, h⟩ := bind_ok h
            obtain ⟨rfl, rfl⟩ := pure_ok h
            have efirst := expr_emits of hs hfirst
            rw [efirst.size_eq] at hsecond hcode
            have esecond := expr_emits i efirst.fits hsecond
            rw [esecond.size_eq] at hcode
            have ecode := expr_emits value esecond.fits hcode
            exact ((efirst.append esecond).append_at ecode
              (by simp [Nat.add_assoc])).append_plain rfl
      | literal m _ | this m | call m _ _ | invoke m _ _ _ | new m _ _ | newArray m _ _
      | unary m _ _ | binary m _ _ _ | assign m _ _ =>
          rcases hr : m.refers with _ | (slot | ⟨owner, st, d⟩ | ⟨owner, st, d⟩ | cls | cls)
          all_goals simp only [expr, Expr.code, Expr.note, hr] at h ⊢
          case some.localVar =>
            obtain ⟨code, s₁, hcode, h⟩ := bind_ok h
            obtain ⟨rfl, rfl⟩ := pure_ok h
            exact keepLocal_emits slot (expr_emits value hs hcode)
          all_goals exact expr_emits value hs h

theorem exprs_emits : ∀ (es : List Expr) {pc : Nat} {s t : CodeState} {code : Code},
    s.pool.Fits → (exprs pc es).run s = .ok (code, t) → Emits pc s code t (Expr.codeAll pc es) 0
  | [], pc, _, _, _, hs, h => nothing_emits pc hs h
  | e :: rest, pc, s, _, _, hs, h => by
      simp only [exprs, Expr.codeAll] at h ⊢
      obtain ⟨code, s₁, hcode, h⟩ := bind_ok h
      obtain ⟨more, s₂, hmore, h⟩ := bind_ok h
      obtain ⟨rfl, rfl⟩ := pure_ok h
      have ecode := expr_emits e hs hcode
      rw [ecode.size_eq] at hmore
      exact ecode.append (exprs_emits rest ecode.fits hmore)

end

theorem discarded_emits (e : Expr) {pc : Nat} {code : Code} (hs : s.pool.Fits)
    (h : (discarded pc e).run s = .ok (code, t)) : Emits pc s code t (e.discardedCode pc) 0 := by
  obtain ⟨code, s₁, hcode, h⟩ := bind_ok h
  obtain ⟨rfl, rfl⟩ := pure_ok h
  have ecode := expr_emits e hs hcode
  unfold Expr.discardedCode
  split
  · exact ecode
  · exact ecode.append_plain rfl

theorem discarded?_emits (e : Option Expr) {pc : Nat} {code : Code} (hs : s.pool.Fits)
    (h : (discarded? pc e).run s = .ok (code, t)) :
    Emits pc s code t (Expr.discardedCode? pc e) 0 := by
  cases e with
  | none => exact nothing_emits pc hs h
  | some e => exact discarded_emits e hs h

/-! ## Statements -/

theorem localVar_emits (d : LocalVar) {pc : Nat} {code : Code} (hs : s.pool.Fits)
    (h : (localVar pc d).run s = .ok (code, t)) : Emits pc s code t (d.code pc) 0 := by
  rcases he : d.init with _ | e <;> rcases hslot : d.slot with _ | slot
  all_goals simp only [localVar, LocalVar.code, he, hslot] at h ⊢
  case some.some =>
    obtain ⟨code, s₁, hcode, h⟩ := bind_ok h
    obtain ⟨rfl, rfl⟩ := pure_ok h
    exact (expr_emits e hs hcode).append_plain rfl
  all_goals exact nothing_emits pc hs h

/-- What follows the note of a line. -/
theorem line_bind_emits {debug : DebugInfo} {pc k : Nat} {pos : Pos} {m : CodeM Code}
    {code : Code} {a : SymbolicCode} (hs : s.pool.Fits)
    (h : (line debug pc pos >>= fun _ => m).run s = .ok (code, t))
    (hm : ∀ s', s'.pool.Fits → s'.nextSlot = s.nextSlot → m.run s' = .ok (code, t) →
      Emits pc s' code t a k) :
    Emits pc s code t a k := by
  obtain ⟨⟨⟩, s₁, hline, h⟩ := bind_ok h
  have eline := line_emits hs hline
  exact eline.andThen (hm s₁ eline.fits eline.nextSlot h) rfl

theorem forInit_emits (debug : DebugInfo) (init : ForInit) {pc : Nat} {code : Code}
    (hs : s.pool.Fits) (h : (forInit debug pc init).run s = .ok (code, t)) :
    Emits pc s code t (init.code pc) 0 := by
  cases init with
  | none => exact nothing_emits pc hs h
  | declare d => exact line_bind_emits hs h fun _ hs' _ h' => localVar_emits d hs' h'
  | expr pos e => exact line_bind_emits hs h fun _ hs' _ h' => discarded_emits e hs' h'

mutual

theorem stmt_emits (debug : DebugInfo) : ∀ (st : Stmt) {pc : Nat} {s t : CodeState} {code : Code},
    s.pool.Fits → (stmt debug pc st).run s = .ok (code, t) →
      Emits pc s code t (st.code pc s.nextSlot) st.locks
  | .block pos body, pc, s, _, _, hs, h => by
      simp only [stmt] at h
      refine line_bind_emits hs h fun s₁ hs₁ hslot h => ?_
      obtain ⟨more, rfl, emore⟩ := stmts_emits debug body hs₁ h
      rwa [hslot] at emore
  | .declare d, pc, s, _, _, hs, h => by
      simp only [stmt] at h
      exact line_bind_emits hs h fun s₁ hs₁ _ h => localVar_emits d hs₁ h
  | .ifThen pos cond st, pc, s, _, _, hs, h => by
      simp only [stmt] at h
      refine line_bind_emits hs h fun s₁ hs₁ hslot h => ?_
      obtain ⟨test, s₂, htest, h⟩ := bind_ok h
      obtain ⟨code, s₃, hcode, h⟩ := bind_ok h
      obtain ⟨rfl, rfl⟩ := pure_ok h
      have etest := expr_emits cond hs₁ htest
      rw [etest.size_eq] at hcode
      have ecode := stmt_emits debug st etest.fits hcode
      rw [etest.nextSlot, hslot] at ecode
      rw [Stmt.code, Stmt.locks, etest.size_eq, ecode.size_eq]
      rw [List.append_cons test, List.append_cons (Expr.code pc cond)]
      refine (etest.append_plain ?_).andThen ecode ?_
      · rfl
      · simp [Instr.size, jumpSize, Nat.add_assoc]
  | .ifElse pos cond st other, pc, s, _, _, hs, h => by
      simp only [stmt] at h
      refine line_bind_emits hs h fun s₁ hs₁ hslot h => ?_
      obtain ⟨test, s₂, htest, h⟩ := bind_ok h
      obtain ⟨code, s₃, hcode, h⟩ := bind_ok h
      obtain ⟨more, s₄, hmore, h⟩ := bind_ok h
      obtain ⟨rfl, rfl⟩ := pure_ok h
      have etest := expr_emits cond hs₁ htest
      rw [etest.size_eq] at hcode hmore
      have ecode := stmt_emits debug st etest.fits hcode
      rw [ecode.size_eq] at hmore
      have emore := stmt_emits debug other ecode.fits hmore
      rw [ecode.nextSlot] at emore
      rw [etest.nextSlot, hslot] at ecode emore
      rw [Stmt.code, Stmt.locks, etest.size_eq, ecode.size_eq, emore.size_eq]
      rw [List.append_cons test, List.append_cons (Expr.code pc cond),
        List.append_cons (_ ++ code), List.append_cons (_ ++ Stmt.code _ _ st)]
      refine (((etest.append_plain ?_).andThen ecode ?_).append_plain ?_).append_at emore ?_
      · rfl
      · simp [Instr.size, jumpSize, Nat.add_assoc]
      · rfl
      · simp [Instr.size, jumpSize, Nat.add_assoc]
  | .whileLoop pos cond body, pc, s, _, _, hs, h => by
      simp only [stmt] at h
      refine line_bind_emits hs h fun s₁ hs₁ hslot h => ?_
      obtain ⟨test, s₂, htest, h⟩ := bind_ok h
      obtain ⟨code, s₃, hcode, h⟩ := bind_ok h
      obtain ⟨rfl, rfl⟩ := pure_ok h
      have etest := expr_emits cond hs₁ htest
      rw [etest.size_eq] at hcode
      have ecode := stmt_emits debug body etest.fits hcode
      rw [etest.nextSlot, hslot] at ecode
      rw [Stmt.code, Stmt.locks, etest.size_eq, ecode.size_eq]
      rw [List.append_cons test, List.append_cons (Expr.code pc cond)]
      refine ((etest.append_plain ?_).andThen ecode ?_).append_plain ?_
      · rfl
      · simp [Instr.size, jumpSize, Nat.add_assoc]
      · rfl
  | .forLoop pos init none update body, pc, s, _, _, hs, h => by
      simp only [stmt] at h
      refine line_bind_emits hs h fun s₁ hs₁ hslot h => ?_
      obtain ⟨start, s₂, hstart, h⟩ := bind_ok h
      obtain ⟨code, s₃, hcode, h⟩ := bind_ok h
      obtain ⟨more, s₄, hmore, h⟩ := bind_ok h
      obtain ⟨rfl, rfl⟩ := pure_ok h
      have estart := forInit_emits debug init hs₁ hstart
      rw [estart.size_eq] at hcode hmore
      have ecode := stmt_emits debug body estart.fits hcode
      rw [ecode.size_eq] at hmore
      rw [estart.nextSlot, hslot] at ecode hmore
      have emore := discarded?_emits update ecode.fits hmore
      rw [Stmt.code, Stmt.locks, estart.size_eq]
      refine ((estart.andThen ecode rfl).append_at emore ?_).append_plain ?_
      · simp [Nat.add_assoc]
      · rfl
  | .forLoop pos init (some cond) update body, pc, s, _, _, hs, h => by
      simp only [stmt] at h
      refine line_bind_emits hs h fun s₁ hs₁ hslot h => ?_
      obtain ⟨start, s₂, hstart, h⟩ := bind_ok h
      obtain ⟨test, s₃, htest, h⟩ := bind_ok h
      obtain ⟨code, s₄, hcode, h⟩ := bind_ok h
      obtain ⟨more, s₅, hmore, h⟩ := bind_ok h
      obtain ⟨rfl, rfl⟩ := pure_ok h
      have estart := forInit_emits debug init hs₁ hstart
      rw [estart.size_eq] at htest hcode hmore
      have etest := expr_emits cond estart.fits htest
      rw [etest.size_eq] at hcode hmore
      have ecode := stmt_emits debug body etest.fits hcode
      rw [ecode.size_eq] at hmore
      rw [etest.nextSlot, estart.nextSlot, hslot] at ecode hmore
      have emore := discarded?_emits update ecode.fits hmore
      rw [Stmt.code, Stmt.locks, estart.size_eq, etest.size_eq, ecode.size_eq, emore.size_eq]
      rw [List.append_cons (start ++ test), List.append_cons (init.code pc ++ _)]
      refine ((((estart.andThen etest rfl).append_plain ?_).andThen ecode ?_).append_at emore
        ?_).append_plain ?_
      · rfl
      · simp [Instr.size, jumpSize, Nat.add_assoc]
      · simp [Instr.size, jumpSize, Nat.add_assoc]
      · rfl
  | .ret pos none, pc, s, _, _, hs, h => by
      simp only [stmt] at h
      refine line_bind_emits hs h fun s₁ hs₁ _ h => ?_
      obtain ⟨rfl, rfl⟩ := pure_ok h
      exact .plain pc hs₁ rfl
  | .ret pos (some e), pc, s, _, _, hs, h => by
      simp only [stmt] at h
      refine line_bind_emits hs h fun s₁ hs₁ _ h => ?_
      obtain ⟨code, s₂, hcode, h⟩ := bind_ok h
      obtain ⟨rfl, rfl⟩ := pure_ok h
      exact (expr_emits e hs₁ hcode).append_plain rfl
  | .throw pos e, pc, s, _, _, hs, h => by
      simp only [stmt] at h
      refine line_bind_emits hs h fun s₁ hs₁ _ h => ?_
      obtain ⟨code, s₂, hcode, h⟩ := bind_ok h
      obtain ⟨rfl, rfl⟩ := pure_ok h
      exact (expr_emits e hs₁ hcode).append_plain rfl
  | .synchronized pos lock bodyPos body, pc, s, _, _, hs, h => by
      simp only [stmt] at h
      refine line_bind_emits hs h fun s₁ hs₁ hslot h => ?_
      obtain ⟨slot, s₂, hfresh, h⟩ := bind_ok h
      obtain ⟨rfl, rfl, hlt⟩ := freshSlot_ok hfresh
      obtain ⟨first, s₃, hfirst, h⟩ := bind_ok h
      obtain ⟨more, s₄, hmore, h⟩ := bind_ok h
      obtain ⟨rfl, rfl⟩ := pure_ok h
      have efirst := expr_emits lock (by exact hs₁) hfirst
      have eenter := efirst.append_plain (d := [.dup, .store (UInt16.ofNat s₁.nextSlot),
        .monitorEnter]) (b := [.dup, .store (UInt16.ofNat s₁.nextSlot), .monitorEnter]) rfl
      rw [eenter.size_eq] at hmore
      obtain ⟨code, rfl, ecode⟩ := stmts_emits debug body eenter.fits hmore
      rw [eenter.nextSlot] at ecode
      have e := ((eenter.andThen ecode rfl).append_plain (d := [.load (UInt16.ofNat s₁.nextSlot),
        .monitorExit]) (b := [.load (UInt16.ofNat s₁.nextSlot), .monitorExit]) rfl).takeSlot hlt
      rw [Stmt.code, ← hslot]
      exact e
  | .expr pos e, pc, s, _, _, hs, h => by
      simp only [stmt] at h
      exact line_bind_emits hs h fun s₁ hs₁ _ h => discarded_emits e hs₁ h
  | .empty pos, pc, s, _, _, hs, h => by
      simp only [stmt] at h
      exact line_bind_emits hs h fun s₁ hs₁ _ h => nothing_emits pc hs₁ h

theorem stmts_emits (debug : DebugInfo) : ∀ (sts : List Stmt) {pc : Nat} {done : List Code}
    {s t : CodeState} {code : Code},
    s.pool.Fits → (stmts debug pc done sts).run s = .ok (code, t) →
      ∃ more, code = done.reverse.flatten ++ more ∧
        Emits pc s more t (Stmt.codeAll pc s.nextSlot sts) (Stmt.locksAll sts)
  | [], pc, done, s, _, _, hs, h => by
      obtain ⟨rfl, rfl⟩ := pure_ok h
      exact ⟨[], by simp, .plain pc hs rfl⟩
  | st :: rest, pc, done, s, _, _, hs, h => by
      simp only [stmts] at h
      obtain ⟨code, s₁, hcode, h⟩ := bind_ok h
      have ecode := stmt_emits debug st hs hcode
      rw [ecode.size_eq] at h
      obtain ⟨more, rfl, emore⟩ := stmts_emits debug rest ecode.fits h
      rw [ecode.nextSlot] at emore
      exact ⟨code ++ more, by simp, ecode.append emore⟩

end

end CodeM

end ProbeLang
