import ProbeLang.Proofs.Code.Symbolic

/-!
# Where jumps lead

All jumps in symbolic code lead to where an instruction of the same piece of code begins, or to its
end. Those in the code of an expression lead further on.
-/

namespace ProbeLang

open CodeM Code SymbolicCode

/-- Whether jumps stay in a piece of code and lead further on in it. -/
structure Code.Skips {κ : Type} (pc : Nat) (c : List (Instr κ)) : Prop where
  inside : JumpsInside pc c
  forward : JumpsForward pc c

namespace Code.Skips

variable {κ : Type} {pc : Nat} {c d : List (Instr κ)}

theorem of_straight (h : Straight c) (pc : Nat) : Skips pc c :=
  ⟨h.jumpsInside pc, h.jumpsForward pc⟩

theorem append (hc : Skips pc c) (hd : Skips (pc + size c) d) : Skips pc (c ++ d) :=
  ⟨hc.inside.append hd.inside, hc.forward.append hd.forward⟩

/-- Code with a jump over what stands behind. -/
theorem jump_over {i : Instr κ} (hc : Skips pc c) (hd : Skips (pc + size c + i.size) d)
    (hi : ∀ target, i.target? = some target → target = pc + size c + i.size + size d) :
    Skips pc (c ++ i :: d) := by
  refine ⟨hc.inside.jump_over hd.inside hi, ?_⟩
  rw [List.append_cons]
  refine (hc.forward.append (jumpsForward_singleton fun target ht => ?_)).append ?_
  · have := i.size_pos
    have := hi target ht
    omega
  · simpa [Nat.add_assoc] using hd.forward

/-- Code with a jump to another part, over a jump behind that part. -/
theorem branches {e : List (Instr κ)} {i j : Instr κ} (hc : Skips pc c)
    (hd : Skips (pc + size c + i.size) d)
    (he : Skips (pc + size c + i.size + size d + j.size) e)
    (hi : i.target? = some (pc + size c + i.size + size d + j.size))
    (hj : j.target? = some (pc + size c + i.size + size d + j.size + size e)) :
    Skips pc (c ++ i :: d ++ j :: e) := by
  refine ⟨hc.inside.branches hd.inside he.inside hi hj, ?_⟩
  have hsize := i.size_pos
  have hsize' := j.size_pos
  have htest : JumpsForward pc (c ++ [i]) :=
    hc.forward.append (jumpsForward_singleton fun target ht => by
      rw [hi] at ht
      cases ht
      omega)
  have hfirst : JumpsForward pc (c ++ i :: d) := by
    rw [List.append_cons]
    refine htest.append ?_
    simpa [Nat.add_assoc] using hd.forward
  have hplace : pc + size (c ++ i :: d) = pc + size c + i.size + size d := by
    simp [Nat.add_assoc]
  rw [List.append_cons _ j]
  refine (hfirst.append (jumpsForward_singleton fun target ht => ?_)).append ?_
  · rw [hj] at ht
    cases ht
    omega
  · have hend : pc + size (c ++ i :: d ++ [j]) = pc + size c + i.size + size d + j.size := by
      simp [Nat.add_assoc]
    exact hend ▸ he.forward

theorem append_straight (hc : Skips pc c) (hd : Straight d) : Skips pc (c ++ d) :=
  hc.append (.of_straight hd _)

end Code.Skips

/-! ## Expressions -/

theorem constant_straight (v : Literal) : Straight (SymbolicCode.constant v) := by
  cases v <;> simp [SymbolicCode.constant, Instr.target?]

theorem keepLocal_skips {pc : Nat} {c : SymbolicCode} (slot : Nat) (h : Skips pc c) :
    Skips pc (keepLocal slot c) :=
  h.append_straight (by simp [Instr.target?])

theorem keepField_skips {pc : Nat} {c : SymbolicCode} (isStatic : Bool) (reference : String)
    (h : Skips pc c) : Skips pc (keepField isStatic reference c) := by
  refine h.append_straight ?_
  cases isStatic <;> simp [Instr.target?]

mutual

theorem Expr.code_skips : ∀ (e : Expr) (pc : Nat), Skips pc (e.code pc)
  | .literal _ v, pc => .of_straight (constant_straight v) pc
  | .name n ident, pc => by
      refine .of_straight ?_ pc
      unfold Expr.code
      split <;> simp [Instr.target?, self]
  | .this _, pc => .of_straight (by simp [Expr.code, self, Instr.target?]) pc
  | .field n target member, pc => by
      unfold Expr.code
      split
      · exact .of_straight (by simp [Instr.target?]) pc
      · exact (target.code_skips pc).append_straight (by simp [Instr.target?])
      · split
        · exact (target.code_skips pc).append_straight (by simp [Instr.target?])
        · exact .of_straight straight_nil pc
  | .call n callee args, pc => by
      unfold Expr.code
      split
      · exact (codeAll_skips args pc).append_straight (by simp [Instr.target?])
      · refine Skips.append_straight (Skips.append (.of_straight ?_ pc) ?_) ?_
        · simp [self, Instr.target?]
        · exact codeAll_skips args _
        · simp [Instr.target?]
      · exact .of_straight straight_nil pc
  | .invoke n target callee args, pc => by
      unfold Expr.code
      split
      · exact (codeAll_skips args pc).append_straight (by simp [Instr.target?])
      · exact ((target.code_skips pc).append (codeAll_skips args _)).append_straight
          (by simp [Instr.target?])
      · exact .of_straight straight_nil pc
  | .new n type args, pc => by
      refine .of_straight ?_ pc
      unfold Expr.code
      split <;> simp [SymbolicCode.create, Instr.target?]
  | .newArray n elem length, pc => (length.code_skips pc).append_straight (by simp [Instr.target?])
  | .index _ target i, pc =>
      ((target.code_skips pc).append (i.code_skips _)).append_straight (by simp [Instr.target?])
  | .unary _ op operand, pc => by
      refine (operand.code_skips pc).append_straight ?_
      cases op <;> simp [unaryInstr, Instr.target?]
  | .binary n op lhs rhs, pc => by
      have hlhs := lhs.code_skips pc
      unfold Expr.code
      cases op with
      | and | or =>
          simp only [skipInstr]
          rw [List.append_assoc, List.cons_append, List.append_cons (lhs.code pc)]
          refine (hlhs.append_straight (by simp [Instr.target?])).jump_over ?_ ?_
          · refine Skips.append (c := [.pop]) (.of_straight ?_ _) ?_
            · simp [Instr.target?]
            · simpa [Instr.size, Nat.add_assoc] using rhs.code_skips (pc + size (lhs.code pc) + 7)
          · intro target ht
            simp [Instr.target?, Instr.size] at ht ⊢
            omega
      | add | sub | mul | div | rem | eq | ne | lt | le | gt | ge =>
          refine (hlhs.append (rhs.code_skips _)).append_straight ?_
          cases n.ty.any Ty.isString <;> simp [binaryInstr, Instr.target?]
  | .assign _ target value, pc => by
      cases target with
      | name m ident =>
          unfold Expr.code
          split
          · exact keepLocal_skips _ (value.code_skips pc)
          · next owner isStatic d _ =>
              refine Skips.append (.of_straight ?_ pc)
                (keepField_skips isStatic _ (value.code_skips _))
              cases isStatic <;> simp [self, Instr.target?]
          · exact value.code_skips pc
      | field m of member =>
          unfold Expr.code
          split
          · exact keepLocal_skips _ (value.code_skips pc)
          · exact keepField_skips true _ (value.code_skips pc)
          · exact (of.code_skips pc).append (keepField_skips false _ (value.code_skips _))
          · exact value.code_skips pc
      | index m of i =>
          unfold Expr.code
          split
          · exact keepLocal_skips _ (value.code_skips pc)
          · refine (((of.code_skips pc).append (i.code_skips _)).append ?_).append_straight ?_
            · have := value.code_skips
                (pc + size (of.code pc) + size (i.code (pc + size (of.code pc))))
              simpa [Nat.add_assoc] using this
            · simp [Instr.target?]
      | literal m _ | this m | call m _ _ | invoke m _ _ _ | new m _ _ | newArray m _ _
      | unary m _ _ | binary m _ _ _ | assign m _ _ =>
          unfold Expr.code
          split
          · exact keepLocal_skips _ (value.code_skips pc)
          · exact value.code_skips pc

theorem Expr.codeAll_skips : ∀ (es : List Expr) (pc : Nat), Skips pc (Expr.codeAll pc es)
  | [], pc => .of_straight straight_nil pc
  | e :: rest, pc => (e.code_skips pc).append (codeAll_skips rest _)

end

theorem Expr.discardedCode_skips (e : Expr) (pc : Nat) : Skips pc (e.discardedCode pc) := by
  unfold Expr.discardedCode
  split
  · exact e.code_skips pc
  · exact (e.code_skips pc).append_straight (by simp [Instr.target?])

theorem Expr.discardedCode?_skips (e : Option Expr) (pc : Nat) :
    Skips pc (Expr.discardedCode? pc e) := by
  cases e with
  | none => exact .of_straight straight_nil pc
  | some e => exact e.discardedCode_skips pc

theorem LocalVar.code_skips (d : LocalVar) (pc : Nat) : Skips pc (d.code pc) := by
  unfold LocalVar.code
  split
  · next e slot _ _ => exact (e.code_skips pc).append_straight (by simp [Instr.target?])
  · exact .of_straight straight_nil pc

theorem ForInit.code_skips (init : ForInit) (pc : Nat) : Skips pc (init.code pc) := by
  cases init with
  | none => exact .of_straight straight_nil pc
  | declare d => exact d.code_skips pc
  | expr pos e => exact e.discardedCode_skips pc

/-! ## Statements -/

mutual

theorem Stmt.code_inside : ∀ (s : Stmt) (pc slot : Nat), JumpsInside pc (s.code pc slot)
  | .block _ body, pc, slot => Stmt.codeAll_inside body pc slot
  | .declare d, pc, slot => (d.code_skips pc).inside
  | .ifThen _ cond s, pc, slot =>
      (cond.code_skips pc).inside.jump_over (s.code_inside _ slot) (fun _ ht => by cases ht; rfl)
  | .ifElse _ cond s t, pc, slot =>
      (cond.code_skips pc).inside.branches (s.code_inside _ slot)
        (t.code_inside _ (slot + s.locks)) rfl rfl
  | .whileLoop _ cond body, pc, slot =>
      (cond.code_skips pc).inside.loop (body.code_inside _ slot) (first_mem_starts pc _) rfl rfl
  | .forLoop _ init none update body, pc, slot => by
      refine JumpsInside.repeat (((init.code_skips pc).inside.append
        (body.code_inside _ slot)).append ?_) ?_ rfl
      · have := Expr.discardedCode?_skips update
          (pc + size (init.code pc) + size (body.code (pc + size (init.code pc)) slot))
        simpa [Nat.add_assoc] using this.inside
      · rw [mem_starts_append, mem_starts_append]
        exact .inl (.inl (end_mem_starts pc _))
  | .forLoop _ init (some cond) update body, pc, slot => by
      simp only [Stmt.code]
      rw [List.append_assoc (init.code pc ++ _), List.cons_append]
      refine JumpsInside.loop ((init.code_skips pc).append (cond.code_skips _)).inside
        (JumpsInside.append ?_ ?_) (mem_starts_append.mpr (.inl (end_mem_starts pc _))) ?_ rfl
      · have := body.code_inside (pc + size (init.code pc) +
          size (cond.code (pc + size (init.code pc))) + jumpSize) slot
        simpa [Instr.size, jumpSize, Nat.add_assoc] using this
      · simpa [Instr.size, jumpSize, Nat.add_assoc] using
          (Expr.discardedCode?_skips update _).inside
      · simp [Instr.target?, Instr.size, jumpSize, Nat.add_assoc]
  | .ret _ none, pc, slot => Straight.jumpsInside (c := [.ret]) (by simp [Instr.target?]) pc
  | .ret _ (some e), pc, slot =>
      ((e.code_skips pc).append_straight (d := [.retValue]) (by simp [Instr.target?])).inside
  | .throw _ e, pc, slot =>
      ((e.code_skips pc).append_straight (d := [.throw]) (by simp [Instr.target?])).inside
  | .synchronized _ lock _ body, pc, slot => by
      have henter : Skips pc (lock.code pc ++ [.dup, .store (UInt16.ofNat slot), .monitorEnter]) :=
        (lock.code_skips pc).append_straight (by simp [Instr.target?])
      exact (henter.inside.append (Stmt.codeAll_inside body _ (slot + 1))).append
        (Straight.jumpsInside (by simp [Instr.target?]) _)
  | .expr _ e, pc, slot => (e.discardedCode_skips pc).inside
  | .empty _, pc, slot => straight_nil.jumpsInside pc

theorem Stmt.codeAll_inside : ∀ (ss : List Stmt) (pc slot : Nat),
    JumpsInside pc (Stmt.codeAll pc slot ss)
  | [], pc, _ => straight_nil.jumpsInside pc
  | s :: rest, pc, slot => (s.code_inside pc slot).append (Stmt.codeAll_inside rest _ _)

end

/-! ## Methods -/

theorem fieldValues_skips (cls : String) (isStatic : Bool) :
    ∀ (fields : List (FieldDecl × FieldSig)) (pc : Nat),
      Skips pc (SymbolicCode.fieldValues cls isStatic pc fields)
  | [], pc => .of_straight straight_nil pc
  | (f, sig) :: rest, pc => by
      unfold SymbolicCode.fieldValues
      split
      · exact fieldValues_skips cls isStatic rest pc
      · next e _ =>
          split
          · refine Skips.append (Skips.append_straight (Skips.append ?_ (e.code_skips _)) ?_)
              (fieldValues_skips cls isStatic rest _)
            · exact .of_straight (by cases isStatic <;> simp [self, Instr.target?]) pc
            · cases isStatic <;> simp [Instr.target?]
          · exact fieldValues_skips cls isStatic rest pc

theorem instanceInit_skips (cls superclass : String) (fields : List (FieldDecl × FieldSig)) :
    Skips 0 (SymbolicCode.instanceInit cls superclass fields) := by
  refine Skips.append_straight (Skips.append (.of_straight ?_ 0) ?_) ?_
  · simp [self, Instr.target?]
  · simpa using fieldValues_skips cls false fields _
  · simp [Instr.target?]

theorem classInit_skips (cls : String) (fields : List (FieldDecl × FieldSig)) :
    Skips 0 (SymbolicCode.classInit cls fields) :=
  (fieldValues_skips cls true fields 0).append_straight (d := [.ret]) (by simp [Instr.target?])

theorem MethodDecl.code_inside (m : MethodDecl) (sig : MethodSig) :
    JumpsInside 0 (m.code sig) := by
  refine JumpsInside.append (Stmt.codeAll_inside m.body.body 0 _) (Straight.jumpsInside ?_ _)
  split <;> simp [Instr.target?]

end ProbeLang
