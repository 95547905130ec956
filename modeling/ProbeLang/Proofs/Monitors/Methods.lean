import ProbeLang.Proofs.Monitors.Guarded
import ProbeLang.Proofs.Stack.Methods

/-!
# Monitors in methods

The code of every statement is guarded, with a range for each synchronized statement in it. So the
monitors that are held at an instruction of a method are those of the synchronized statements around
it. The code of a `return` leaves none of them. Around the return at the end of a method there are
none.
-/

namespace ProbeLang

open CodeM Code SymbolicCode

/-! ## Expressions -/

theorem Instr.plain_untargeted {κ : Type} {i : Instr κ} (h : i.untargeted.Plain) : i.Plain := by
  cases i <;> exact h

/-- No expression works on monitors or returns. -/
theorem Expr.own_plain (e : Expr) : ∀ i ∈ e.own, i.Plain := by
  cases e with
  | literal n v =>
      cases v <;> simp [own, SymbolicCode.constant, Instr.Plain, Instr.isMonitor, Instr.isReturn]
  | name n ident | call n callee args =>
      simp only [own]
      split <;> simp [self, Instr.Plain, Instr.isMonitor, Instr.isReturn]
  | invoke n target callee args | new n type args =>
      simp only [own]
      split <;> simp [SymbolicCode.create, Instr.Plain, Instr.isMonitor, Instr.isReturn]
  | field n target member =>
      simp only [own]
      split
      · simp [Instr.Plain, Instr.isMonitor, Instr.isReturn]
      · simp [Instr.Plain, Instr.isMonitor, Instr.isReturn]
      · split <;> simp [Instr.Plain, Instr.isMonitor, Instr.isReturn]
  | this n | newArray n elem length | index n target i =>
      simp [own, self, Instr.Plain, Instr.isMonitor, Instr.isReturn]
  | unary n op operand =>
      cases op <;> simp [own, unaryInstr, Instr.Plain, Instr.isMonitor, Instr.isReturn]
  | binary n op lhs rhs =>
      cases op <;> cases h : n.ty.any Ty.isString <;>
        simp [own, skipInstr, binaryInstr, h, Instr.Plain, Instr.isMonitor, Instr.isReturn]
  | assign n target value =>
      simp only [own, stores]
      split <;> simp [self, Instr.Plain, Instr.isMonitor, Instr.isReturn]

theorem Expr.code_plain (e : Expr) (pc : Nat) : ∀ i ∈ e.code pc, i.Plain := by
  intro i hi
  obtain ⟨x, -, hown⟩ := e.contributes_of_mem_code hi
  exact Instr.plain_untargeted (x.own_plain _ hown)

theorem Expr.discardedCode_plain (e : Expr) (pc : Nat) : ∀ i ∈ e.discardedCode pc, i.Plain := by
  unfold Expr.discardedCode
  split
  · exact e.code_plain pc
  · exact List.forall_mem_append.mpr ⟨e.code_plain pc, List.forall_mem_singleton.mpr ⟨rfl, rfl⟩⟩

theorem Expr.discardedCode?_plain (e : Option Expr) (pc : Nat) :
    ∀ i ∈ Expr.discardedCode? pc e, i.Plain := by
  cases e with
  | none => exact List.forall_mem_nil _
  | some e => exact e.discardedCode_plain pc

theorem LocalVar.code_plain (d : LocalVar) (pc : Nat) : ∀ i ∈ d.code pc, i.Plain := by
  unfold LocalVar.code
  split
  · next e slot _ _ =>
      exact List.forall_mem_append.mpr ⟨e.code_plain pc, List.forall_mem_singleton.mpr ⟨rfl, rfl⟩⟩
  · exact List.forall_mem_nil _

theorem ForInit.code_plain (init : ForInit) (pc : Nat) : ∀ i ∈ init.code pc, i.Plain := by
  cases init with
  | none => exact List.forall_mem_nil _
  | declare d => exact d.code_plain pc
  | expr pos e => exact e.discardedCode_plain pc

section Guarded

variable {held : Nat → List Nat}

theorem Expr.code_guarded {e : Expr} {pc : Nat} (hf : Tracks held pc (e.code pc)) :
    Guarded held [] [] pc (e.code pc) :=
  .plain hf (e.code_plain pc) (e.code_skips pc).inside

theorem Expr.discardedCode?_guarded {e : Option Expr} {pc : Nat}
    (hf : Tracks held pc (Expr.discardedCode? pc e)) :
    Guarded held [] [] pc (Expr.discardedCode? pc e) :=
  .plain hf (Expr.discardedCode?_plain e pc) (Expr.discardedCode?_skips e pc).inside

theorem ForInit.code_guarded {init : ForInit} {pc : Nat} (hf : Tracks held pc (init.code pc)) :
    Guarded held [] [] pc (init.code pc) :=
  .plain hf (init.code_plain pc) (init.code_skips pc).inside

end Guarded

/-! ## Statements -/

/-- The code that keeps what a synchronized statement locks in its slot. -/
def Expr.lockCode (pc slot : Nat) (lock : Expr) : SymbolicCode :=
  lock.code pc ++ [.dup, .store (UInt16.ofNat slot)]

/-- The range of a synchronized statement that is spotted at a place. -/
def Stmt.lockRange? : Nat × Nat × Stmt → Option LockRange
  | (pc, slot, .synchronized _ lock _ body) =>
      let enter := pc + size (lock.lockCode pc slot)
      some ⟨enter, enter + 1 + size (Stmt.codeAll (enter + 1) (slot + 1) body) + 3⟩
  | _ => none

/-- The ranges of the synchronized statements in a statement. -/
def Stmt.lockRanges (pc slot : Nat) (s : Stmt) : List LockRange :=
  (s.spots pc slot).filterMap Stmt.lockRange?

/-- The ranges of the synchronized statements in statements. -/
def Stmt.allLockRanges (pc slot : Nat) (ss : List Stmt) : List LockRange :=
  (Stmt.allSpots pc slot ss).filterMap Stmt.lockRange?

mutual

/-- How many synchronized statements stand around each `return` in a statement around which there is
a number of them. -/
def Stmt.returnDepths (n : Nat) : Stmt → List Nat
  | .block _ body => Stmt.allReturnDepths n body
  | .ifThen _ _ s | .whileLoop _ _ s | .forLoop _ _ _ _ s => s.returnDepths n
  | .ifElse _ _ s t => s.returnDepths n ++ t.returnDepths n
  | .ret _ _ => [n]
  | .synchronized _ _ _ body => Stmt.allReturnDepths (n + 1) body
  | .declare _ | .throw _ _ | .expr _ _ | .empty _ => []

/-- How many synchronized statements stand around each `return` in statements. -/
def Stmt.allReturnDepths (n : Nat) : List Stmt → List Nat
  | [] => []
  | s :: rest => s.returnDepths n ++ Stmt.allReturnDepths n rest

end

theorem Expr.lockCode_enter (pc slot : Nat) (lock : Expr) :
    pc + size (lock.code pc ++ [.dup, .store (UInt16.ofNat slot), .monitorEnter]) =
      pc + size (lock.lockCode pc slot) + 1 := by
  simp [lockCode, Instr.size, Nat.add_assoc]

theorem Stmt.code_synchronized (pos bodyPos : Pos) (lock : Expr) (body : List Stmt)
    (pc slot : Nat) : (Stmt.synchronized pos lock bodyPos body).code pc slot =
      lock.lockCode pc slot ++
        .monitorEnter :: Stmt.codeAll (pc + size (lock.lockCode pc slot) + 1) (slot + 1) body ++
        [.load (UInt16.ofNat slot), .monitorExit] := by
  simp only [Stmt.code, Expr.lockCode_enter]
  simp only [Expr.lockCode, List.append_assoc, List.cons_append, List.nil_append]

theorem Stmt.lockRanges_synchronized (pos bodyPos : Pos) (lock : Expr) (body : List Stmt)
    (pc slot : Nat) : (Stmt.synchronized pos lock bodyPos body).lockRanges pc slot =
      ⟨pc + size (lock.lockCode pc slot), pc + size (lock.lockCode pc slot) + 1 +
        size (Stmt.codeAll (pc + size (lock.lockCode pc slot) + 1) (slot + 1) body) + 3⟩ ::
      Stmt.allLockRanges (pc + size (lock.lockCode pc slot) + 1) (slot + 1) body := by
  simp only [Stmt.lockRanges, Stmt.spots, Expr.lockCode_enter]
  rfl

theorem Expr.lockCode_plain (lock : Expr) (pc slot : Nat) :
    ∀ i ∈ lock.lockCode pc slot, i.Plain := by
  refine List.forall_mem_append.mpr ⟨lock.code_plain pc, ?_⟩
  simp [Instr.Plain, Instr.isMonitor, Instr.isReturn]

theorem Expr.lockCode_inside (lock : Expr) (pc slot : Nat) :
    JumpsInside pc (lock.lockCode pc slot) :=
  ((lock.code_skips pc).append_straight (by simp [Instr.target?])).inside

theorem Stmt.code_forever (pos : Pos) (init : ForInit) (update : Option Expr) (body : Stmt)
    (pc slot : Nat) : (Stmt.forLoop pos init none update body).code pc slot =
      let start := pc + size (init.code pc)
      let body := body.code start slot
      init.code pc ++
        (body ++ Expr.discardedCode? (start + size body) update ++ [.jump start]) := by
  simp only [Stmt.code, List.append_assoc]

theorem Stmt.code_forLoop (pos : Pos) (init : ForInit) (cond : Expr) (update : Option Expr)
    (body : Stmt) (pc slot : Nat) : (Stmt.forLoop pos init (some cond) update body).code pc slot =
      let start := pc + size (init.code pc)
      let inner := start + size (cond.code start) + jumpSize
      let body := body.code inner slot
      let update := Expr.discardedCode? (inner + size body) update
      init.code pc ++
        (cond.code start ++ .jumpIfFalse (inner + size body + size update + jumpSize) ::
          (body ++ update) ++ [.jump start]) := by
  simp only [Stmt.code, List.append_assoc, List.cons_append]

mutual

/-- The code of a statement is guarded. -/
theorem Stmt.code_guarded {held : Nat → List Nat} : ∀ (s : Stmt) {pc slot n : Nat},
    (held pc).length = n → Tracks held pc (s.code pc slot) →
      Guarded held (s.lockRanges pc slot) (s.returnDepths n) pc (s.code pc slot)
  | .block _ body, pc, slot, n, hn, hf => Stmt.codeAll_guarded body hn hf
  | .declare d, pc, slot, n, hn, hf => .plain hf (d.code_plain pc) (d.code_skips pc).inside
  | .ifThen _ cond s, pc, slot, n, hn, hf =>
      .jump_over hf (Expr.code_guarded hf.left) ⟨rfl, rfl⟩
        (fun h hs => s.code_guarded (h ▸ hn) hs) rfl
  | .ifElse _ cond s t, pc, slot, n, hn, hf => by
      have hboth := Guarded.branches hf (Expr.code_guarded hf.left.left) ⟨rfl, rfl⟩
        (fun h hs => s.code_guarded (h ▸ hn) hs) ⟨rfl, rfl⟩
        (fun h ht => t.code_guarded (h ▸ hn) ht) rfl rfl (.inr rfl)
      unfold Stmt.lockRanges at hboth
      rw [← List.filterMap_append] at hboth
      exact hboth
  | .whileLoop _ cond body, pc, slot, n, hn, hf => by
      have hloop := Guarded.branches hf (Expr.code_guarded hf.left.left) ⟨rfl, rfl⟩
        (fun h hbody => body.code_guarded (h ▸ hn) hbody) ⟨rfl, rfl⟩ (fun _ _ => .nil) rfl rfl
        (.inl rfl)
      rw [List.append_nil, List.append_nil] at hloop
      exact hloop
  | .forLoop _ init none update body, pc, slot, n, hn, hf => by
      rw [Stmt.code_forever] at hf ⊢
      have hinit := ForInit.code_guarded hf.left
      have hbody := body.code_guarded (hinit.stays ▸ hn) hf.right.left.left
      have hupdate := Expr.discardedCode?_guarded hf.right.left.right
      have hboth := hinit.append (.loop hf.right (hbody.append hupdate) ⟨rfl, rfl⟩ rfl)
      rw [List.append_nil, List.append_nil] at hboth
      exact hboth
  | .forLoop _ init (some cond) update body, pc, slot, n, hn, hf => by
      rw [Stmt.code_forLoop] at hf ⊢
      have hinit := ForInit.code_guarded hf.left
      have hloop := Guarded.branches hf.right (Expr.code_guarded hf.right.left.left) ⟨rfl, rfl⟩
        (fun h hrest => (body.code_guarded (h.trans hinit.stays ▸ hn) hrest.left).append
          (Expr.discardedCode?_guarded hrest.right))
        ⟨rfl, rfl⟩ (fun _ _ => .nil)
        (by simp [Instr.target?, Instr.size, jumpSize, Nat.add_assoc]) rfl (.inl rfl)
      have hboth := hinit.append hloop
      simp only [List.append_nil, List.nil_append] at hboth
      exact hboth
  | .ret _ none, pc, slot, n, hn, hf => hn ▸ Guarded.instr hf rfl nofun
  | .ret _ (some e), pc, slot, n, hn, hf => by
      have he := Expr.code_guarded hf.left
      have hret := Guarded.instr hf.right rfl nofun
      rw [he.stays, hn] at hret
      exact he.append hret
  | .throw _ value, pc, slot, n, hn, hf =>
      (Expr.code_guarded hf.left).append (.instr hf.right rfl nofun)
  | .synchronized _ lock _ body, pc, slot, n, hn, hf => by
      rw [Stmt.code_synchronized] at hf ⊢
      rw [Stmt.lockRanges_synchronized]
      refine .lock hf (.plain hf.left.left (lock.lockCode_plain pc slot)
        (lock.lockCode_inside pc slot)) fun h hbody => ?_
      exact Stmt.codeAll_guarded body (by rw [h, List.length_cons, hn]) hbody
  | .expr _ e, pc, slot, n, hn, hf =>
      .plain hf (e.discardedCode_plain pc) (e.discardedCode_skips pc).inside
  | .empty _, pc, slot, n, hn, hf => .nil

theorem Stmt.codeAll_guarded {held : Nat → List Nat} : ∀ (ss : List Stmt) {pc slot n : Nat},
    (held pc).length = n → Tracks held pc (Stmt.codeAll pc slot ss) →
      Guarded held (Stmt.allLockRanges pc slot ss) (Stmt.allReturnDepths n ss) pc
        (Stmt.codeAll pc slot ss)
  | [], pc, slot, n, hn, hf => .nil
  | s :: rest, pc, slot, n, hn, hf => by
      have hs := s.code_guarded hn hf.left
      have hrest := Stmt.codeAll_guarded rest (hs.stays ▸ hn) hf.right
      unfold Stmt.allLockRanges
      rw [Stmt.allSpots, List.filterMap_append]
      exact hs.append hrest

end

/-! ## Methods -/

/-- The monitors in the code of a method: the ranges of its synchronized statements, and for each of
its returns how many of them stand around it. -/
structure MonitorOutline where
  ranges : List LockRange
  depths : List Nat

/-- The monitors of a declared method, which returns at its end if it gives nothing back. -/
def MethodDecl.monitors (m : MethodDecl) (sig : MethodSig) : MonitorOutline where
  ranges := Stmt.allLockRanges 0 (m.firstLock sig) m.body.body
  depths := Stmt.allReturnDepths 0 m.body.body ++ if sig.ret = .void then [0] else []

/-- The monitors of an initialiser: it has none, and returns at its end. -/
def MonitorOutline.initialiser : MonitorOutline where
  ranges := []
  depths := [0]

/-- The monitors of the methods of a class, in the order of `symbolicMethods`. -/
def ClassDecl.monitors (c : ClassDecl) (symbol : ClassSymbol) : List MonitorOutline :=
  .initialiser :: (c.methods.zip symbol.methods).map (fun (m, sig) => m.monitors sig) ++
    if c.fields.any fun f => f.modifiers.has .isStatic && f.init.isSome then [.initialiser] else []

/-- Whether the code of a method is guarded, with nothing held at its entry. -/
def SymbolicMethod.Guarded (sym : SymbolicMethod) (outline : MonitorOutline) : Prop :=
  ∃ held, held 0 = [] ∧ Code.Guarded held outline.ranges outline.depths 0 sym.code

/-- A declared method. -/
theorem MethodDecl.guarded (m : MethodDecl) (sig : MethodSig) :
    (m.symbolic sig).Guarded (m.monitors sig) := by
  obtain ⟨held, hentry, hf⟩ := exists_tracks [] 0 (m.code sig)
  refine ⟨held, hentry, ?_⟩
  have hbody := Stmt.codeAll_guarded m.body.body (congrArg List.length hentry) hf.left
  have hlast := hf.right
  rw [← List.append_nil (MethodDecl.monitors m sig).ranges]
  refine hbody.append ?_
  by_cases hvoid : sig.ret = .void
  · rw [if_pos hvoid] at hlast
    rw [if_pos hvoid, if_pos hvoid]
    have hret := Code.Guarded.instr hlast rfl nofun
    rw [hbody.stays, hentry] at hret
    exact hret
  · rw [if_neg hvoid, if_neg hvoid]
    exact .nil

/-- Code that does not work on monitors, with a return behind it. -/
theorem guarded_initialiser {sym : SymbolicMethod} {c : SymbolicCode}
    (hcode : sym.code = c ++ [.ret]) (hc : ∀ i ∈ c, i.Plain) (hin : JumpsInside 0 c) :
    sym.Guarded .initialiser := by
  obtain ⟨held, hentry, hf⟩ := exists_tracks [] 0 (c ++ [.ret])
  have hplain := Code.Guarded.plain hf.left hc hin
  have hret := Code.Guarded.instr hf.right rfl nofun
  rw [hplain.stays, hentry] at hret
  refine ⟨held, hentry, ?_⟩
  rw [hcode]
  exact hplain.append hret

/-- The code that gives fields their values does not work on monitors. -/
theorem SymbolicCode.fieldValues_plain (cls : String) (isStatic : Bool) :
    ∀ (fields : List (FieldDecl × FieldSig)) (pc : Nat),
      ∀ i ∈ fieldValues cls isStatic pc fields, i.Plain
  | [], _ => nofun
  | (f, sig) :: rest, pc => by
      unfold fieldValues
      split
      · exact fieldValues_plain cls isStatic rest pc
      · next e _ =>
          split
          · refine List.forall_mem_append.mpr ⟨?_, fieldValues_plain cls isStatic rest _⟩
            refine List.forall_mem_append.mpr ⟨List.forall_mem_append.mpr ⟨?_, e.code_plain _⟩, ?_⟩
            · cases isStatic <;> simp [self, Instr.Plain, Instr.isMonitor, Instr.isReturn]
            · cases isStatic <;> simp [Instr.Plain, Instr.isMonitor, Instr.isReturn]
          · exact fieldValues_plain cls isStatic rest pc

/-- The methods of a class are guarded. -/
theorem ClassDecl.symbolicMethods_guarded (c : ClassDecl) (symbol : ClassSymbol)
    (superclass : String) :
    List.Forall₂ SymbolicMethod.Guarded (c.symbolicMethods symbol superclass)
      (c.monitors symbol) := by
  have hcall : ∀ i ∈ self ++ [.invoke (initReference superclass)], i.Plain := by
    simp [self, Instr.Plain, Instr.isMonitor, Instr.isReturn]
  have hinside : JumpsInside 0 (self ++ [.invoke (initReference superclass)]) :=
    Straight.jumpsInside (by simp [self, Instr.target?]) 0
  refine .cons (guarded_initialiser rfl ?_ (hinside.append ?_)) (List.rel_append ?_ ?_)
  · exact List.forall_mem_append.mpr ⟨hcall, fieldValues_plain _ _ _ _⟩
  · simpa using (fieldValues_skips symbol.binary false (c.fields.zip symbol.fields) _).inside
  · rw [List.forall₂_map_left_iff, List.forall₂_map_right_iff, List.forall₂_same]
    exact fun p _ => p.1.guarded p.2
  · split
    · exact .cons (guarded_initialiser rfl (fieldValues_plain _ _ _ _)
        (fieldValues_skips _ _ _ _).inside) .nil
    · exact .nil

/-! ## Artifacts -/

/-- A method of an artifact whose symbolic method is guarded. -/
theorem MethodInfo.WellFormed.monitored {pool : ConstantPool} {m : MethodInfo} {code : Code}
    {sym : SymbolicMethod} {outline : MonitorOutline} (h : m.WellFormed pool code sym)
    (hsym : sym.Guarded outline) : Monitored outline.ranges outline.depths code := by
  obtain ⟨held, hentry, hguarded⟩ := hsym
  have hresolved : Guarded held outline.ranges outline.depths 0 sym.code.resolved :=
    guarded_map.mpr hguarded
  rw [← h.constants] at hresolved
  exact (guarded_map.mp hresolved).monitored hentry

end ProbeLang
