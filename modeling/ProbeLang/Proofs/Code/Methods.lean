import Mathlib.Data.List.Forall2
import ProbeLang.Proofs.Code.Generation

/-!
# The methods of an artifact

The methods that an artifact gets are the symbolic methods of its class (`symbolicMethods`): their
code is the symbolic code with every text replaced by an index at which the pool of the class has
it, and they have the slots that the symbolic methods count.
-/

namespace ProbeLang

open CodeM Code

/-- A method whose code names its constants by their texts. -/
structure SymbolicMethod where
  flags : UInt16
  name : String
  descriptor : String
  code : SymbolicCode
  /-- The number of slots. -/
  locals : Nat

/-- The artifact of a declared method. -/
def MethodDecl.symbolic (m : MethodDecl) (sig : MethodSig) : SymbolicMethod where
  flags := m.modifiers.bits
  name := m.name.name
  descriptor := sig.descriptor
  code := m.code sig
  locals := m.firstLock sig + Stmt.locksAll m.body.body

namespace ClassDecl

/-- The initialiser of instances of a class. -/
def symbolicInit (c : ClassDecl) (symbol : ClassSymbol) (superclass : String) :
    SymbolicMethod where
  flags := AccessFlag.isPublic
  name := "<init>"
  descriptor := "()V"
  code := .instanceInit symbol.binary superclass (c.fields.zip symbol.fields)
  locals := 1

/-- The initialiser of a class. -/
def symbolicClassInit (c : ClassDecl) (symbol : ClassSymbol) : SymbolicMethod where
  flags := AccessFlag.isStatic
  name := "<clinit>"
  descriptor := "()V"
  code := .classInit symbol.binary (c.fields.zip symbol.fields)
  locals := 0

/-- The methods of the artifact of a class. -/
def symbolicMethods (c : ClassDecl) (symbol : ClassSymbol) (superclass : String) :
    List SymbolicMethod :=
  c.symbolicInit symbol superclass ::
    (c.methods.zip symbol.methods).map (fun (m, sig) => m.symbolic sig) ++
    if c.fields.any fun f => f.modifiers.has .isStatic && f.init.isSome then
      [c.symbolicClassInit symbol]
    else []

end ClassDecl

/-- Whether a method of an artifact is a symbolic method with its constants in a pool. -/
structure MethodInfo.Links (p : ConstantPool) (m : MethodInfo) (sym : SymbolicMethod) : Prop where
  flags : m.flags = sym.flags
  name : m.name = sym.name
  descriptor : m.descriptor = sym.descriptor
  code : ∃ code : Code, m.code = code.encode ∧ resolve p code = sym.code.resolved
  maxLocals : m.maxLocals.toNat = sym.locals
  lines : ∃ marks, LineMarks 0 sym.code marks ∧
    m.lines = marks.reverse.map fun (pc, line) => (UInt32.ofNat pc, UInt32.ofNat line)

theorem MethodInfo.Links.of_extends {p q : ConstantPool} {m : MethodInfo} {sym : SymbolicMethod}
    (h : m.Links p sym) (hq : q.Extends p) : m.Links q sym := by
  obtain ⟨code, hcode, hres⟩ := h.code
  exact { h with code := ⟨code, hcode, resolve_of_extends hq hres⟩ }

namespace CodeM

variable {s t : CodeState} {p q : ConstantPool}

/-- The code that gives a field the value that is made in between. -/
theorem fieldValue_emits {isStatic : Bool} {reference : String} {e : Expr} {pc : Nat}
    {value put : Code} {s' : CodeState} (hs : s.pool.Fits)
    (hvalue : (expr (pc + size (if isStatic then [] else thisCode)) e).run s = .ok (value, s'))
    (hput : (pooled (if isStatic then .putStatic else .putField) reference).run s'
      = .ok (put, t)) :
    Emits pc s ((if isStatic then [] else thisCode) ++ value ++ put) t
      ((if isStatic then [] else SymbolicCode.self) ++
        e.code (pc + size (if isStatic then [] else SymbolicCode.self)) ++
        [(if isStatic then Instr.putStatic else Instr.putField) reference]) 0 := by
  cases isStatic with
  | true =>
      have evalue := expr_emits e hs hvalue
      exact evalue.append (pooled_emits .putStatic _ evalue.fits hput)
  | false =>
      have evalue := expr_emits e hs hvalue
      exact ((self_emits pc hs).append evalue).append
        (pooled_emits .putField _ evalue.fits hput)

/-- The code that gives fields their values. -/
theorem fieldValues_emits (debug : DebugInfo) (cls : String) (isStatic : Bool) :
    ∀ (fields : List (FieldDecl × FieldSig)) {pc : Nat} {done : List Code} {s t : CodeState}
      {code : Code}, s.pool.Fits →
      (fieldValues debug cls isStatic pc done fields).run s = .ok (code, t) →
      ∃ more, code = done.reverse.flatten ++ more ∧
        Emits pc s more t (SymbolicCode.fieldValues cls isStatic pc fields) 0
  | [], pc, done, s, _, _, hs, h => by
      obtain ⟨rfl, rfl⟩ := pure_ok h
      exact ⟨[], by simp, .plain pc hs rfl⟩
  | (f, sig) :: rest, pc, done, s, t, _, hs, h => by
      cases hf : f.init with
      | none =>
          simp only [fieldValues, hf, SymbolicCode.fieldValues] at h ⊢
          exact fieldValues_emits debug cls isStatic rest hs h
      | some e =>
          by_cases hsig : sig.isStatic = isStatic
          · simp only [fieldValues, hf, if_pos hsig, SymbolicCode.fieldValues] at h ⊢
            obtain ⟨⟨⟩, s₁, hline, h⟩ := bind_ok h
            obtain ⟨value, s₂, hvalue, h⟩ := bind_ok h
            obtain ⟨put, s₃, hput, h⟩ := bind_ok h
            have eline := line_emits hs hline
            have efield := fieldValue_emits eline.fits hvalue hput
            rw [efield.size_eq] at h
            obtain ⟨more, rfl, emore⟩ := fieldValues_emits debug cls isStatic rest efield.fits h
            have e := eline.andThen (efield.append emore) rfl
            refine ⟨_, ?_, e⟩
            rw [List.reverse_cons, List.flatten_concat, List.append_assoc, List.nil_append]
          · simp only [fieldValues, hf, if_neg hsig, SymbolicCode.fieldValues] at h ⊢
            exact fieldValues_emits debug cls isStatic rest hs h

theorem method_links {flags : UInt16} {isStatic : Bool} {make : CodeM Code}
    {m : MethodInfo} (sym : SymbolicMethod) (k : Nat)
    (h : (method flags sym.name sym.descriptor isStatic make).run p = .ok (m, q))
    (hflags : flags = sym.flags)
    (hmake : ∀ code t, make.run ⟨p, firstSlot isStatic, []⟩ = .ok (code, t) →
      ∃ n, n ≤ maxSlots ∧ n + k = sym.locals ∧ Emits 0 ⟨p, n, []⟩ code t sym.code k) :
    q.Fits ∧ q.Extends p ∧ m.Links q sym := by
  obtain ⟨p', p'', hget, h⟩ := bind_ok h
  obtain ⟨rfl, rfl⟩ : p = p' ∧ p = p'' := by cases hget; exact ⟨rfl, rfl⟩
  obtain ⟨⟨code, t⟩, p', hrun, h⟩ := bind_ok h
  obtain ⟨hmade, rfl⟩ : make.run ⟨p, firstSlot isStatic, []⟩ = .ok (code, t) ∧ p = p' := by
    cases hr : make.run ⟨p, firstSlot isStatic, []⟩ with
    | error e => rw [hr] at hrun; cases hrun
    | ok r => rw [hr] at hrun; cases hrun; exact ⟨rfl, rfl⟩
  have hm := Except.ok.inj h
  obtain ⟨rfl, rfl⟩ : _ = m ∧ t.pool = q := ⟨congrArg Prod.fst hm, congrArg Prod.snd hm⟩
  obtain ⟨n, hn, hlocals, e⟩ := hmake code t hmade
  obtain ⟨marks, hmarks, hlines⟩ := e.lines
  refine ⟨e.fits, e.extends_, hflags, rfl, rfl, ⟨code, rfl, e.resolve⟩, ?_, marks, hlines, ?_⟩
  · have hle := e.slots hn
    rw [e.nextSlot, hlocals] at hle
    rw [e.nextSlot, hlocals]
    exact UInt16.toNat_ofNat_of_lt' (Nat.lt_succ_of_le hle)
  · rw [hmarks, List.append_nil]

theorem body_emits {debug : DebugInfo} {sig : MethodSig} {m : MethodDecl} {code : Code}
    (hp : p.Fits) (h : (body debug sig m).run ⟨p, firstSlot sig.isStatic, []⟩ = .ok (code, t)) :
    m.firstLock sig ≤ maxSlots ∧
      Emits 0 ⟨p, m.firstLock sig, []⟩ code t (m.code sig) (Stmt.locksAll m.body.body) := by
  obtain ⟨⟨⟩, s₁, hparams, h⟩ := bind_ok h
  obtain ⟨rfl, -⟩ := reserve_ok hparams
  obtain ⟨⟨⟩, s₂, hslots, h⟩ := bind_ok h
  obtain ⟨rfl, hle⟩ := reserve_ok hslots
  obtain ⟨code, s₃, hcode, h⟩ := bind_ok h
  obtain ⟨rfl, rfl⟩ := pure_ok h
  obtain ⟨more, rfl, emore⟩ := stmts_emits debug m.body.body (by exact hp) hcode
  have hfirst : max (max (firstSlot sig.isStatic) (firstSlot sig.isStatic + sig.params.length))
      (Stmt.allSlotsNeeded 0 m.body.body) = m.firstLock sig := by
    simp [MethodDecl.firstLock]
  rw [hfirst] at hle emore
  refine ⟨hle, ?_⟩
  unfold MethodDecl.code
  split
  · exact emore.append_plain rfl
  · simpa using emore

theorem instanceInit_emits {debug : DebugInfo} {cls superclass : String}
    {fields : List (FieldDecl × FieldSig)} {code : Code} (hs : s.pool.Fits)
    (h : (instanceInit debug cls superclass fields).run s = .ok (code, t)) :
    Emits 0 s code t (.instanceInit cls superclass fields) 0 := by
  obtain ⟨call, s₁, hcall, h⟩ := bind_ok h
  obtain ⟨values, s₂, hvalues, h⟩ := bind_ok h
  obtain ⟨rfl, rfl⟩ := pure_ok h
  have ecall := (self_emits 0 hs).append (pooled_emits .invoke _ hs hcall)
  rw [ecall.size_eq] at hvalues
  obtain ⟨more, rfl, emore⟩ := fieldValues_emits debug cls false fields ecall.fits hvalues
  exact (ecall.andThen emore (by simp)).append_plain rfl

theorem classInit_emits {debug : DebugInfo} {cls : String}
    {fields : List (FieldDecl × FieldSig)} {code : Code} (hs : s.pool.Fits)
    (h : (classInit debug cls fields).run s = .ok (code, t)) :
    Emits 0 s code t (.classInit cls fields) 0 := by
  obtain ⟨values, s₁, hvalues, h⟩ := bind_ok h
  obtain ⟨rfl, rfl⟩ := pure_ok h
  obtain ⟨more, rfl, emore⟩ := fieldValues_emits debug cls true fields hs hvalues
  exact emore.append_plain rfl

end CodeM

namespace ClassDecl

/-- Methods that are made one after the other are symbolic methods. -/
theorem links_mapM {debug : DebugInfo} : ∀ (methods : List (MethodDecl × MethodSig))
    {p q : ConstantPool} {infos : List MethodInfo}, p.Fits →
    (methods.mapM fun ((m, sig) : MethodDecl × MethodSig) =>
      CodeM.method m.modifiers.bits m.name.name sig.descriptor sig.isStatic
        (CodeM.body debug sig m)).run p = .ok (infos, q) →
    q.Fits ∧ q.Extends p ∧
      List.Forall₂ (MethodInfo.Links q) infos (methods.map fun (m, sig) => m.symbolic sig)
  | [], p, q, infos, hp, h => by
      obtain ⟨rfl, rfl⟩ := pure_ok h
      exact ⟨hp, .refl _, .nil⟩
  | (m, sig) :: rest, p, q, infos, hp, h => by
      rw [List.mapM_cons] at h
      obtain ⟨info, p₁, hinfo, h⟩ := bind_ok h
      obtain ⟨more, p₂, hmore, h⟩ := bind_ok h
      obtain ⟨rfl, rfl⟩ := pure_ok h
      obtain ⟨hfits, hext, hlinks⟩ :=
        CodeM.method_links (m.symbolic sig) (Stmt.locksAll m.body.body) hinfo rfl
          fun code t hbody =>
            have ⟨hle, e⟩ := CodeM.body_emits hp hbody
            ⟨_, hle, rfl, e⟩
      obtain ⟨hfits', hext', hmore'⟩ := links_mapM rest hfits hmore
      exact ⟨hfits', hext'.trans hext, .cons (hlinks.of_extends hext') hmore'⟩

theorem methodInfos_links {debug : DebugInfo} {c : ClassDecl} {symbol : ClassSymbol}
    {superclass : String} {p q : ConstantPool} {infos : List MethodInfo} (hp : p.Fits)
    (h : (c.methodInfos debug symbol superclass).run p = .ok (infos, q)) :
    q.Fits ∧ q.Extends p ∧
      List.Forall₂ (MethodInfo.Links q) infos (c.symbolicMethods symbol superclass) := by
  obtain ⟨init, p₁, hinit, h⟩ := bind_ok h
  obtain ⟨methods, p₂, hmethods, h⟩ := bind_ok h
  obtain ⟨hfits, hext, hinit'⟩ :=
    CodeM.method_links (c.symbolicInit symbol superclass) 0 hinit rfl
      fun code t hmake => ⟨1, by decide, rfl, CodeM.instanceInit_emits hp hmake⟩
  obtain ⟨hfits', hext', hmethods'⟩ := links_mapM _ hfits hmethods
  unfold symbolicMethods
  split at h
  · next hstatic =>
      obtain ⟨last, p₃, hlast, h⟩ := bind_ok h
      obtain ⟨rfl, rfl⟩ := pure_ok h
      obtain ⟨hfits'', hext'', hlast'⟩ :=
        CodeM.method_links (c.symbolicClassInit symbol) 0 hlast rfl
          fun code t hmake => ⟨0, by decide, rfl, CodeM.classInit_emits hfits' hmake⟩
      rw [if_pos hstatic]
      refine ⟨hfits'', (hext''.trans hext').trans hext, .cons (hinit'.of_extends ?_) ?_⟩
      · exact hext''.trans hext'
      · exact List.rel_append (hmethods'.imp fun _ _ hm => hm.of_extends hext'')
          (.cons hlast' .nil)
  · next hstatic =>
      obtain ⟨rfl, rfl⟩ := pure_ok h
      rw [if_neg hstatic, List.append_nil]
      exact ⟨hfits', hext'.trans hext, .cons (hinit'.of_extends hext') hmethods'⟩

/-- The superclass that the artifact of a class names, which is the root if none is known. -/
def superclassName (symbol : ClassSymbol) : Option String :=
  symbol.superclass.or (if symbol.binary = objectName then none else some objectName)

/-- The artifact of a class has the symbolic methods of the class. -/
theorem classFile_links {options : Options} {c : ClassDecl} {symbol : ClassSymbol}
    {file : ClassFile} (h : c.classFile options symbol = .ok file) :
    file.pool.Fits ∧ List.Forall₂ (MethodInfo.Links file.pool) file.methods
      (c.symbolicMethods symbol ((superclassName symbol).getD objectName)) := by
  obtain ⟨⟨methods, pool⟩, hmethods, h⟩ := except_bind_ok h
  cases h
  obtain ⟨hfits, -, hlinks⟩ := methodInfos_links ConstantPool.fits_empty hmethods
  exact ⟨hfits, hlinks⟩

end ClassDecl

end ProbeLang
