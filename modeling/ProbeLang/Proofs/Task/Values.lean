import ProbeLang.Proofs.Task.Signatures

/-!
# Types of members and variables

Every type in an artifact is one of values, but for `void`: a method that gives back nothing has it as
its result, and a parameter that is declared with it has it too, since nothing refuses such a
declaration. Local variables and fields have values always.
-/

namespace ProbeLang

open SessionM

/-- Whether the signature of a method has the types that its declaration says, and all of them are
types of values where `void` is not written. -/
structure MethodSig.Yields (sig : MethodSig) (m : MethodDecl) : Prop where
  name : sig.name = m.name.name
  ret : sig.ret.Yielded
  params : List.Forall₂ (fun ty (p : Param) => ty.Yielded ∧ (ty = .void ↔ p.type.base = .void))
    sig.params m.params

/-- Whether all fields of a class have values, and its methods have them where `void` is not
written. -/
structure ClassSymbol.Yields (c : ClassSymbol) (decl : ClassDecl) : Prop where
  fields : ∀ f ∈ c.fields, f.ty.Valued
  methods : List.Forall₂ MethodSig.Yields c.methods decl.methods

theorem MethodSig.Written.yields {symbols : SymbolTable} {sig : MethodSig} {m : MethodDecl}
    (h : sig.Written symbols m) (hformed : m.Formed) : sig.Yields m where
  name := h.name
  ret := h.ret.yielded hformed.ret
  params := by
    obtain ⟨hlength, hparams⟩ := List.forall₂_iff_zip.mp h.params
    refine List.forall₂_iff_zip.mpr ⟨hlength, fun {ty p} hmem => ?_⟩
    have hp := hformed.params p (List.of_mem_zip hmem).2
    have hty := hparams hmem
    exact ⟨hty.yielded hp, fun hvoid => by_contra fun hbase => (hty.valued hbase).ne_void hvoid,
      hty.eq_void hp⟩

theorem ClassSymbol.Written.yields {symbols : SymbolTable} {c : ClassSymbol} {decl : ClassDecl}
    (h : c.Written symbols decl) (hformed : decl.Formed) : c.Yields decl where
  fields f hf := by
    obtain ⟨d, hd, hwritten⟩ := exists_of_mem_left h.fields hf
    exact hwritten.type.valued (hformed.fields d hd)
  methods := by
    obtain ⟨hlength, hmethods⟩ := List.forall₂_iff_zip.mp h.methods
    exact List.forall₂_iff_zip.mpr ⟨hlength, fun {sig m} hmem =>
      (hmethods hmem).yields (hformed.methods m (List.of_mem_zip hmem).2)⟩

theorem ClassSymbol.Yields.of_agrees {c c' : ClassSymbol} {decl : ClassDecl} (h : c'.Yields decl)
    (hagrees : c.Agrees c') : c.Yields decl where
  fields := hagrees.fields ▸ h.fields
  methods := hagrees.methods ▸ h.methods

namespace BodyScope

variable {σ : Type} {s : Session σ} {P : Prop} {cx : BodyScope σ} {l : Locals}

theorem gives_declare (name : Ident) (ty : Ty) :
    (cx.declare l name ty).Gives fun r => ∃ slot, r.1.vars = ⟨name.name, ty, slot⟩ :: l.vars := by
  have hrest : SessionM.Gives (σ := σ) (pure
      ((⟨⟨name.name, ty, min l.next slotLimit⟩ :: l.vars, l.next + 1⟩ : Locals),
        min l.next slotLimit)) fun r => ∃ slot, r.1.vars = ⟨name.name, ty, slot⟩ :: l.vars :=
    .pure ⟨_, rfl⟩
  unfold declare
  dsimp only
  split
  · refine .behind fun _ => ?_
    split
    · exact .behind fun _ => hrest
    · exact hrest
  · split
    · exact .behind fun _ => hrest
    · exact hrest

/-- A local variable that is declared without an error has a value. -/
theorem keeps_declared (hns : cx.names.Steady) (d : LocalVar) (hP : P → l.Known ∧ d.Parsed) :
    Keeps s P (cx.localVar l d) fun r _ => ∃ v, r.1.vars = v :: l.vars ∧ v.ty.Valued := by
  unfold localVar
  refine (NameScope.keeps_resolveType hns d.type).bind fun ty t _ => ?_
  have hrest : ∀ {s P'} (init : Option Expr), (P' → ty.Valued) → Keeps s P' (do
      let r ← cx.declare l d.name ty
      return (r.1, { d with init, slot := some r.2 })) fun r _ =>
        ∃ v, r.1.vars = v :: l.vars ∧ v.ty.Valued := by
    intro s P' init hP'
    refine (keeps_declare_all (T := fun _ => True) d.name ty fun _ =>
      ⟨fun _ _ => trivial, trivial⟩).bind fun r _ hrun => .pure fun h _ => ?_
    obtain ⟨slot, hvars⟩ := gives_declare d.name ty _ _ _ hrun
    exact ⟨_, hvars, hP' h.1⟩
  have hvalued (h : P ∧ d.type.Denotes t.symbols ty) : ty.Valued := h.2.valued (hP h.1).2.base
  dsimp only
  split
  · exact hrest none hvalued
  · next e he =>
      refine (keeps_valueWith hns e fun h => ⟨(hP h.1).1, ?_⟩).bind fun r _ _ => ?_
      · have hparsed := (hP h.1).2.init
        rwa [he] at hparsed
      refine (NameScope.keeps_requireAssignable hns _ _ _).bind fun _ _ _ => ?_
      exact hrest (some r.2) fun h => hvalued h.1.1

end BodyScope

namespace CompilationTask

variable {σ : Type} {task : CompilationTask σ} {files : FileTree} {store : UnitStore} {state : σ}
  {b : Bool} {u : Session σ}

/-- The descriptors in the artifacts of a task without errors are read back as types of values,
except for what is declared `void`. -/
theorem call_yields (hrun : task.call (task.session files store state) = (.ok b, u))
    (hclean : u.log.Clean ∨ u.outputs ≠ []) (hlibrary : u.Library) :
    List.Forall₂ (fun d o => o.name = d.binary ∧ ∃ symbol file,
        u.symbols.find? d.binary = some symbol ∧ symbol.Yields d.decl ∧
        ClassFile.decode o.buffer = .ok file ∧ file.symbol.Yields d.decl)
      (declaredClasses 0 u.sources) u.outputs := by
  obtain ⟨-, hwrote⟩ := call_wrote hrun hclean
  refine hwrote.imp fun d o ⟨symbol, made, h⟩ => ⟨h.name, ?_⟩
  obtain ⟨file, hkeeps⟩ := h.keepsSignatures (spelled_of_call hrun hclean hlibrary)
  have hyields := h.written.yields h.formed
  exact ⟨symbol, file, h.find?, hyields, hkeeps.decode, hyields.of_agrees hkeeps.agrees⟩

end CompilationTask

/-- The task that compiles a class with a parameter that is declared `void`. -/
def voidTask : CompilationTask Unit where
  options := {}
  units := [⟨"A", .source, "A", .text "class A { int[] f; void m(void x, int y) {} }"⟩]

/-- The session of the task, with a store that works in memory. -/
def voidSession : Session Unit :=
  voidTask.session ⟨[], ""⟩ (.inMemory none) ()

/-- A parameter that is declared `void` is accepted, and has no value. -/
theorem call_yields_void :
    (voidTask.call voidSession).2.log.Clean ∧
    (((voidTask.call voidSession).2.symbols.find? "A").map fun c =>
        c.methods.map MethodSig.params) = some [[.void, .int]] ∧
    List.Forall₂ (fun d o => o.name = d.binary ∧ ∃ symbol file,
        (voidTask.call voidSession).2.symbols.find? d.binary = some symbol ∧
        symbol.Yields d.decl ∧ ClassFile.decode o.buffer = .ok file ∧ file.symbol.Yields d.decl)
      (declaredClasses 0 (voidTask.call voidSession).2.sources)
      (voidTask.call voidSession).2.outputs := by
  obtain ⟨hok, hclean, hparams, horigin⟩ :
      (voidTask.call voidSession).1.isOk = true ∧ (voidTask.call voidSession).2.log.Clean ∧
      (((voidTask.call voidSession).2.symbols.find? "A").map fun c =>
        c.methods.map MethodSig.params) = some [[.void, .int]] ∧
      ∀ p ∈ (voidTask.call voidSession).2.symbols, p.2.origin ≠ .classPath := by decide +kernel
  obtain ⟨b, hrun⟩ := CompilationTask.call_of_isOk hok
  refine ⟨hclean, hparams, CompilationTask.call_yields hrun (.inl hclean) fun name c hc h => ?_⟩
  exact absurd h (horigin _ (Table.mem_of_find? hc))

end ProbeLang
