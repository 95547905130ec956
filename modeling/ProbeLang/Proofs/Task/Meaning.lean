import ProbeLang.Proofs.Meaning.Execution
import ProbeLang.Proofs.Returns
import ProbeLang.Proofs.Task.Call

/-!
# Artifacts keep the meaning of methods

The code of a method on local variables does what the method means, whatever the values are and
whatever the operators do with them: it returns what the method returns, and runs for ever if the
method does.
-/

namespace ProbeLang

open SessionM

/-- Whether running a method of an artifact does what a declared method means, for all values and
operators and whatever the slots hold at first. -/
def MethodInfo.KeepsMeaning (pool : ConstantPool) (info : MethodInfo) (m : MethodDecl) (ret : Ty) :
    Prop :=
  ∀ {V : Type} (I : Interpretation V) (l : Slots V),
    (∀ value l', Status.Reaches I (info.fetch pool) (.running 0 [] l) (.returned value l') ↔
      m.Returns I ret l value l') ∧
    (Status.RunsForever I (info.fetch pool) (.running 0 [] l) ↔ m.RunsForever I l)

namespace ClassDecl

variable {c : ClassDecl} {symbol : ClassSymbol} {superclass : String} {i : Nat} {m : MethodDecl}

/-- The symbolic method of a declared method stands behind the initialiser of instances. -/
theorem symbolicMethods_getElem? (hsigns : symbol.Signs c) (hm : c.methods[i]? = some m) :
    ∃ sig, symbol.methods[i]? = some sig ∧
      (c.symbolicMethods symbol superclass)[i + 1]? = some (m.symbolic sig) := by
  have hi := (List.getElem?_eq_some_iff.mp hm).1
  obtain ⟨sig, hsig⟩ : ∃ sig, symbol.methods[i]? = some sig :=
    ⟨_, List.getElem?_eq_getElem (hsigns.length_methods ▸ hi)⟩
  refine ⟨sig, hsig, ?_⟩
  have hzip : (c.methods.zip symbol.methods)[i]? = some (m, sig) :=
    List.getElem?_zip_eq_some.mpr ⟨hm, hsig⟩
  rw [symbolicMethods, List.cons_append, List.getElem?_cons_succ, List.getElem?_append_left,
    List.getElem?_map, hzip, Option.map_some]
  · rw [List.length_map]
    exact (List.getElem?_eq_some_iff.mp hzip).1

end ClassDecl

/-- The methods of the artifact of a class, with their symbolic code in their bytes. -/
theorem Session.Wrote.methods {σ : Type} {u : Session σ} {d : DeclaredClass} {o : Sink}
    {symbol : ClassSymbol} {made : ClassFile} (h : u.Wrote d o symbol made) :
    ∃ file, ClassFile.decode o.buffer = .ok file ∧ ∀ i m, d.decl.methods[i]? = some m →
      ∃ sig info, symbol.methods[i]? = some sig ∧ file.methods[i + 1]? = some info ∧
        info.name = m.name.name ∧ info.descriptor = sig.descriptor ∧ m.firstLock sig ≤ 65536 ∧
        (info.fetch file.pool).Holds 0 (m.code sig) ∧
        info.fetch file.pool (Code.size (m.code sig)) = none := by
  obtain ⟨pool, hdecode, hlength, hlinks⟩ := ClassDecl.decode_links h.made h.encoded
  refine ⟨_, hdecode, fun i m hm => ?_⟩
  obtain ⟨sig, hsig, hsym⟩ := ClassDecl.symbolicMethods_getElem? h.written.signs hm
  obtain ⟨info, hinfo, hlink⟩ := exists_getElem?_of_forall₂ hlinks hsym
  have hcode := hlength info (List.mem_of_getElem? hinfo)
  have hclosed := ClassDecl.symbolicMethods_closed h.fit h.written.signs _ _ (List.mem_of_getElem? hsym)
  obtain ⟨code, hwell⟩ := hlink.wellFormed hclosed hcode
  have hslots : m.firstLock sig ≤ 65536 := by
    have hlocals := hlink.maxLocals
    have := info.maxLocals.toNat_lt
    simp only [MethodDecl.symbolic] at hlocals
    omega
  exact ⟨sig, info, hsig, hinfo, hlink.name, hlink.descriptor, hslots, hwell.holds hcode,
    hwell.fetch_end⟩

namespace CompilationTask

variable {σ : Type} {task : CompilationTask σ} {files : FileTree} {store : UnitStore} {state : σ}
  {b : Bool} {u : Session σ}

/-- Every method of a task without errors whose body is in the fragment has code that does what the
method means. -/
theorem call_keeps_meaning
    (hrun : task.call (task.session files store state) = (.ok b, u))
    (hclean : u.log.Clean ∨ u.outputs ≠ []) :
    List.Forall₂ (fun d o => o.name = d.binary ∧ ∃ symbol file,
        u.symbols.find? d.binary = some symbol ∧ ClassFile.decode o.buffer = .ok file ∧
        ∀ i m, d.decl.methods[i]? = some m → ∃ sig info, symbol.methods[i]? = some sig ∧
          file.methods[i + 1]? = some info ∧ info.name = m.name.name ∧
          info.descriptor = sig.descriptor ∧
          (Stmt.allLocal m.body.body = true → info.KeepsMeaning file.pool m sig.ret))
      (declaredClasses 0 u.sources) u.outputs := by
  obtain ⟨-, hwrote⟩ := call_wrote hrun hclean
  refine hwrote.imp fun d o ⟨symbol, made, h⟩ => ⟨h.name, ?_⟩
  obtain ⟨file, hdecode, hmethods⟩ := h.methods
  refine ⟨symbol, file, h.find?, hdecode, fun i m hm => ?_⟩
  obtain ⟨sig, info, hsig, hinfo, hname, hdescriptor, hslots, hcode, hend⟩ := hmethods i m hm
  refine ⟨sig, info, hsig, hinfo, hname, hdescriptor, fun hlocal V I l => ?_⟩
  exact MethodDecl.code_refines hlocal (h.fit.methods (List.mem_of_getElem? hm)).declared hslots
    hcode hend l

end CompilationTask

/-- A class with a loop on local variables. -/
def sumUnit : CompilationUnit where
  name := "Sum"
  kind := .source
  uri := "Sum"
  origin := .text
    "class Sum { int upTo(int n) { int s = 0; while (n > 0) { s = s + n; n = n - 1; } return s; } }"

/-- The task that compiles the class. -/
def sumTask : CompilationTask Unit where
  options := {}
  units := [sumUnit]

/-- The session of the task, with a store that works in memory. -/
def sumSession : Session Unit :=
  sumTask.session ⟨[], ""⟩ (.inMemory none) ()

theorem call_keeps_meaning_sum :
    ((declaredClasses 0 (sumTask.call sumSession).2.sources).map fun d =>
        (d.binary, d.decl.methods.map fun m => (m.name.name, Stmt.allLocal m.body.body))) =
      [("Sum", [("upTo", true)])] ∧
    List.Forall₂ (fun d o => o.name = d.binary ∧ ∃ symbol file,
        (sumTask.call sumSession).2.symbols.find? d.binary = some symbol ∧
        ClassFile.decode o.buffer = .ok file ∧
        ∀ i m, d.decl.methods[i]? = some m → ∃ sig info, symbol.methods[i]? = some sig ∧
          file.methods[i + 1]? = some info ∧ info.name = m.name.name ∧
          info.descriptor = sig.descriptor ∧
          (Stmt.allLocal m.body.body = true → info.KeepsMeaning file.pool m sig.ret))
      (declaredClasses 0 (sumTask.call sumSession).2.sources)
      (sumTask.call sumSession).2.outputs := by
  have hok : (sumTask.call sumSession).1.isOk = true := by decide +kernel
  have hwritten : (sumTask.call sumSession).2.outputs.isEmpty = false := by decide +kernel
  obtain ⟨b, hrun⟩ := CompilationTask.call_of_isOk hok
  refine ⟨by decide +kernel, CompilationTask.call_keeps_meaning hrun (.inr fun h => ?_)⟩
  rw [h] at hwritten
  cases hwritten

/-! ## Methods that give back values

A task that reports no error has made sure that control does not reach the end of a method with a
result. The code of such a method keeps to that: whatever values it works on, and whatever the
methods that it calls give back, a run of it leaves with a value, throws, or goes on for ever. -/

namespace CompilationTask

variable {σ : Type} {task : CompilationTask σ} {files : FileTree} {store : UnitStore} {state : σ}
  {b : Bool} {u : Session σ}

/-- No run of a method with a result comes to the end of its code or returns without a value, in any
class that is compiled without errors. -/
theorem call_gives_values
    (hrun : task.call (task.session files store state) = (.ok b, u))
    (hclean : u.log.Clean ∨ u.outputs ≠ []) :
    List.Forall₂ (fun d o => o.name = d.binary ∧ ∃ symbol file,
        u.symbols.find? d.binary = some symbol ∧ ClassFile.decode o.buffer = .ok file ∧
        ∀ i m, d.decl.methods[i]? = some m → ∃ sig info, symbol.methods[i]? = some sig ∧
          file.methods[i + 1]? = some info ∧ info.name = m.name.name ∧
          info.descriptor = sig.descriptor ∧ (sig.ret ≠ .void → info.GivesValue file.pool))
      (declaredClasses 0 u.sources) u.outputs := by
  obtain ⟨-, hwrote⟩ := call_wrote hrun hclean
  refine hwrote.imp fun d o ⟨symbol, made, h⟩ => ⟨h.name, ?_⟩
  obtain ⟨file, hdecode, hmethods⟩ := h.methods
  refine ⟨symbol, file, h.find?, hdecode, fun i m hm => ?_⟩
  obtain ⟨sig, info, hsig, hinfo, hname, hdescriptor, -, hcode, -⟩ := hmethods i m hm
  refine ⟨sig, info, hsig, hinfo, hname, hdescriptor, fun hret => ?_⟩
  have hmem := List.mem_of_getElem? hm
  obtain ⟨sig', hsig', hwritten⟩ := exists_getElem?_of_forall₂ h.written.methods hm
  cases hsig.symm.trans hsig'
  -- A method that is declared without a result has none in its signature either.
  have hbase : m.ret.base ≠ .void := fun hbase =>
    hret (hwritten.ret.eq_void (h.formed.methods m hmem).ret hbase)
  exact MethodInfo.givesValue fun T k =>
    MethodDecl.code_safe (h.concludes.methods m hmem) hbase hcode k

end CompilationTask

/-- A unit with branches that return and a loop that has no end. -/
def pickUnit : CompilationUnit where
  name := "Pick"
  kind := .source
  uri := "Pick"
  origin := .text
    "class Pick { int pick(int a, int b) { if (a < b) return b; else while (true) a = pick(b, a); } }"

/-- The task that compiles the unit. -/
def pickTask : CompilationTask Unit where
  options := {}
  units := [pickUnit]

/-- The session of the task, with a store that works in memory. -/
def pickSession : Session Unit :=
  pickTask.session ⟨[], ""⟩ (.inMemory none) ()

theorem call_gives_values_pick :
    (((pickTask.call pickSession).2.symbols.find? "Pick").map fun c =>
        c.methods.map fun m => (m.name, m.ret)) = some [("pick", .int)] ∧
    List.Forall₂ (fun d o => o.name = d.binary ∧ ∃ symbol file,
        (pickTask.call pickSession).2.symbols.find? d.binary = some symbol ∧
        ClassFile.decode o.buffer = .ok file ∧
        ∀ i m, d.decl.methods[i]? = some m → ∃ sig info, symbol.methods[i]? = some sig ∧
          file.methods[i + 1]? = some info ∧ info.name = m.name.name ∧
          info.descriptor = sig.descriptor ∧ (sig.ret ≠ .void → info.GivesValue file.pool))
      (declaredClasses 0 (pickTask.call pickSession).2.sources)
      (pickTask.call pickSession).2.outputs := by
  obtain ⟨hok, hwritten, hmethods⟩ :
      (pickTask.call pickSession).1.isOk = true ∧
      (pickTask.call pickSession).2.outputs.isEmpty = false ∧
      (((pickTask.call pickSession).2.symbols.find? "Pick").map fun c =>
        c.methods.map fun m => (m.name, m.ret)) = some [("pick", .int)] := by decide +kernel
  obtain ⟨b, hrun⟩ := CompilationTask.call_of_isOk hok
  refine ⟨hmethods, CompilationTask.call_gives_values hrun (.inr fun h => ?_)⟩
  rw [h] at hwritten
  cases hwritten

end ProbeLang
