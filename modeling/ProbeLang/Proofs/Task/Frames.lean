import ProbeLang.Proofs.Code.Frames
import ProbeLang.Proofs.Task.Meaning

/-!
# Slots in artifacts

The slots of every method of an artifact that a task has written are the numbers below its count of
slots. Each is for one thing: for `this`, for a parameter, for a local variable, whether it is in scope
together with the others or not, or for what one synchronized statement locks. A name that means a
variable loads and stores the slot of the declaration that is in scope where it stands.
-/

namespace ProbeLang

open Code SessionM

/-- What stands in code that stands at a place is found there. -/
theorem Fetch.Holds.of_stands {fetch : Fetch} {pc p : Nat} {c d : List (Instr String)}
    (h : fetch.Holds pc c) (hd : Stands pc c p d) : fetch.Holds p d := by
  obtain ⟨before, behind, rfl, rfl⟩ := hd
  exact (append_iff.mp (append_iff.mp h).1).2

/-- Whether a method of an artifact has the slots of a declared method and no others, with the code of
every statement and of everything that is evaluated, and the names in the declared method refer to
the slots that they have. -/
structure MethodInfo.LaysOut (pool : ConstantPool) (info : MethodInfo) (m : MethodDecl)
    (sig : MethodSig) : Prop where
  inScope : m.Scoped
  frame : m.frame sig = (List.range info.maxLocals.toNat).map some
  statements : ∀ q ∈ Stmt.allSpots 0 (m.firstLock sig) m.body.body,
    (info.fetch pool).Holds q.1 (Stmt.spotCode q)
  values : ∀ x ∈ Stmt.evaluatedAll m.body.body, ∃ p, (info.fetch pool).Holds p (x.code p)

namespace MethodInfo.LaysOut

variable {pool : ConstantPool} {info : MethodInfo} {m : MethodDecl} {sig : MethodSig}

/-- No two things in a method have the same slot. -/
theorem distinct (h : info.LaysOut pool m sig) : (m.frame sig).Nodup := by
  rw [h.frame]
  exact List.Pairwise.map some (fun _ _ hne h => hne (Option.some.inj h)) List.nodup_range

theorem below (h : info.LaysOut pool m sig) :
    ∀ slot ∈ m.frame sig, ∃ k < info.maxLocals.toNat, slot = some k := by
  intro slot hslot
  rw [h.frame] at hslot
  obtain ⟨k, hk, rfl⟩ := List.mem_map.mp hslot
  exact ⟨k, List.mem_range.mp hk, rfl⟩

end MethodInfo.LaysOut

/-- Whether the methods of an artifact have the slots of those of a class, and its initialisers, in
which there are no local variables, no slots but that of `this`. -/
structure ClassFile.LaysOut (file : ClassFile) (c : ClassDecl) (symbol : ClassSymbol) : Prop where
  count : file.methods.length ≤ c.methods.length + 2
  instanceInit : ∃ info, file.methods[0]? = some info ∧ info.name = "<init>" ∧ info.maxLocals = 1
  methods : ∀ i m, c.methods[i]? = some m → ∃ sig info, symbol.methods[i]? = some sig ∧
    file.methods[i + 1]? = some info ∧ info.name = m.name.name ∧
    info.descriptor = sig.descriptor ∧ info.LaysOut file.pool m sig ∧ (m.frame sig).Nodup ∧
    ∀ slot ∈ m.frame sig, ∃ k < info.maxLocals.toNat, slot = some k
  classInit : ∀ info, file.methods[c.methods.length + 1]? = some info →
    info.name = "<clinit>" ∧ info.maxLocals = 0
  values : ∀ f ∈ c.fields, f.Scoped

namespace ClassSymbol.Signs

/-- The signature of a method describes the method. -/
theorem describes {symbol : ClassSymbol} {c : ClassDecl} {i : Nat} {m : MethodDecl}
    {sig : MethodSig} (h : symbol.Signs c) (hm : c.methods[i]? = some m)
    (hsig : symbol.methods[i]? = some sig) : sig.Describes m := by
  have hkey := congrArg (fun keys => keys[i]?) h.methods
  simp only [List.getElem?_map, hm, hsig, Option.map_some, Option.some.injEq, Prod.mk.injEq] at hkey
  exact ⟨hkey.2.2, hkey.2.1⟩

end ClassSymbol.Signs

/-- Behind the declared methods comes the initialiser of the class, if there is one. -/
theorem ClassDecl.symbolicMethods_behind {c : ClassDecl} {symbol : ClassSymbol}
    (superclass : String) (h : symbol.Signs c) :
    (c.symbolicMethods symbol superclass).drop (c.methods.length + 1) =
      if c.fields.any fun f => f.modifiers.has .isStatic && f.init.isSome then
        [c.symbolicClassInit symbol]
      else [] := by
  refine List.drop_left' ?_
  rw [List.length_cons, List.length_map, List.length_zip, h.length_methods, Nat.min_self]

namespace Session.Wrote

variable {σ : Type} {u : Session σ} {d : DeclaredClass} {o : Sink} {symbol : ClassSymbol}
  {made : ClassFile}

/-- The methods of the artifact of a class have as many slots as their symbolic methods. -/
theorem slots (h : u.Wrote d o symbol made) :
    ∃ file, ClassFile.decode o.buffer = .ok file ∧
      List.Forall₂ (fun info sym => info.name = sym.name ∧ info.maxLocals.toNat = sym.locals)
        file.methods
        (d.decl.symbolicMethods symbol ((ClassDecl.superclassName symbol).getD objectName)) := by
  obtain ⟨pool, hdecode, -, hlinks⟩ := ClassDecl.decode_links h.made h.encoded
  exact ⟨_, hdecode, hlinks.imp fun _ _ hlink => ⟨hlink.name, hlink.maxLocals⟩⟩

/-- The artifact of a class has the slots of the class. -/
theorem laysOut (h : u.Wrote d o symbol made) :
    ∃ file, ClassFile.decode o.buffer = .ok file ∧ file.LaysOut d.decl symbol := by
  obtain ⟨file, hdecode, hslots⟩ := h.slots
  obtain ⟨file', hdecode', hmethods⟩ := h.methods
  cases hdecode.symm.trans hdecode'
  have hbehind := ClassDecl.symbolicMethods_behind
    ((ClassDecl.superclassName symbol).getD objectName) h.written.signs
  refine ⟨file, hdecode, ?_, ?_, fun i m hm => ?_, fun info hinfo => ?_, h.inScope.fields⟩
  · have hlength := congrArg List.length hbehind
    rw [List.length_drop, ← hslots.length_eq] at hlength
    split at hlength <;> simp at hlength <;> omega
  · obtain ⟨info, hinfo, hname, hlocals⟩ := exists_getElem?_of_forall₂ hslots (i := 0) rfl
    exact ⟨info, hinfo, hname, UInt16.toNat_inj.mp hlocals⟩
  · obtain ⟨sig, info, hsig, hinfo, hname, hdescriptor, -, hcode, -⟩ := hmethods i m hm
    obtain ⟨sig', hsig', hsym⟩ := ClassDecl.symbolicMethods_getElem? h.written.signs hm
    cases hsig.symm.trans hsig'
    obtain ⟨info', hinfo', -, hlocals⟩ := exists_getElem?_of_forall₂ hslots hsym
    cases hinfo.symm.trans hinfo'
    have hscoped := h.inScope.methods m (List.mem_of_getElem? hm)
    have hfit := h.fit.methods (List.mem_of_getElem? hm)
    have hframe := MethodDecl.frame_eq hscoped (h.written.signs.describes hm hsig)
    have hlaysOut : info.LaysOut file.pool m sig := by
      refine ⟨hscoped, hframe.trans (by rw [hlocals]; rfl), fun q hq => ?_, fun x hx => ?_⟩
      · exact hcode.of_stands ((Stmt.allSpots_stand m.body.body 0 (m.firstLock sig) q hq).left _)
      · obtain ⟨p, hp⟩ := Stmt.allEvaluated_stand m.body.body 0 (m.firstLock sig)
          ⟨fun y hy => (hfit.evaluated y hy).attributed.resolved, hfit.declared⟩ hx
        exact ⟨p, hcode.of_stands (hp.left _)⟩
    exact ⟨sig, info, hsig, hinfo, hname, hdescriptor, hlaysOut, hlaysOut.distinct, hlaysOut.below⟩
  · obtain ⟨sym, hsym, hname, hlocals⟩ := exists_getElem?_of_forall₂ hslots.flip hinfo
    have hmem : sym ∈ List.drop (d.decl.methods.length + 1) _ :=
      List.mem_of_getElem? (i := 0) (List.getElem?_drop.trans hsym)
    rw [hbehind] at hmem
    split at hmem
    · obtain rfl := List.mem_singleton.mp hmem
      exact ⟨hname, UInt16.toNat_inj.mp hlocals⟩
    · cases hmem

end Session.Wrote

/-- Every method of a class that is compiled without errors has its slots shared out: to `this`, the
parameters, the declared local variables and the locks, each its own, up to the count of slots. -/
theorem CompilationTask.call_lays_out {σ : Type} {task : CompilationTask σ} {files : FileTree}
    {store : UnitStore} {state : σ} {b : Bool} {u : Session σ}
    (hrun : task.call (task.session files store state) = (.ok b, u))
    (hclean : u.log.Clean ∨ u.outputs ≠ []) :
    List.Forall₂ (fun d o => o.name = d.binary ∧ ∃ symbol file,
        u.symbols.find? d.binary = some symbol ∧ ClassFile.decode o.buffer = .ok file ∧
          file.LaysOut d.decl symbol)
      (declaredClasses 0 u.sources) u.outputs := by
  obtain ⟨-, hwrote⟩ := call_wrote hrun hclean
  refine hwrote.imp fun d o ⟨symbol, made, h⟩ => ⟨h.name, symbol, ?_⟩
  obtain ⟨file, hdecode, hlaysOut⟩ := h.laysOut
  exact ⟨file, h.find?, hdecode, hlaysOut⟩

/-- A unit with scopes beside one another that declare the same name, and a lock within a lock. -/
def scopesUnit : CompilationUnit where
  name := "Scopes"
  kind := .source
  uri := "Scopes"
  origin := .text
    "class Scopes { int f(int a, int b) { synchronized (this) { int c = a; synchronized (this) { b = c; } } for (int c = 0; c < b; c = c + 1) a = c; return a; } static int g(int a) { int b = a; return b; } }"

/-- The task that compiles the unit. -/
def scopesTask : CompilationTask Unit where
  options := {}
  units := [scopesUnit]

/-- The session of the task, with a store that works in memory. -/
def scopesSession : Session Unit :=
  scopesTask.session ⟨[], ""⟩ (.inMemory none) ()

theorem call_lays_out_scopes :
    ((declaredClasses 0 (scopesTask.call scopesSession).2.sources).flatMap fun d =>
        d.decl.methods.map fun m => (m.bindings.reverse,
          (Stmt.allLocalVars m.body.body).map fun v => (v.name.name, v.slot))) =
      [([("a", 1), ("b", 2)], [("c", some 3), ("c", some 4)]), ([("a", 0)], [("b", some 1)])] ∧
    List.Forall₂ (fun d o => o.name = d.binary ∧ ∃ symbol file,
        (scopesTask.call scopesSession).2.symbols.find? d.binary = some symbol ∧
        ClassFile.decode o.buffer = .ok file ∧ file.LaysOut d.decl symbol)
      (declaredClasses 0 (scopesTask.call scopesSession).2.sources)
      (scopesTask.call scopesSession).2.outputs := by
  obtain ⟨hok, hwritten, hmethods⟩ :
      (scopesTask.call scopesSession).1.isOk = true ∧
      (scopesTask.call scopesSession).2.outputs.isEmpty = false ∧
      ((declaredClasses 0 (scopesTask.call scopesSession).2.sources).flatMap fun d =>
        d.decl.methods.map fun m => (m.bindings.reverse,
          (Stmt.allLocalVars m.body.body).map fun v => (v.name.name, v.slot))) =
        [([("a", 1), ("b", 2)], [("c", some 3), ("c", some 4)]), ([("a", 0)], [("b", some 1)])] := by
    decide +kernel
  obtain ⟨b, hrun⟩ := CompilationTask.call_of_isOk hok
  refine ⟨hmethods, CompilationTask.call_lays_out hrun (.inr fun h => ?_)⟩
  rw [h] at hwritten
  cases hwritten

end ProbeLang
