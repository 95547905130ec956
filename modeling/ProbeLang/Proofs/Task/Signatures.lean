import ProbeLang.Proofs.Analysis.Lookup
import ProbeLang.Proofs.Code.Signatures
import ProbeLang.Proofs.Task.Call

/-!
# Separate compilation keeps signatures

A class that is read back from its artifact has the superclass, the enclosing class and the members
that it had when it was compiled. So in a session that knows classes from their artifacts, members are
found in the same classes and with the same types as in the session that has compiled the classes, and
calls mean the same methods.

Types are read back from descriptors, which can be done only for names without the signs of
descriptors. Declared classes have such names, and so have classes from a library that has itself
been compiled.
-/

namespace ProbeLang

open SessionM

/-- Whether bytes are an artifact that a task has written. -/
def Generated (bytes : Bytes) : Prop :=
  ∃ (σ : Type) (task : CompilationTask σ) (files : FileTree) (store : UnitStore) (state : σ)
    (b : Bool) (u : Session σ), task.call (task.session files store state) = (.ok b, u) ∧
      ∃ o ∈ u.outputs, o.buffer = bytes

/-- The name of a class that has been compiled is spelled. -/
theorem Generated.spelled {bytes : Bytes} {file : ClassFile} (h : Generated bytes)
    (hdecode : ClassFile.decode bytes = .ok file) : Spelled file.name := by
  obtain ⟨σ, task, files, store, state, b, u, hrun, o, ho, rfl⟩ := h
  obtain ⟨-, hwrote⟩ := CompilationTask.call_wrote hrun (.inr (List.ne_nil_of_mem ho))
  obtain ⟨d, -, symbol, made, hmade⟩ := exists_of_mem_right hwrote ho
  obtain ⟨pool, hdecode', -⟩ := ClassDecl.decode_links hmade.made hmade.encoded
  rw [hdecode'] at hdecode
  cases hdecode
  have hname : made.name = d.binary := (d.classFile_header hmade.entered hmade.made).1
  show Spelled made.name
  rw [hname]
  exact hmade.spelled

namespace Session

variable {σ τ : Type}

/-- Whether all classes that a session has found on its class path have been compiled. -/
def Library (u : Session σ) : Prop :=
  ∀ name c, u.symbols.find? name = some c → c.origin = .classPath →
    ∃ bytes file, Generated bytes ∧ ClassFile.decode bytes = .ok file ∧ file.symbol = c

/-- All classes that a session knows have names that are spelled, if those that it declares do. -/
theorem spelled_of_has {u : Session σ} (hsound : u.Sound) (hlibrary : u.Library)
    (hdeclared : ∀ {d}, u.Declares d → Spelled d.binary) {name : String}
    (hname : u.symbols.has name = true) : Spelled name := by
  obtain ⟨c, hc⟩ := Table.has_eq_true.mp hname
  cases horigin : c.origin with
  | source unit place =>
      have hsource : c.isSource = true := by rw [ClassSymbol.isSource, horigin]
      obtain ⟨d, hd, rfl, -⟩ := hsound.origin hc hsource
      exact hdeclared hd
  | classPath =>
      obtain ⟨bytes, file, hgenerated, hdecode, rfl⟩ := hlibrary name c hc horigin
      rw [← hsound.named hc]
      exact hgenerated.spelled hdecode
  | builtin => exact SymbolTable.spelled_builtins (hsound.builtin hc horigin)

/-- Whether a session finds given bytes as the artifact of a class. -/
def Offers (v : Session τ) (name : String) (bytes : Bytes) : Prop :=
  ∃ unit, (v.store.input v.files .classPath name .artifact).1 = .ok (some unit) ∧
    unit.bytes v.files = .ok bytes

/-- Whether an output is an artifact that keeps the signatures of a declared class: its symbol tells
the same of the class as the completed symbol it was made from, and it is the symbol that a session
gets that loads the artifact. -/
structure KeepsSignatures (u : Session σ) (d : DeclaredClass) (o : Sink) (symbol : ClassSymbol)
    (file : ClassFile) : Prop where
  name : o.name = d.binary
  find? : u.symbols.find? d.binary = some symbol
  completed : symbol.completed = true
  decode : ClassFile.decode o.buffer = .ok file
  agrees : file.symbol.Agrees symbol
  loaded : ∀ {τ : Type} {v : Session τ}, v.Offers d.binary o.buffer →
    v.symbols.has d.binary = false →
    ∃ w, (loadArtifact d.binary).run.run v = (.ok true, w) ∧
      w.symbols = v.symbols ++ [(d.binary, file.symbol)]

/-- Whether a session knows a class and all its superclasses as another does that has compiled them:
by the same symbols or by the artifacts. -/
def ReadsBack (u : Session σ) (v : Session τ) (cls : String) : Prop :=
  ∀ sup ∈ u.symbols.supertypes cls, ∃ c, u.symbols.find? sup = some c ∧
    (v.symbols.find? sup = some c ∨
      ∃ o ∈ u.outputs, o.name = sup ∧ ∃ file, ClassFile.decode o.buffer = .ok file ∧
        v.symbols.find? sup = some file.symbol)

end Session

/-- An artifact that is found under the name of its class is loaded. -/
theorem SessionM.run_loadArtifact {τ : Type} {v : Session τ} {name : String} {bytes : Bytes}
    {file : ClassFile} (hoffers : v.Offers name bytes) (hdecode : ClassFile.decode bytes = .ok file)
    (hname : file.name = name) (hfree : v.symbols.has name = false) :
    ∃ w, (loadArtifact name).run.run v = (.ok true, w) ∧
      w.symbols = v.symbols ++ [(name, file.symbol)] := by
  obtain ⟨unit, hinput, hbytes⟩ := hoffers
  have hrun : (input .classPath name .artifact).run.run v =
      (.ok (some unit), { v with store := (v.store.input v.files .classPath name .artifact).2 }) := by
    unfold input
    rw [run_get_bind]
    dsimp only
    rw [hinput]
    rfl
  have hinsert : v.symbols.insert? file.symbol = some (v.symbols ++ [(name, file.symbol)]) := by
    have hbinary : file.symbol.binary = name := hname
    rw [SymbolTable.insert?, hbinary, if_neg (by rw [hfree]; exact Bool.false_ne_true)]
  unfold loadArtifact
  rw [run_bind_ok hrun]
  dsimp only
  rw [run_get_bind, hbytes]
  refine ⟨{ v with
    store := (v.store.input v.files .classPath name .artifact).2
    symbols := v.symbols ++ [(name, file.symbol)] }, ?_, rfl⟩
  rw [run_bind_ok (show (ofIo (.ok bytes)).run.run _ = (.ok bytes, _) from rfl), hdecode]
  dsimp only
  rw [if_pos hname, run_get_bind]
  dsimp only
  rw [hinsert]
  rfl

namespace Session

variable {σ τ : Type} {u : Session σ}

/-- The artifact of a class keeps its signatures if the names of all known classes are spelled. -/
theorem Wrote.keepsSignatures {d : DeclaredClass} {o : Sink} {symbol : ClassSymbol}
    {made : ClassFile} (h : u.Wrote d o symbol made)
    (hspelled : ∀ {name}, u.symbols.has name = true → Spelled name) :
    ∃ file, u.KeepsSignatures d o symbol file := by
  obtain ⟨pool, hdecode, -⟩ := ClassDecl.decode_links h.made h.encoded
  have hname : made.name = d.binary := (d.classFile_header h.entered h.made).1
  refine ⟨_, h.name, h.find?, h.written.completed, hdecode, ?_, fun hoffers hfree => ?_⟩
  · exact ClassDecl.symbol_classFile hspelled h.formed h.written h.superclass h.made pool
  · exact run_loadArtifact hoffers hdecode hname hfree

/-- All classes that are known in the end have been completed. -/
theorem completed_of_find? (hsound : u.Sound) (hlibrary : u.Library)
    (hkeeps : ∀ {d}, u.Declares d → ∃ o symbol file, u.KeepsSignatures d o symbol file)
    {name : String} {c : ClassSymbol} (hc : u.symbols.find? name = some c) : c.completed = true := by
  cases horigin : c.origin with
  | source unit place =>
      have hsource : c.isSource = true := by rw [ClassSymbol.isSource, horigin]
      obtain ⟨d, hd, rfl, -⟩ := hsound.origin hc hsource
      obtain ⟨o, symbol, file, hkeep⟩ := hkeeps hd
      have hfind := hkeep.find?
      rw [hc] at hfind
      cases hfind
      exact hkeep.completed
  | classPath =>
      obtain ⟨bytes, file, -, -, rfl⟩ := hlibrary name c hc horigin
      rfl
  | builtin => exact (SymbolTable.builtin_of_find? (hsound.builtin hc horigin)).completed

/-- What has been read back is shared. -/
theorem ReadsBack.share {v : Session τ} {cls : String} (h : u.ReadsBack v cls) (hsound : u.Sound)
    (hlibrary : u.Library)
    (hkeeps : List.Forall₂ (fun d o => ∃ symbol file, u.KeepsSignatures d o symbol file)
      (declaredClasses 0 u.sources) u.outputs) : u.Share v cls := by
  have hcompleted {name : String} {c : ClassSymbol} (hc : u.symbols.find? name = some c) :
      c.completed = true := by
    refine completed_of_find? hsound hlibrary (fun hd => ?_) hc
    obtain ⟨o, -, hkeep⟩ := exists_of_mem_left hkeeps (declares_iff.mp hd)
    exact ⟨o, hkeep⟩
  have hshared : ∀ sup ∈ u.symbols.supertypes cls, ∃ c c', u.symbols.find? sup = some c ∧
      v.symbols.find? sup = some c' ∧ c'.completed = true ∧ c'.Agrees c := by
    intro sup hsup
    obtain ⟨c, hc, hc' | ⟨o, ho, rfl, file, hdecode, hc'⟩⟩ := h sup hsup
    · exact ⟨c, c, hc, hc', hcompleted hc, .refl c⟩
    · obtain ⟨d, -, symbol, file', hkeep⟩ := exists_of_mem_right hkeeps ho
      have hfind := hkeep.find?
      have hdecode' := hkeep.decode
      rw [← hkeep.name, hc] at hfind
      rw [hdecode] at hdecode'
      cases hfind
      cases hdecode'
      exact ⟨c, _, hc, hc', rfl, hkeep.agrees⟩
  constructor
  · intro sup hsup
    obtain ⟨c, c', hc, hc', -, hagrees⟩ := hshared sup hsup
    exact ⟨c, c', hc, hc', hagrees⟩
  · intro sup hsup
    obtain ⟨c, c', hc, -⟩ := hshared sup hsup
    exact ⟨c, hc, hcompleted hc⟩
  · intro sup hsup
    obtain ⟨c, c', -, hc', hcompleted', -⟩ := hshared sup hsup
    exact ⟨c', hc', hcompleted'⟩

end Session

namespace CompilationTask

variable {σ : Type} {task : CompilationTask σ} {files : FileTree} {store : UnitStore} {state : σ}
  {b : Bool} {u : Session σ}

/-- The names of all classes that a task without errors knows are spelled. -/
theorem spelled_of_call (hrun : task.call (task.session files store state) = (.ok b, u))
    (hclean : u.log.Clean ∨ u.outputs ≠ []) (hlibrary : u.Library) {name : String}
    (hname : u.symbols.has name = true) : Spelled name := by
  obtain ⟨hsound, hwrote⟩ := call_wrote hrun hclean
  refine Session.spelled_of_has hsound hlibrary (fun {d} hd => ?_) hname
  obtain ⟨o, -, symbol, file, h⟩ := exists_of_mem_left hwrote (Session.declares_iff.mp hd)
  exact h.spelled

/-- The artifacts of a task without errors keep the signatures of its classes. So a session that
knows a class and its superclasses from them finds the same fields and calls the same methods as the
session of the task. -/
theorem call_keeps_signatures
    (hrun : task.call (task.session files store state) = (.ok b, u))
    (hclean : u.log.Clean ∨ u.outputs ≠ []) (hlibrary : u.Library) :
    List.Forall₂ (fun d o => ∃ symbol file, u.KeepsSignatures d o symbol file)
      (declaredClasses 0 u.sources) u.outputs ∧
    ∀ {τ : Type} {v : Session τ} {cx : BodyScope σ} {cx' : BodyScope τ},
      cx.names.Bounded u → cx'.names.Bounded v → ∀ cls, u.ReadsBack v cls →
        (∀ name, Concur u (cx.findField cls name) v (cx'.findField cls name)) ∧
        ∀ name args static, (∀ a ∈ args, ∀ c, a.class? = some c → u.ReadsBack v c) →
          ∃ called t t', (cx.callOn name args cls static).run.run u = (.ok called, t) ∧
            (cx'.callOn name args cls static).run.run v = (.ok called, t') := by
  obtain ⟨hsound, hwrote⟩ := call_wrote hrun hclean
  have hkeeps : List.Forall₂ (fun d o => ∃ symbol file, u.KeepsSignatures d o symbol file)
      (declaredClasses 0 u.sources) u.outputs :=
    hwrote.imp fun d o ⟨symbol, made, h⟩ =>
      ⟨symbol, h.keepsSignatures (spelled_of_call hrun hclean hlibrary)⟩
  refine ⟨hkeeps, fun {τ v cx cx'} hcx hcx' cls hcls =>
    ⟨BodyScope.concur_findField hcx hcx' (hcls.share hsound hlibrary hkeeps),
      fun name args static hargs => ?_⟩⟩
  exact BodyScope.callOn_agrees hcx hcx' (hcls.share hsound hlibrary hkeeps)
    (fun a ha c hc => (hargs a ha c hc).share hsound hlibrary hkeeps) name static

end CompilationTask

/-- A task that compiles a text, with artifacts in a directory. -/
def libraryTask (name text : String) : CompilationTask Unit where
  options := { classPath := some ["lib"] }
  units := [⟨name, .source, name, .text text⟩]

/-- The directory with the artifacts. -/
def libraryFiles (artifacts : ArtifactMap) : FileTree where
  entries := (["lib"], .dir) ::
    artifacts.map fun (name, bytes) => (["lib", name ++ ".class"], .file bytes)

/-- The task that compiles a class of a library. -/
def baseTask : CompilationTask Unit :=
  libraryTask "Base" "class Base { int size; int grow(int by) { return by; } }"

/-- The session of the task, with a store that works in memory. -/
def baseSession : Session Unit :=
  baseTask.session (libraryFiles []) (.inMemory none) ()

/-- The artifact of the class. -/
def baseArtifact : Bytes :=
  ((baseTask.call baseSession).2.outputs.head?.map Sink.buffer).getD []

/-- The task that compiles a class which extends that of the library. -/
def boxTask : CompilationTask Unit :=
  libraryTask "Box" "class Box extends Base { Box[] parts; int grow(Box by) { return 1; } }"

/-- The session of the task, which finds the artifact of the other. -/
def boxSession : Session Unit :=
  boxTask.session (libraryFiles [("Base", baseArtifact)]) (.inMemory none) ()

/-- The artifact of the second class. -/
def boxArtifact : Bytes :=
  ((boxTask.call boxSession).2.outputs.head?.map Sink.buffer).getD []

/-- A session that has loaded both classes from their artifacts. -/
def boxLoaded : Session Unit :=
  ((loadChain 10 1 "Box").run.run
    { boxSession with
      files := libraryFiles [("Base", baseArtifact), ("Box", boxArtifact)]
      store := (UnitStore.inMemory none).setLocation .classPath ["lib"] }).2

/-- A scope that loads superclasses. -/
def plainScope : BodyScope Unit where
  names := ⟨"", none, [], [], loadChain 10 1⟩
  isStatic := false
  locals := []

theorem generated_baseArtifact : Generated baseArtifact := by
  have hok : (baseTask.call baseSession).1.isOk = true := by decide +kernel
  have hwritten : (baseTask.call baseSession).2.outputs.isEmpty = false := by decide +kernel
  obtain ⟨b, hrun⟩ := CompilationTask.call_of_isOk hok
  cases houtputs : (baseTask.call baseSession).2.outputs with
  | nil =>
      rw [houtputs] at hwritten
      cases hwritten
  | cons o os =>
      refine ⟨Unit, _, _, _, _, b, _, hrun, o, ?_, ?_⟩
      · exact houtputs ▸ List.mem_cons_self
      · rw [baseArtifact, houtputs, List.head?_cons, Option.map_some, Option.getD_some]

theorem call_keeps_signatures_box :
    (boxTask.call boxSession).2.symbols.find? "Base" =
        (ClassFile.decode baseArtifact).toOption.map ClassFile.symbol ∧
    (boxTask.call boxSession).2.symbols.supertypes "Box" = ["Box", "Base", objectName] ∧
    List.Forall₂ (fun d o => ∃ symbol file,
        (boxTask.call boxSession).2.KeepsSignatures d o symbol file)
      (declaredClasses 0 (boxTask.call boxSession).2.sources)
      (boxTask.call boxSession).2.outputs ∧
    Concur (boxTask.call boxSession).2 (plainScope.findField "Box" "size")
      boxLoaded (plainScope.findField "Box" "size") ∧
    ∃ called t t',
      (plainScope.callOn ⟨"grow", .none⟩ [.cls "Box"] "Box" false).run.run
        (boxTask.call boxSession).2 = (.ok called, t) ∧
      (plainScope.callOn ⟨"grow", .none⟩ [.cls "Box"] "Box" false).run.run boxLoaded =
        (.ok called, t') := by
  obtain ⟨hok, hsupers, hknown, hlength, hfind, hclassPath⟩ :
      (boxTask.call boxSession).1.isOk = true ∧
      (boxTask.call boxSession).2.symbols.supertypes "Box" = ["Box", "Base", objectName] ∧
      (∀ sup ∈ ["Base", objectName], (boxTask.call boxSession).2.symbols.has sup = true) ∧
      (boxTask.call boxSession).2.symbols.length < 10 ∧
      (boxTask.call boxSession).2.symbols.find? "Base" =
        (ClassFile.decode baseArtifact).toOption.map ClassFile.symbol ∧
      ∀ p ∈ (boxTask.call boxSession).2.symbols, p.2.origin = .classPath →
        (ClassFile.decode baseArtifact).toOption.map ClassFile.symbol = some p.2 := by
    decide +kernel
  obtain ⟨hlength', hbox, hsame⟩ : boxLoaded.symbols.length < 10 ∧
      ((boxTask.call boxSession).2.outputs.map fun o =>
        (o.name, (ClassFile.decode o.buffer).toOption.map ClassFile.symbol)) =
          [("Box", boxLoaded.symbols.find? "Box")] ∧
      ∀ sup ∈ ["Base", objectName],
        boxLoaded.symbols.find? sup = (boxTask.call boxSession).2.symbols.find? sup := by
    decide +kernel
  obtain ⟨b, hrun⟩ := CompilationTask.call_of_isOk hok
  have hwritten : (boxTask.call boxSession).2.outputs ≠ [] := by
    intro h
    rw [h, List.map_nil] at hbox
    cases hbox
  have hlibrary : (boxTask.call boxSession).2.Library := by
    intro name c hc horigin
    have hsymbol := hclassPath _ (Table.mem_of_find? hc) horigin
    obtain ⟨file, hdecode, hfile⟩ := Option.map_eq_some_iff.mp hsymbol
    exact ⟨baseArtifact, file, generated_baseArtifact, eq_ok_of_toOption hdecode, hfile⟩
  obtain ⟨hkeeps, hlookup⟩ := CompilationTask.call_keeps_signatures hrun (.inr hwritten) hlibrary
  have hreads : (boxTask.call boxSession).2.ReadsBack boxLoaded "Box" := by
    intro sup hsup
    rw [hsupers] at hsup
    rcases List.mem_cons.mp hsup with rfl | hsup
    · obtain ⟨o, os, houtputs⟩ := List.exists_cons_of_ne_nil hwritten
      have ho : o ∈ (boxTask.call boxSession).2.outputs := houtputs ▸ List.mem_cons_self
      obtain ⟨d, -, symbol, file, hkeep⟩ := exists_of_mem_right hkeeps ho
      rw [houtputs, List.map_cons, hkeep.decode] at hbox
      obtain ⟨hname, hread⟩ := Prod.mk.inj (List.cons.inj hbox).1
      exact ⟨symbol, (hkeep.name.symm.trans hname) ▸ hkeep.find?,
        .inr ⟨o, ho, hname, file, hkeep.decode, hread.symm⟩⟩
    · obtain ⟨c, hc⟩ := Table.has_eq_true.mp (hknown sup hsup)
      exact ⟨c, hc, .inl ((hsame sup hsup).trans hc)⟩
  have hscope : plainScope.names.Bounded (boxTask.call boxSession).2 := ⟨10, 0, rfl, hlength⟩
  have hscope' : plainScope.names.Bounded boxLoaded := ⟨10, 0, rfl, hlength'⟩
  obtain ⟨hfields, hcalls⟩ := hlookup hscope hscope' "Box" hreads
  refine ⟨hfind, hsupers, hkeeps, hfields "size", hcalls _ _ _ fun a ha cls hcls => ?_⟩
  obtain rfl := List.mem_singleton.mp ha
  cases hcls
  exact hreads

end ProbeLang
