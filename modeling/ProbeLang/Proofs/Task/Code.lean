import ProbeLang.Proofs.Code.Actions
import ProbeLang.Proofs.Code.WellFormed
import ProbeLang.Proofs.Monitors.Methods
import ProbeLang.Proofs.Stack.Methods
import ProbeLang.Proofs.Task.Call

/-!
# The code of a task

Every artifact that a task has written is that of a declared class, which the analysis has left fit
for code and whose symbol has its signatures. So its methods are well-formed, what acts in them is
what stands in the declarations, and they hold monitors and values where they should.
-/

namespace ProbeLang

open Code SessionM

/-! ## Well-formed code -/

namespace CompilationTask

variable {σ : Type} {task : CompilationTask σ} {files : FileTree} {store : UnitStore} {state : σ}
  {b : Bool} {u : Session σ}

/-- Every artifact that a task has written is read back as that of a declared class, and all its
methods are well-formed. -/
theorem call_wellFormed (hrun : task.call (task.session files store state) = (.ok b, u)) :
    ∀ o ∈ u.outputs, ∃ d ∈ declaredClasses 0 u.sources, ∃ symbol file, o.name = d.binary ∧
      u.symbols.find? d.binary = some symbol ∧ ClassFile.decode o.buffer = .ok file ∧
      List.Forall₂ (fun m sym => ∃ code, m.WellFormed file.pool code sym) file.methods
        (d.decl.symbolicMethods symbol ((ClassDecl.superclassName symbol).getD objectName)) := by
  intro o ho
  obtain ⟨-, hwrote⟩ := call_wrote hrun (.inr (List.ne_nil_of_mem ho))
  obtain ⟨d, hd, symbol, file, h⟩ := exists_of_mem_right hwrote ho
  obtain ⟨read, hdecode, hmethods⟩ :=
    ClassDecl.decode_wellFormed h.fit h.written.signs h.made h.encoded
  exact ⟨d, hd, symbol, read, h.name, h.find?, hdecode, hmethods⟩

end CompilationTask

theorem call_wellFormed_counter :
    (counterTask.call counterSession).2.outputs.map Sink.name = ["Counter", "Counter$Two"] ∧
      ∀ o ∈ (counterTask.call counterSession).2.outputs,
        ∃ d ∈ declaredClasses 0 (counterTask.call counterSession).2.sources, ∃ symbol file,
          o.name = d.binary ∧
          (counterTask.call counterSession).2.symbols.find? d.binary = some symbol ∧
          ClassFile.decode o.buffer = .ok file ∧
          List.Forall₂ (fun m sym => ∃ code, m.WellFormed file.pool code sym) file.methods
            (d.decl.symbolicMethods symbol
              ((ClassDecl.superclassName symbol).getD objectName)) := by
  have hok : (counterTask.call counterSession).1.isOk = true := by decide +kernel
  obtain ⟨b, hrun⟩ := CompilationTask.call_of_isOk hok
  exact ⟨by decide +kernel, CompilationTask.call_wellFormed hrun⟩

/-! ## The stack

A task that reads no artifacts, and in whose sources no parameter is of type `void`, ends without an
error in a plain session. So the analysis has made sure that its code uses values only, and every
method of every artifact has heights of the stack that agree with what its instructions do. -/

/-- Whether an artifact is read back with the methods of a declared class, one for each outline, and
all of them have heights of the stack. -/
def DeclaredClass.Balances (d : DeclaredClass) (symbol : ClassSymbol) (bytes : Bytes) : Prop :=
  ∃ file, ClassFile.decode bytes = .ok file ∧
    file.methods.length = (d.decl.outlines symbol).length ∧
    List.Forall₂ (fun m method => ∃ code height,
        m.Balanced file.pool code method.1 method.2 height)
      file.methods
      ((d.decl.symbolicMethods symbol ((ClassDecl.superclassName symbol).getD objectName)).zip
        (d.decl.outlines symbol))

namespace Session

variable {σ : Type} {s u : Session σ} {d : DeclaredClass} {o : Sink} {symbol : ClassSymbol}
  {file : ClassFile}

/-- The superclass that the artifact of a class names can be called in a plain session. -/
theorem Wrote.spelled_superclass (h : u.Wrote d o symbol file) (hsymbols : u.symbols = s.symbols)
    (hs : s.Sound) (hplain : s.Plain) :
    Spelled ((ClassDecl.superclassName symbol).getD objectName) := by
  obtain ⟨sup, hsup⟩ := Option.isSome_iff_exists.mp h.superclass
  have hname : (ClassDecl.superclassName symbol).getD objectName = sup := by
    rw [ClassDecl.superclassName, hsup]
    rfl
  have hsource : symbol.isSource = true := by
    have horigin := congrArg ClassSymbol.origin h.entered
    rw [ClassSymbol.isSource, show symbol.origin = .source d.unit d.place from horigin]
  rw [hname]
  exact hplain.spelled_superclass hs (hsymbols ▸ h.find?) hsource hsup

/-- The artifact of a class that uses values has heights. -/
theorem Wrote.balances (h : u.Wrote d o symbol file) (huses : d.decl.Uses)
    (hsuper : Spelled ((ClassDecl.superclassName symbol).getD objectName)) :
    d.Balances symbol o.buffer := by
  obtain ⟨read, hdecode, hmethods⟩ :=
    ClassDecl.decode_wellFormed h.fit h.written.signs h.made h.encoded
  have hbalanced :=
    ClassDecl.symbolicMethods_balanced symbol h.fit huses (callEffect?_initReference hsuper)
  have hlength := hmethods.length_eq.trans hbalanced.length_eq
  refine ⟨read, hdecode, hlength, ?_⟩
  obtain ⟨hcount, hzip⟩ := List.forall₂_iff_get.mp hmethods
  obtain ⟨hcount', hzip'⟩ := List.forall₂_iff_get.mp hbalanced
  refine List.forall₂_iff_get.mpr ⟨?_, fun i hm hi => ?_⟩
  · rw [List.length_zip, ← hcount', ← hcount, Nat.min_self]
  rw [List.length_zip, Nat.lt_min] at hi
  obtain ⟨code, hwell⟩ := hzip i hm hi.1
  obtain ⟨height, hheight⟩ := hzip' i hi.1 hi.2
  refine ⟨code, height, ?_⟩
  rw [List.get_eq_getElem, List.get_eq_getElem, List.getElem_zip]
  exact hwell.balanced hheight

end Session

namespace CompilationTask

variable {σ : Type} {task : CompilationTask σ} {files : FileTree} {store : UnitStore} {state : σ}
  {u : Session σ}

/-- A task that has read no class from an artifact, and no parameter of type `void`, has written
artifacts of all declared classes in which every method has heights of the stack. -/
theorem call_balanced (hrun : task.call (task.session files store state) = (.ok true, u))
    (horigin : ∀ name c, u.symbols.find? name = some c → c.origin ≠ .classPath)
    (hparams : ∀ d ∈ declaredClasses 0 u.sources, ∀ m ∈ d.decl.methods, ∀ p ∈ m.params,
      p.type.base ≠ .void) :
    List.Forall₂ (fun d o => o.name = d.binary ∧ ∃ symbol,
        u.symbols.find? d.binary = some symbol ∧ d.Balances symbol o.buffer)
      (declaredClasses 0 u.sources) u.outputs := by
  obtain ⟨qs, t, hanalysis, hb, hmade, hfailed⟩ := call_makes hrun
  have hclean : u.log.Clean := hb.mp rfl
  have ht : t.log.Clean := by
    by_contra h
    exact h (hfailed h ▸ hclean)
  obtain ⟨hanalysed, hwrites, -⟩ := hmade ht
  have hplain : t.Plain := by
    refine ⟨fun {name c} hc => horigin name c (hwrites.symbols ▸ hc), fun {d} hd => ?_,
      hanalysed.reads⟩
    exact hparams d (hwrites.sources ▸ Session.declares_iff.mp hd)
  obtain ⟨-, hwrote⟩ := call_wrote hrun (.inl hclean)
  refine hwrote.imp fun d o ⟨symbol, file, h⟩ => ⟨h.name, symbol, h.find?, ?_⟩
  obtain ⟨e, he, hd⟩ := h.declares
  rw [hwrites.sources] at he
  exact h.balances (hanalysed.uses hplain (List.mem_of_getElem? he) hd)
    (h.spelled_superclass hwrites.symbols hanalysed.sound hplain)

end CompilationTask

/-- A unit with a loop, a short circuit, and a call that gives back nothing. -/
def upUnit : CompilationUnit where
  name := "Up"
  kind := .source
  uri := "Up"
  origin := .text
    "class Up { int n; void up() { n = n + 1; } int to(int k) { while (n < k && k > 0) up(); return n; } }"

/-- The task that compiles the unit. -/
def upTask : CompilationTask Unit where
  options := {}
  units := [upUnit]

/-- The session of the task, with a store that works in memory. -/
def upSession : Session Unit :=
  upTask.session ⟨[], ""⟩ (.inMemory none) ()

theorem call_balanced_up :
    (upTask.call upSession).2.outputs.map Sink.name = ["Up"] ∧
      List.Forall₂ (fun d o => o.name = d.binary ∧ ∃ symbol,
          (upTask.call upSession).2.symbols.find? d.binary = some symbol ∧
            d.Balances symbol o.buffer)
        (declaredClasses 0 (upTask.call upSession).2.sources)
        (upTask.call upSession).2.outputs := by
  obtain ⟨hok, hnames, horigin, hparams⟩ :
      (upTask.call upSession).1.toOption = some true ∧
      (upTask.call upSession).2.outputs.map Sink.name = ["Up"] ∧
      (∀ p ∈ (upTask.call upSession).2.symbols, p.2.origin ≠ .classPath) ∧
      ∀ d ∈ declaredClasses 0 (upTask.call upSession).2.sources,
        ∀ m ∈ d.decl.methods, ∀ p ∈ m.params, p.type.base ≠ .void := by decide +kernel
  have hrun : upTask.call upSession = (.ok true, (upTask.call upSession).2) := by
    rcases h : upTask.call upSession with ⟨_ | b, u⟩
    · rw [h] at hok
      cases hok
    · rw [h] at hok
      cases hok
      rfl
  exact ⟨hnames, CompilationTask.call_balanced hrun
    (fun name c hc => horigin (name, c) (Table.mem_of_find? hc)) hparams⟩

/-! ## Actions

In every method of every artifact that a task has written, the calls, the creations of objects and
arrays, and the stores are those of the expressions that are evaluated in its body, in their order.
They are those of all expressions in the body if nothing acts in front of a static member or in the
arguments of an initialiser, where the code evaluates nothing. -/

/-- Whether an artifact is read back with the methods of a declared class, in each of which the
actions are those that a function gives for the expressions in it. -/
def DeclaredClass.ActsAs (f : Expr → SymbolicCode) (d : DeclaredClass) (symbol : ClassSymbol)
    (bytes : Bytes) : Prop :=
  ∃ file, ClassFile.decode bytes = .ok file ∧
    List.Forall₂ (fun m (actions : SymbolicCode) => ∃ code, Code.read? m.code = some code ∧
        (resolve file.pool code).filter Instr.isAction = actions.resolved)
      file.methods
      (d.decl.actions f symbol ((ClassDecl.superclassName symbol).getD objectName))

/-- The artifact of a class has the actions of the class. -/
theorem Session.Wrote.actsAs {σ : Type} {u : Session σ} {d : DeclaredClass} {o : Sink}
    {symbol : ClassSymbol} {file : ClassFile} {f : Expr → SymbolicCode}
    (h : u.Wrote d o symbol file) (hacts : d.decl.Acts f) : d.ActsAs f symbol o.buffer := by
  obtain ⟨read, hdecode, hmethods⟩ :=
    ClassDecl.decode_wellFormed h.fit h.written.signs h.made h.encoded
  have hactions := ClassDecl.symbolicMethods_actions symbol
    ((ClassDecl.superclassName symbol).getD objectName) hacts
  refine ⟨read, hdecode, forall₂_trans hmethods hactions fun m sym actions hmethod hsym => ?_⟩
  obtain ⟨code, hwell⟩ := hmethod
  exact ⟨code, hwell.read, hwell.actions hsym⟩

/-- The actions in every artifact that a task has written are those of what is evaluated, and those
of all that is written where nothing acts in what is skipped. -/
theorem CompilationTask.call_actions {σ : Type} {task : CompilationTask σ} {files : FileTree}
    {store : UnitStore} {state : σ} {b : Bool} {u : Session σ}
    (hrun : task.call (task.session files store state) = (.ok b, u)) :
    ∀ o ∈ u.outputs, ∃ d ∈ declaredClasses 0 u.sources, ∃ symbol, o.name = d.binary ∧
      u.symbols.find? d.binary = some symbol ∧ d.ActsAs Expr.actions symbol o.buffer ∧
      (d.decl.SkipsNothing → d.ActsAs Expr.written symbol o.buffer) := by
  intro o ho
  obtain ⟨-, hwrote⟩ := call_wrote hrun (.inr (List.ne_nil_of_mem ho))
  obtain ⟨d, hd, symbol, file, h⟩ := exists_of_mem_right hwrote ho
  exact ⟨d, hd, symbol, h.name, h.find?, h.actsAs h.fit.actions,
    fun hskip => h.actsAs (h.fit.written hskip)⟩

/-! ## Monitors

In every method of every artifact that a task has written, each path from the entry to an
instruction holds the monitors of the synchronized statements around it and no others. So a path to
a return is balanced if the `return` stands in no synchronized statement (`Monitored.balanced`), and
otherwise holds one monitor for each that it stands in. -/

/-- Whether an artifact is read back with the methods of a declared class, in each of which paths
hold the monitors of the synchronized statements around them. -/
def DeclaredClass.Monitors (d : DeclaredClass) (symbol : ClassSymbol) (bytes : Bytes) : Prop :=
  ∃ file, ClassFile.decode bytes = .ok file ∧
    List.Forall₂ (fun m outline => ∃ code, Code.read? m.code = some code ∧
        Monitored outline.ranges outline.depths code)
      file.methods (d.decl.monitors symbol)

/-- The artifact of a class has the monitors of the class. -/
theorem Session.Wrote.monitors {σ : Type} {u : Session σ} {d : DeclaredClass} {o : Sink}
    {symbol : ClassSymbol} {file : ClassFile} (h : u.Wrote d o symbol file) :
    d.Monitors symbol o.buffer := by
  obtain ⟨read, hdecode, hmethods⟩ :=
    ClassDecl.decode_wellFormed h.fit h.written.signs h.made h.encoded
  have hguarded := d.decl.symbolicMethods_guarded symbol
    ((ClassDecl.superclassName symbol).getD objectName)
  refine ⟨read, hdecode, forall₂_trans hmethods hguarded fun m sym outline hmethod hsym => ?_⟩
  obtain ⟨code, hwell⟩ := hmethod
  exact ⟨code, hwell.read, hwell.monitored hsym⟩

/-- In every artifact that a task has written, paths hold the monitors of the synchronized
statements around them. -/
theorem CompilationTask.call_monitors {σ : Type} {task : CompilationTask σ} {files : FileTree}
    {store : UnitStore} {state : σ} {b : Bool} {u : Session σ}
    (hrun : task.call (task.session files store state) = (.ok b, u)) :
    ∀ o ∈ u.outputs, ∃ d ∈ declaredClasses 0 u.sources, ∃ symbol, o.name = d.binary ∧
      u.symbols.find? d.binary = some symbol ∧ d.Monitors symbol o.buffer := by
  intro o ho
  obtain ⟨-, hwrote⟩ := call_wrote hrun (.inr (List.ne_nil_of_mem ho))
  obtain ⟨d, hd, symbol, file, h⟩ := exists_of_mem_right hwrote ho
  exact ⟨d, hd, symbol, h.name, h.find?, h.monitors⟩

/-- A unit with a return behind a synchronized statement and one in it. -/
def guardUnit : CompilationUnit where
  name := "G"
  kind := .source
  uri := "G"
  origin := .text
    "class G { int n; int up() { synchronized (this) { n = 1; } return n; } int now() { synchronized (this) { return n; } } }"

/-- The task that compiles the unit. -/
def guardTask : CompilationTask Unit where
  options := {}
  units := [guardUnit]

/-- The session of the task, with a store that works in memory. -/
def guardSession : Session Unit :=
  guardTask.session ⟨[], ""⟩ (.inMemory none) ()

theorem call_monitors_guard :
    (guardTask.call guardSession).2.outputs.map Sink.name = ["G"] ∧
      (declaredClasses 0 (guardTask.call guardSession).2.sources).map (fun d =>
        d.decl.methods.map fun m => Stmt.allReturnDepths 0 m.body.body) = [[[0], [1]]] ∧
      ∀ o ∈ (guardTask.call guardSession).2.outputs,
        ∃ d ∈ declaredClasses 0 (guardTask.call guardSession).2.sources, ∃ symbol,
          o.name = d.binary ∧
          (guardTask.call guardSession).2.symbols.find? d.binary = some symbol ∧
          d.Monitors symbol o.buffer := by
  have hok : (guardTask.call guardSession).1.isOk = true := by decide +kernel
  obtain ⟨b, hrun⟩ := CompilationTask.call_of_isOk hok
  exact ⟨by decide +kernel, by decide +kernel, CompilationTask.call_monitors hrun⟩

end ProbeLang
