import ProbeLang.Proofs.Code.Fallbacks
import ProbeLang.Proofs.Session.Supertypes
import ProbeLang.Proofs.Task.Queue

/-!
# The analysis of a task

A task whose analysis ends without an error has analysed every class of every unit that it has
entered, the given units among them. So every expression that is evaluated in a method body or a
field value has a type that is known and refers to something of its kind, and no piece of code is
left out for want of what the analysis should have found.
-/

namespace ProbeLang

open SessionM SymbolicCode

namespace Session

variable {σ : Type} {s t : Session σ}

/-- Whether a session knows nothing but the built-in classes. -/
structure Fresh (s : Session σ) : Prop where
  symbols : s.symbols = .builtins
  sources : s.sources = []
  todo : s.todo = []

/-- Whether a session holds units that have been entered, and none of their classes has been
analysed. -/
structure Entered (s : Session σ) : Prop where
  sound : s.Sound
  settled : s.Settled
  todo : s.todo = topClasses 0 s.sources
  parsed : ∀ e ∈ s.sources, e.Parsed s.files

theorem Fresh.builtin (h : s.Fresh) {name : String} {c : ClassSymbol}
    (hc : s.symbols.find? name = some c) : c.Builtin name :=
  SymbolTable.builtin_of_find? (h.symbols ▸ hc)

theorem Fresh.isSource (h : s.Fresh) {name : String} {c : ClassSymbol}
    (hc : s.symbols.find? name = some c) : c.isSource = false := by
  rw [ClassSymbol.isSource, (h.builtin hc).origin]

theorem Fresh.entered (h : s.Fresh) : s.Entered where
  sound := by
    refine ⟨fun {d} hd => ?_, fun hc hsource => ?_, fun hc _ => h.symbols ▸ hc,
      fun hc => (h.builtin hc).named, fun hc => (h.builtin hc).known, fun hc hsource => ?_⟩
    · obtain ⟨e, he, -⟩ := hd
      rw [h.sources] at he
      cases he
    · rw [h.isSource hc] at hsource
      cases hsource
    · rw [h.isSource hc] at hsource
      cases hsource
  settled := by
    rintro name ⟨c, hc, hsource, -⟩
    rw [h.isSource hc] at hsource
    cases hsource
  todo := by
    rw [h.todo, h.sources]
    rfl
  parsed := by
    rw [h.sources]
    exact nofun

/-- Entering more units. -/
theorem Entered.of_advances (h : s.Entered) (hst : s.Extends t) (hadvances : s.Advances t)
    (hparsed : ∀ e ∈ t.sources.drop s.sources.length, e.Parsed s.files) : t.Entered := by
  obtain ⟨more, hmore⟩ := hst.sources
  have hdrop : t.sources.drop s.sources.length = more := by rw [← hmore, List.drop_left]
  refine ⟨hadvances.sound, h.settled.of_advances hadvances, ?_, fun e he => ?_⟩
  · rw [hadvances.todo, h.todo, hdrop, ← hmore, topClasses_append, Nat.zero_add]
  · rw [hst.files]
    rw [← hmore] at he
    rcases List.mem_append.mp he with he | he
    · exact h.parsed e he
    · exact hparsed e (hdrop ▸ he)

theorem Entered.grow (h : s.Entered) (hst : s.Grows t) (hadvances : s.Advances t) : t.Entered :=
  h.of_advances hst.toExtends hadvances fun e he => (hst.loaded e he).parsed

/-- The names of the classes that can become known from source. -/
def sourceNames (s : Session σ) : List String :=
  s.symbols.names ++ s.loadable

theorem length_sourceNames_le (s : Session σ) : s.sourceNames.length ≤ s.classBound := by
  have hnames : s.symbols.names.length = s.symbols.length := List.length_map _
  rw [sourceNames, classBound, List.length_append, hnames]
  omega

/-- With units that have been entered the queue can be worked through. -/
theorem Entered.ready (h : s.Entered) : s.Ready s.sourceNames [] [] where
  sound := h.sound
  settled := h.settled
  queue := h.todo
  named := nofun
  loadable := List.subset_append_right _ _
  bounded e he name hname := by
    obtain ⟨unit, he⟩ := List.mem_iff_getElem?.mp he
    rw [← UnitTree.binary_declared unit] at hname
    obtain ⟨d, hd, rfl⟩ := List.mem_map.mp hname
    have hunit := (UnitTree.at?_of_mem_declared hd).2
    obtain ⟨c, hc, -⟩ := h.sound.declared ⟨e, hunit ▸ he, hunit ▸ hd⟩
    exact List.mem_append_left _ (Table.has_iff_mem_names.mp (Table.has_eq_true.mpr ⟨c, hc⟩))
  reads e he := ⟨e.tree, h.parsed e he, rfl⟩
  parsed {unit number e decl} _ he hdecl := by
    obtain ⟨text, -, hparse⟩ := h.parsed e (List.mem_of_getElem? he)
    exact (UnitTree.parsed_of_parse hparse).types decl (List.mem_of_getElem? hdecl)
  analysed {unit number e decl} hp he hdecl := by
    refine absurd ?_ hp
    rw [List.nil_append, h.todo]
    exact mem_topClasses.mpr ⟨unit, e, he, (Nat.zero_add _).symm,
      (List.getElem?_eq_some_iff.mp hdecl).1⟩

/-- Whether all units of a session have been analysed, among them some that were given, in the
order of the classes in the answer. -/
structure Analysed (s : Session σ) (given : List CompilationUnit) (qs : List QueuedClass) :
    Prop where
  sound : s.Sound
  queue : qs.map QueuedClass.key = topClasses 0 s.sources
  named : ∀ q ∈ qs, ∃ e, s.sources[q.unit]? = some e ∧ q.source = e.unit.name ∧
    typeSymbol e.tree q.type.place = some q.type
  given : ∀ u ∈ given, ∃ e ∈ s.sources, e.unit = u
  reads : ∀ e ∈ s.sources, e.Reads s.files
  analysed : ∀ e ∈ s.sources, ∀ decl ∈ e.tree.types,
    s.HasAnalysed (e.tree.binaryName decl) decl

/-- All declared classes of a session whose units have been analysed are fit for code. -/
theorem Analysed.fit {given : List CompilationUnit} {qs : List QueuedClass}
    (h : s.Analysed given qs) {e : SourceEntry} {unit : Nat} {d : DeclaredClass}
    (he : e ∈ s.sources) (hd : d ∈ e.tree.declared unit) : d.decl.Fit := by
  obtain ⟨number, c, hc, hd⟩ := UnitTree.mem_declared hd
  have hfit := (h.analysed e he c (List.mem_of_getElem? hc)).fit
  exact c.fit_of_mem_declared hfit hd

/-- The methods of all declared classes that have been analysed give back values. -/
theorem Analysed.concludes {given : List CompilationUnit} {qs : List QueuedClass}
    (h : s.Analysed given qs) {e : SourceEntry} {unit : Nat} {d : DeclaredClass}
    (he : e ∈ s.sources) (hd : d ∈ e.tree.declared unit) : d.decl.Concludes := by
  obtain ⟨number, c, hc, hd⟩ := UnitTree.mem_declared hd
  have hconcludes := (h.analysed e he c (List.mem_of_getElem? hc)).concludes
  exact c.each_of_mem_declared hconcludes hd

/-- The names in all declared classes that have been analysed refer to the slots that they have. -/
theorem Analysed.inScope {given : List CompilationUnit} {qs : List QueuedClass}
    (h : s.Analysed given qs) {e : SourceEntry} {unit : Nat} {d : DeclaredClass}
    (he : e ∈ s.sources) (hd : d ∈ e.tree.declared unit) : d.decl.Scoped := by
  obtain ⟨number, c, hc, hd⟩ := UnitTree.mem_declared hd
  have hscoped := (h.analysed e he c (List.mem_of_getElem? hc)).inScope
  exact c.each_of_mem_declared hscoped hd

/-- In a plain session all declared classes that have been analysed use values. -/
theorem Analysed.uses {given : List CompilationUnit} {qs : List QueuedClass}
    (h : s.Analysed given qs) (hs : s.Plain) {e : SourceEntry} {unit : Nat} {d : DeclaredClass}
    (he : e ∈ s.sources) (hd : d ∈ e.tree.declared unit) : d.decl.Uses := by
  obtain ⟨number, c, hc, hd⟩ := UnitTree.mem_declared hd
  have huses := (h.analysed e he c (List.mem_of_getElem? hc)).uses hs
  exact c.each_of_mem_declared huses hd

/-- The symbol of a class that has been analysed has the signatures of its members. -/
theorem Analysed.written {given : List CompilationUnit} {qs : List QueuedClass}
    (h : s.Analysed given qs) {d : DeclaredClass} {c : ClassSymbol} (hd : s.Declares d)
    (hc : s.symbols.find? d.binary = some c) :
    c.superclass.isSome = true ∧ c.Written s.symbols d.decl := by
  obtain ⟨e, he, hmem⟩ := hd
  obtain ⟨number, top, htop, hplace⟩ := UnitTree.mem_declared hmem
  have hanalysed := h.analysed e (List.mem_of_getElem? he) top (List.mem_of_getElem? htop)
  have hname : d.binary ∈ top.binaryNames (e.tree.binaryName top) := by
    rw [← ClassDecl.binary_declared]
    exact List.mem_map_of_mem hplace
  obtain ⟨c', hc', hsuper⟩ := hanalysed.signed d.binary hname
  obtain ⟨c'', hc'', -, hwritten⟩ :=
    Places.symbol (s := s) ⟨d.package, d.outer, e, he, hmem⟩ h.sound
  rw [hc] at hc' hc''
  cases hc'
  cases hc''
  exact ⟨hsuper, hwritten hsuper⟩

theorem Ready.finished {names : List String} {qs : List QueuedClass} {given : List CompilationUnit}
    (h : s.Ready names qs.reverse []) (htodo : s.todo = [])
    (hgiven : ∀ u ∈ given, ∃ e ∈ s.sources, e.unit = u) : s.Analysed given qs where
  sound := h.sound
  queue := by
    have hqueue := h.queue
    rwa [List.reverse_reverse, htodo, List.append_nil, List.append_nil] at hqueue
  named q hq := h.named q (List.mem_reverse.mpr hq)
  given := hgiven
  reads := h.reads
  analysed e he decl hdecl := by
    obtain ⟨unit, he⟩ := List.mem_iff_getElem?.mp he
    obtain ⟨number, hdecl⟩ := List.mem_iff_getElem?.mp hdecl
    refine h.analysed ?_ he hdecl
    rw [htodo]
    exact List.not_mem_nil

/-- What has been analysed is not affected by what is told about deprecated classes. -/
theorem Analysed.of_log {given : List CompilationUnit} {qs : List QueuedClass} {log : Log}
    {uses : List String} (h : s.Analysed given qs) :
    Analysed { s with log, deprecatedUses := uses } given qs where
  sound := h.sound.of_eq rfl rfl
  queue := h.queue
  named := h.named
  given := h.given
  reads := h.reads
  analysed e he decl hdecl :=
    have hanalysed := h.analysed e he decl hdecl
    ⟨hanalysed.fit, hanalysed.concludes, hanalysed.inScope,
      fun ht => hanalysed.uses ⟨ht.origin, ht.params, ht.reads⟩, hanalysed.signed, hanalysed.passes⟩

end Session

namespace SessionM

variable {σ : Type} {s t : Session σ}

/-! ## Setting up -/

theorem fresh_setLocations (h : s.Fresh) (hrun : setLocations.run.run s = (.ok (), t)) :
    t.Fresh := by
  cases hrun
  exact ⟨h.symbols, h.sources, h.todo⟩

theorem fresh_initPlugins : ∀ (plugins : List (Plugin σ)) {s : Session σ}, s.Fresh →
    (initPlugins plugins).run.run s = (.ok (), t) → t.Fresh
  | [], s, h, hrun => by
      cases hrun
      exact h
  | p :: rest, s, h, hrun => by
      unfold initPlugins at hrun
      rw [run_get_bind] at hrun
      dsimp only at hrun
      split at hrun
      · cases hrun
      · obtain ⟨⟨⟩, u, hset, hrun⟩ := of_run_bind hrun
        cases hset
        refine fresh_initPlugins rest ?_ hrun
        exact ⟨h.symbols, h.sources, h.todo⟩

/-! ## Reading -/

/-- All units that are parsed without an error have trees. -/
theorem entered_parseAll : ∀ (us : List CompilationUnit) {done : List (CompilationUnit × UnitTree)}
    {s : Session σ} {ps : List (CompilationUnit × UnitTree)}, s.Entered →
    (∀ p ∈ done, SourceEntry.Parsed s.files ⟨p.1, p.2⟩) →
    (parseAll done us).run.run s = (.ok ps, t) → t.log.errors = 0 →
      t.Entered ∧ ps.map Prod.fst = done.reverse.map Prod.fst ++ us ∧
        ∀ p ∈ ps, SourceEntry.Parsed t.files ⟨p.1, p.2⟩
  | [], done, s, ps, h, hdone, hrun, _ => by
      cases hrun
      exact ⟨h, (List.append_nil _).symm, fun p hp => hdone p (List.mem_reverse.mp hp)⟩
  | u :: rest, done, s, ps, h, hdone, hrun, herrors => by
      unfold parseAll at hrun
      obtain ⟨r, s₁, hparse, hrun⟩ := of_run_bind hrun
      have hclean : s₁.log.errors = 0 := by
        cases r with
        | some tree => exact ((persists_parseAll rest _).of_run hrun).clean herrors
        | none => exact ((persists_parseAll rest _).of_run hrun).clean herrors
      have hkeeps := keeps_parse (s := s) (P := True) u
      have hgrows := hkeeps.grows_of_run hparse
      obtain ⟨hadvances, hsome⟩ := hkeeps.advances_of_run hparse trivial h.sound hclean
      obtain ⟨tree, rfl⟩ := Option.isSome_iff_exists.mp hsome
      have hparsed := run_parse_ok hparse
      obtain ⟨hentered, hps, hall⟩ := entered_parseAll rest (h.grow hgrows hadvances)
        (List.forall_mem_cons.mpr ⟨hgrows.files ▸ hparsed, hgrows.files ▸ hdone⟩) hrun herrors
      refine ⟨hentered, ?_, hall⟩
      rw [hps, List.reverse_cons, List.map_append, List.append_assoc]
      rfl

/-- Units that are entered without an error stay in the session. -/
theorem entered_enterAll : ∀ (us : List (CompilationUnit × UnitTree)) {s : Session σ}, s.Entered →
    (∀ p ∈ us, SourceEntry.Parsed s.files ⟨p.1, p.2⟩) →
    (enterAll us).run.run s = (.ok (), t) → t.log.errors = 0 →
      t.Entered ∧ us.map Prod.fst ⊆ t.sources.map SourceEntry.unit
  | [], s, h, _, hrun, _ => by
      cases hrun
      exact ⟨h, List.nil_subset _⟩
  | (u, tree) :: rest, s, h, hparsed, hrun, herrors => by
      obtain ⟨⟨⟩, s₁, henter, hrun⟩ := of_run_bind hrun
      obtain ⟨s', henter', hext, hsources, hadvances⟩ := run_enter s u tree
      rw [henter'] at henter
      cases henter
      have hpersists := (persists_enterAll rest).of_run hrun
      have hentered := h.of_advances hext (hadvances h.sound (hpersists.clean herrors)) (by
        rw [hsources, List.drop_left]
        intro e he
        obtain rfl := List.mem_singleton.mp he
        exact hparsed _ List.mem_cons_self)
      obtain ⟨hentered, hrest⟩ := entered_enterAll rest hentered
        (fun p hp => hext.files ▸ hparsed p (List.mem_cons_of_mem _ hp)) hrun herrors
      refine ⟨hentered, List.cons_subset.mpr ⟨?_, hrest⟩⟩
      refine hpersists.units.subset ?_
      rw [hsources, List.map_append]
      exact List.mem_append_right _ List.mem_cons_self

/-- A task whose analysis ends without an error has analysed all classes of all its units. -/
theorem analysed_analyseTask {task : CompilationTask σ} {qs : List QueuedClass} (h : s.Fresh)
    (hrun : (analyseTask task).run.run s = (.ok qs, t)) (herrors : t.log.errors = 0) :
    t.Analysed task.units qs := by
  obtain ⟨⟨⟩, s₁, hlocations, hrun⟩ := of_run_bind hrun
  obtain ⟨⟨⟩, s₂, hplugins, hrun⟩ := of_run_bind hrun
  obtain ⟨us, s₃, hparse, hrun⟩ := of_run_bind hrun
  obtain ⟨⟨⟩, s₄, henter, hrun⟩ := of_run_bind hrun
  rw [run_get_bind] at hrun
  obtain ⟨qs, s₅, hqueue, hrun⟩ := of_run_bind hrun
  obtain ⟨⟨⟩, s₆, hreport, hrun⟩ := of_run_bind hrun
  cases hrun
  -- The run is clean from its end backwards.
  have hclean₅ := (persists_reportDeprecatedUses.of_run hreport).clean herrors
  have hpersists := (persists_analyseQueue _ _ _).of_run hqueue
  have hclean₄ := hpersists.clean hclean₅
  have hclean₃ := ((persists_enterAll us).of_run henter).clean hclean₄
  obtain ⟨hentered, hus, hparsed⟩ := entered_parseAll task.units
    (fresh_initPlugins _ (fresh_setLocations h hlocations) hplugins).entered (List.forall_mem_nil _)
    hparse hclean₃
  obtain ⟨hentered, hunits⟩ := entered_enterAll us hentered hparsed henter hclean₄
  rw [hus] at hunits
  obtain ⟨htodo, hready⟩ := ready_analyseQueue _ hentered.ready
    (Nat.le_trans s₄.length_sourceNames_le (Nat.le_add_left _ _)) hqueue hclean₅
  cases hreport
  refine (hready.finished htodo fun u hu => ?_).of_log
  obtain ⟨e, he, rfl⟩ := List.mem_map.mp (hpersists.units.subset (hunits hu))
  exact ⟨e, he, rfl⟩

end SessionM

/-! ## How the analysis ends -/

/-- The root stays as it is built in, so it has no superclass after any step. -/
theorem Session.Persists.root {σ : Type} {s t : Session σ} (h : s.Persists t)
    (hroot : s.symbols.find? objectName = SymbolTable.builtins.find? objectName) :
    t.symbols.find? objectName = SymbolTable.builtins.find? objectName ∧ t.symbols.Rooted := by
  have hroot' : t.symbols.find? objectName = SymbolTable.builtins.find? objectName :=
    h.others hroot rfl
  refine ⟨hroot', ?_⟩
  rw [SymbolTable.Rooted, SymbolTable.superclass?, hroot']
  rfl

namespace CompilationTask

variable {σ : Type} {t : Session σ} {task : CompilationTask σ} {files : FileTree}
  {store : UnitStore} {state : σ} {r : Except TaskFault (List QueuedClass)}

/-- How the analysis of a task ends. -/
def analysis (task : CompilationTask σ) (files : FileTree) (store : UnitStore) (state : σ) :
    Except TaskFault (List QueuedClass) × Session σ :=
  (analyseTask task).run.run { task.session files store state with called := true }

theorem persists_analysis (hrun : task.analysis files store state = (r, t)) :
    ∃ state' listener,
      Session.Persists { task.session files store state with state := state', listener } t := by
  obtain ⟨_, _, state', listener, -, -, h⟩ :=
    persists_analyseTask task { task.session files store state with called := true }
  rw [show t = (task.analysis files store state).2 by rw [hrun]]
  exact ⟨state', listener, h.options, h.files, h.outputs, h.memory, h.log, h.units, h.listener,
    h.others⟩

/-- However the analysis ends, the root has no superclass. -/
theorem rooted_analysis (hrun : task.analysis files store state = (r, t)) : t.symbols.Rooted := by
  obtain ⟨_, _, hpersists⟩ := persists_analysis hrun
  exact (hpersists.root rfl).2

/-- The listener at the end of the analysis is what the plugins have left. -/
theorem listener_analysis {qs : List QueuedClass}
    (hrun : task.analysis files store state = (.ok qs, t)) :
    ∃ s s', (initPlugins task.plugins).run.run s = (.ok (), s') ∧ t.listener = s'.listener := by
  obtain ⟨r, s₁, state', listener, hlocations, hplugins, h⟩ :=
    persists_analyseTask task { task.session files store state with called := true }
  rw [show (analyseTask task).run.run _ = (.ok qs, t) from hrun] at h
  obtain ⟨⟨⟩, s, hlocations', hrun⟩ := of_run_bind hrun
  obtain ⟨⟨⟩, s', hplugins', -⟩ := of_run_bind hrun
  rw [hlocations] at hlocations'
  cases hlocations'
  rw [hplugins] at hplugins'
  cases hplugins'
  exact ⟨_, _, hplugins, h.listener⟩

theorem analysed_analysis {qs : List QueuedClass}
    (hrun : task.analysis files store state = (.ok qs, t)) (herrors : t.log.errors = 0) :
    t.Analysed task.units qs :=
  analysed_analyseTask ⟨rfl, rfl, rfl⟩ hrun herrors

end CompilationTask

/-- A unit with a class in a class, and with code in both. -/
def counterUnit : CompilationUnit where
  name := "Counter"
  kind := .source
  uri := "Counter"
  origin := .text
    "class Counter { int n = 1; void add(int k) { n = n + k; } class Two { static int two = 2; } }"

/-- The task that compiles the unit. -/
def counterTask : CompilationTask Unit where
  options := {}
  units := [counterUnit]

/-! ## Attribution is complete

A task whose analysis ends without an error has attributed everything for which code is made, in
the classes of all units that it has entered, at any depth. -/

/-- Whether an evaluated expression is attributed and its own instructions, of which there are some,
are in the code. -/
structure Expr.CompleteIn (code : SymbolicCode) (x : Expr) : Prop where
  attributed : x.Attributed
  own_ne_nil : x.own ≠ []
  has : code.Has x.own

/-- Whether the body of a method is attributed, and its code is complete for any signature. -/
structure MethodDecl.Complete (m : MethodDecl) : Prop where
  slots : ∀ d ∈ Stmt.allLocalVars m.body.body, d.slot.isSome = true
  evaluated : ∀ x ∈ Stmt.evaluatedAll m.body.body, ∀ sig, x.CompleteIn (m.code sig)

/-- Whether the value of a field is attributed, and its code is complete at any place. -/
def FieldDecl.Complete (f : FieldDecl) : Prop :=
  ∀ value, f.init = some value → ∀ x ∈ value.evaluated, ∀ pc, x.CompleteIn (value.code pc)

theorem MethodDecl.Fit.complete {m : MethodDecl} (h : m.Fit) : m.Complete where
  slots := h.declared
  evaluated x hx sig := by
    have hresolved : ∀ y ∈ Stmt.evaluatedAll m.body.body, y.Resolved := fun y hy =>
      (h.evaluated y hy).attributed.resolved
    refine ⟨(h.evaluated x hx).attributed, (hresolved x hx).own_ne_nil, ?_⟩
    exact (Stmt.codeAll_has m.body.body h.declared hresolved hx).left _

theorem FieldDecl.Fit.complete {f : FieldDecl} (h : f.Fit) : f.Complete := by
  intro value hvalue x hx pc
  have hresolved : ∀ y ∈ value.evaluated, y.Resolved := fun y hy =>
    (h value hvalue y hy).1.attributed.resolved
  refine ⟨(h value hvalue x hx).1.attributed, (hresolved x hx).own_ne_nil, ?_⟩
  exact value.code_has hresolved hx

namespace CompilationTask

variable {σ : Type} {t : Session σ} {task : CompilationTask σ} {files : FileTree}
  {store : UnitStore} {state : σ} {qs : List QueuedClass}

/-- In all declared classes of a task whose analysis ends without an error, everything that is
evaluated is attributed, and its code falls back on nothing. -/
theorem analysis_complete (hrun : task.analysis files store state = (.ok qs, t))
    (hclean : t.log.Clean) :
    ∀ e ∈ t.sources, ∀ unit, ∀ d ∈ e.tree.declared unit,
      (∀ m ∈ d.decl.methods, m.Complete) ∧ ∀ f ∈ d.decl.fields, f.Complete := by
  obtain ⟨_, _, hpersists⟩ := persists_analysis hrun
  have hanalysed := analysed_analysis hrun ((Log.clean_iff hpersists.log).mpr hclean)
  intro e he unit d hd
  have hfit := hanalysed.fit he hd
  exact ⟨fun m hm => (hfit.methods hm).complete, fun f hf => (hfit.fields hf).complete⟩

end CompilationTask

theorem analysis_complete_counter :
    let t := (counterTask.analysis ⟨[], ""⟩ {} ()).2
    (t.sources.flatMap fun e => e.tree.binaryNames) = ["Counter", "Counter$Two"] ∧
      ∀ e ∈ t.sources, ∀ unit, ∀ d ∈ e.tree.declared unit,
        (∀ m ∈ d.decl.methods, m.Complete) ∧ ∀ f ∈ d.decl.fields, f.Complete := by
  have hok : (counterTask.analysis ⟨[], ""⟩ {} ()).1.isOk = true := by decide +kernel
  have hclean : (counterTask.analysis ⟨[], ""⟩ {} ()).2.log.Clean := by decide +kernel
  obtain ⟨qs, hrun⟩ := of_isOk hok
  exact ⟨by decide +kernel, CompilationTask.analysis_complete hrun hclean⟩

end ProbeLang
