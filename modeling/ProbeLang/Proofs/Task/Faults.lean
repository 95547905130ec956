import ProbeLang.Proofs.Code.Faults
import ProbeLang.Proofs.Task.Events

/-!
# What ends a task

Where units are held in memory, and there are no directories to look for classes in and no plugins,
the analysis of a task ends with an answer: whatever is wrong with the program is reported. Behind
it, with a store in memory, no fault is met but that of a class that is too large for an artifact.
-/

namespace ProbeLang

open SessionM

/-- Whether the content of a unit is held in memory. -/
def CompilationUnit.IsText (u : CompilationUnit) : Prop :=
  ∃ text, u.origin = .text text

/-! ## Sessions without directories -/

namespace SessionM

open Session

/-- Entering a unit adds no class whose name is shorter than that of the class around it. -/
theorem nested_enter {σ : Type} {s : Session σ} (hs : s.symbols.Nested) (unit : CompilationUnit)
    (tree : UnitTree) : ∃ t, (enter unit tree).run.run s = (.ok (), t) ∧ s.Extends t ∧
      t.symbols.Nested := by
  obtain ⟨t, queue, htypes, hadds⟩ := adds_enterTypes
    (P := fun c => ∀ outer, c.outer = some outer → outer.length < c.binary.length)
    ⟨s.sources.length, tree.source, tree.packageName?⟩ tree rfl 0 tree.types
    (s := told (opened s unit tree) (.started (enterEvent unit tree)))
    fun d hd _ _ houter => UnitTree.length_lt_of_mem_declared hd houter
  have hrun := run_enter_eq htypes
  obtain ⟨t', hrun', hst, -⟩ := run_enter s unit tree
  cases hrun.symm.trans hrun'
  refine ⟨_, hrun, hst, ?_⟩
  obtain ⟨more, ht, hmore⟩ := hadds.more
  rw [(told_told t _).same, ht, (told_told _ _).same]
  refine List.forall_mem_append.mpr ⟨hs, fun p hp outer houter => ?_⟩
  obtain ⟨hname, hlonger⟩ := hmore p hp
  exact hname ▸ hlonger outer houter

end SessionM

namespace Session

variable {σ : Type} {s t : Session σ}

/-- Whether there is no directory to look for classes in. -/
def Pathless (s : Session σ) : Prop :=
  s.store.classDirs = []

namespace Pathless

theorem of_locations (h : s.Pathless) (hst : t.store.locations = s.store.locations) :
    t.Pathless := by
  unfold Pathless UnitStore.classDirs
  rw [hst]
  exact h

/-- Nothing is found where there are no directories. -/
theorem findInput (h : s.Pathless) {l : Location} (hl : l = .sourcePath ∨ l = .classPath)
    (name : String) (kind : UnitKind) : s.store.findInput s.files l name kind = none := by
  obtain ⟨hsource, hclass⟩ := List.append_eq_nil_iff.mp h
  have hdirs : s.store.locations.searchDirs l = [] := by
    rcases hl with rfl | rfl
    · exact hsource
    · exact hclass
  unfold UnitStore.findInput
  rw [hdirs]
  rfl

end Pathless

/-- Whether a session has no directory to look for classes in, and every class has a longer name
than the class around it. -/
structure Contained (s : Session σ) : Prop where
  pathless : s.Pathless
  nested : s.symbols.Nested

namespace Contained

theorem of_extends (h : s.Contained) (hst : s.Extends t) (ht : t.symbols.Nested) : t.Contained :=
  ⟨h.pathless.of_locations hst.locations, ht⟩

theorem of_eq (h : s.Contained) (hlocations : t.store.locations = s.store.locations)
    (hsymbols : t.symbols = s.symbols) : t.Contained :=
  ⟨h.pathless.of_locations hlocations, hsymbols ▸ h.nested⟩

theorem of_told (h : s.Contained) {ns : List Notice} (hst : s.Told ns t) : t.Contained :=
  h.of_eq hst.locations hst.same

theorem told (h : s.Contained) (n : Notice) : (told s n).Contained :=
  h.of_told (told_told s n)

/-- A symbol may be changed, but for the class around it. -/
theorem modify {cls : String} {f : ClassSymbol → ClassSymbol} (h : s.Contained)
    (hf : ∀ c, (f c).outer = c.outer) :
    Contained { s with symbols := s.symbols.modify cls f } :=
  ⟨h.pathless, h.nested.modify hf⟩

end Contained

/-- Whether a session goes on from another, and has no directories either. -/
structure Continues (s t : Session σ) : Prop extends s.Extends t where
  contained : s.Contained → t.Contained

instance : IsPreorder (Session σ) Continues where
  refl s := ⟨.refl s, id⟩
  trans _ _ _ h h' := ⟨h.toExtends.trans h'.toExtends, fun hs => h'.contained (h.contained hs)⟩

end Session

namespace SessionM

open Session

variable {σ α β : Type} {s t : Session σ} {m : SessionM σ α} {f : α → SessionM σ β}

/-- Whether a step ends with an answer, and the session has no directories then. -/
def Returns (s : Session σ) (m : SessionM σ α) : Prop :=
  ∃ a t, m.run.run s = (.ok a, t) ∧ t.Contained

namespace Returns

theorem pure (h : s.Contained) (a : α) : Returns s (pure a) :=
  ⟨a, s, rfl, h⟩

theorem bind (hm : Returns s m) (hf : ∀ a t, t.Contained → Returns t (f a)) :
    Returns s (m >>= f) := by
  obtain ⟨a, t, hrun, ht⟩ := hm
  obtain ⟨b, u, hrun', hu⟩ := hf a t ht
  exact ⟨b, u, (run_bind_ok hrun).trans hrun', hu⟩

theorem get {f : Session σ → SessionM σ β} (h : Returns s (f s)) :
    Returns s (MonadState.get >>= f) :=
  h

theorem modify {g : Session σ → Session σ} (h : (g s).Contained) : Returns s (modify g) :=
  ⟨(), g s, rfl, h⟩

/-- A step that meets faults only where there are directories. -/
theorem of_moves {Q : α → Session σ → Prop} (h : s.Contained)
    (hm : Moves Continues (fun _ s _ => ¬ s.Contained) s m Q) : Returns s m := by
  rcases hrun : m.run.run s with ⟨e | a, t⟩
  · obtain ⟨u, hsu, hu⟩ := hm.faults hrun
    exact absurd (hsu.contained h) hu
  · exact ⟨a, t, hrun, (hm.answers hrun).1.contained h⟩

end Returns

/-! ## Looking for classes -/

theorem run_input_of_pathless (h : s.Pathless) {l : Location}
    (hl : l = .sourcePath ∨ l = .classPath) (name : String) (kind : UnitKind) :
    (input l name kind).run.run s = (.ok none, s) := by
  have hinput : s.store.input s.files l name kind = (.ok none, s.store) := by
    unfold UnitStore.input
    rw [h.findInput hl]
  unfold input
  rw [run_get_bind, hinput]
  rfl

theorem run_loadSource_of_pathless (h : s.Pathless) (name : String) :
    (loadSource name).run.run s = (.ok false, s) := by
  unfold loadSource
  rw [run_bind_ok (run_input_of_pathless h (.inl rfl) name .source)]
  rfl

theorem run_loadArtifact_of_pathless (h : s.Pathless) (name : String) :
    (loadArtifact name).run.run s = (.ok false, s) := by
  unfold loadArtifact
  rw [run_bind_ok (run_input_of_pathless h (.inr rfl) name .artifact)]
  rfl

variable {find : String → SessionM σ Bool}

theorem returns_findWith (hfind : ∀ {s : Session σ}, s.Contained → ∀ name, Returns s (find name))
    (h : s.Contained) (name : String) : Returns s (findWith find name) := by
  unfold findWith
  refine .get ?_
  split
  · exact .pure h true
  · split
    · exact .pure h false
    · refine (hfind h name).bind fun found t ht => ?_
      split
      · exact .pure ht true
      · refine Returns.bind ⟨_, _, run_loadArtifact_of_pathless ht.pathless name, ht⟩ fun found u hu => ?_
        split
        · exact .pure hu true
        · exact Returns.bind (.modify (hu.of_eq rfl rfl)) fun _ _ hv => .pure hv false

/-- Without directories looking for a class meets no fault. -/
theorem returns_findClass (h : s.Contained) (name : String) : Returns s (findClass name) := by
  have hsource {s : Session σ} (h : s.Contained) (name : String) :
      Returns s (findWith loadSource name) :=
    returns_findWith (fun h name => ⟨_, _, run_loadSource_of_pathless h.pathless name, h⟩) h name
  unfold findClass
  dsimp only
  split
  · exact hsource h name
  · refine returns_findWith (fun h name => ?_) h name
    refine (hsource h _).bind fun found t ht => ?_
    split
    · exact .get (.pure ht _)
    · exact .pure ht false

/-- Whatever looks for classes and completes them meets faults only where there are directories. -/
theorem lookups_contained : Lookups (σ := σ) Continues fun _ s _ => ¬ s.Contained where
  ext h := h.toExtends
  quiet h := ⟨h.1.toExtends, fun hs => hs.of_told h.1⟩
  find name s := by
    have hmoves := loads_findClass (s := s) name
    refine ⟨fun hrun => ?_, fun hrun => ⟨s, refl_of Continues s, fun h => ?_⟩⟩
    · obtain ⟨hloading, hfinds⟩ := hmoves.answers hrun
      refine ⟨⟨hloading.ext, fun h => ?_⟩, hfinds⟩
      obtain ⟨found, t, hanswers, ht⟩ := returns_findClass h name
      cases hrun.symm.trans hanswers
      exact ht
    · obtain ⟨found, t, hanswers, -⟩ := returns_findClass h name
      cases hrun.symm.trans hanswers
  mark hcls := ⟨extends_markCompleted hcls, fun h => h.modify fun _ => rfl⟩
  complete hcls superclass fields methods :=
    ⟨extends_completeWith hcls superclass fields methods, fun h => h.modify fun _ => rfl⟩
  endless _ hendless h := h.nested.not_endless hendless

/-! ## Analysis -/

theorem returns_analyseTop (h : s.Contained) (bound unit number : Nat) (tree : UnitTree) :
    Returns s (analyseTop bound unit number tree) := by
  cases hdecl : tree.types[number]? with
  | none =>
      unfold analyseTop
      rw [hdecl]
      exact .pure h tree
  | some decl =>
      rw [analyseTop_eq hdecl]
      refine (Returns.of_moves h (moves_analyseDecl lookups_contained)).bind fun r t ht => ?_
      cases r with
      | none => exact .pure ht tree
      | some decl' => exact Returns.bind (.modify (ht.of_eq rfl rfl)) fun _ _ hu => .pure hu _

theorem returns_analyse (h : s.Contained) (bound unit number : Nat) :
    Returns s (analyse bound unit number) := by
  refine .get ?_
  split
  · refine Returns.bind ⟨_, _, run_started_eq s _, h.told _⟩ fun _ t ht => ?_
    refine (returns_analyseTop ht bound unit number _).bind fun tree u hu => ?_
    exact Returns.bind ⟨_, _, run_finished_eq u _, hu.told _⟩ fun _ _ hv => .pure hv _
  · exact .pure h none

theorem returns_analyseQueue (bound : Nat) : ∀ (fuel : Nat) (done : List QueuedClass)
    {s : Session σ}, s.Contained → Returns s (analyseQueue bound fuel done)
  | 0, _, _, h => .pure h _
  | fuel + 1, done, s, h => by
      unfold analyseQueue
      refine .get ?_
      split
      · exact .pure h _
      · refine Returns.bind (.modify (h.of_eq rfl rfl)) fun _ t ht => ?_
        refine (returns_analyse ht bound _ _).bind fun q u hu => ?_
        cases q with
        | some q => exact returns_analyseQueue bound fuel (q :: done) hu
        | none => exact returns_analyseQueue bound fuel done hu

/-! ## Setting up and reading -/

/-- Setting empty paths leaves no directory. -/
theorem pathless_setLocations (hlocations : s.store.locations = [])
    (hsource : s.options.sourcePath.getD [] = []) (hclass : s.options.classPath.getD [] = []) :
    (setLocations.run.run s).2.Pathless := by
  show UnitStore.classDirs (Option.elim _ _ _) = []
  rcases hs : s.options.sourcePath with _ | dirs <;> rcases hc : s.options.classPath with _ | dirs'
  all_goals
    simp only [hs, hc, Option.getD_some, Option.getD_none] at hsource hclass
    subst_vars
    simp only [Option.elim, UnitStore.classDirs, UnitStore.setLocation, hlocations]
    rfl

theorem returns_parse (h : s.Contained) {unit : CompilationUnit} (htext : unit.IsText) :
    Returns s (parse unit) := by
  obtain ⟨text, horigin⟩ := htext
  refine Returns.bind ⟨_, _, run_started_eq s _, h.told _⟩ fun _ t ht => .get ?_
  have hcontent : unit.content t.files = .ok text := by
    unfold CompilationUnit.content
    rw [horigin]
  rw [hcontent]
  refine Returns.bind (.pure ht text) fun text u hu => ?_
  split
  · refine Returns.bind ⟨(), _, rfl, hu.of_eq rfl rfl⟩ fun _ v hv => ?_
    exact Returns.bind ⟨_, _, run_finished_eq v _, hv.told _⟩ fun _ _ h => .pure h none
  · exact Returns.bind ⟨_, _, run_finished_eq u _, hu.told _⟩ fun _ _ h => .pure h _

theorem returns_parseAll : ∀ (us : List CompilationUnit) (done : List (CompilationUnit × UnitTree))
    {s : Session σ}, s.Contained → (∀ u ∈ us, u.IsText) → Returns s (parseAll done us)
  | [], _, _, h, _ => .pure h _
  | u :: rest, done, s, h, htext => by
      obtain ⟨hu, hrest⟩ := List.forall_mem_cons.mp htext
      refine (returns_parse h hu).bind fun tree t ht => ?_
      cases tree with
      | some tree => exact returns_parseAll rest ((u, tree) :: done) ht hrest
      | none => exact returns_parseAll rest done ht hrest

theorem returns_enterAll : ∀ (us : List (CompilationUnit × UnitTree)) {s : Session σ}, s.Contained →
    Returns s (enterAll us)
  | [], _, h => .pure h ()
  | (u, tree) :: rest, s, h => by
      obtain ⟨t, hrun, hst, hnested⟩ := nested_enter h.nested u tree
      exact Returns.bind ⟨(), t, hrun, h.of_extends hst hnested⟩ fun _ _ ht =>
        returns_enterAll rest ht

/-- Once a task without directories has been set up its analysis meets no fault. -/
theorem returns_readAndAnalyse (h : s.Contained) {units : List CompilationUnit}
    (htext : ∀ u ∈ units, u.IsText) : Returns s (readAndAnalyse units) := by
  refine (returns_parseAll units [] h htext).bind fun us t ht => ?_
  refine (returns_enterAll us ht).bind fun _ u hu => .get ?_
  refine (returns_analyseQueue _ _ [] hu).bind fun qs v hv => ?_
  exact Returns.bind (.modify (hv.of_eq rfl rfl)) fun _ _ h => .pure h qs

/-! ## Generation -/

/-- A store in memory takes all outputs. -/
theorem run_writeArtifacts (sibling : CompilationUnit) : ∀ (artifacts : ArtifactMap)
    {s : Session σ}, s.store.memory.isSome = true →
      ∃ t, (writeArtifacts sibling artifacts).run.run s = (.ok (), t)
  | [], s, _ => ⟨s, rfl⟩
  | (name, bytes) :: rest, s, h => by
      obtain ⟨memory, hmemory⟩ := Option.isSome_iff_exists.mp h
      unfold writeArtifacts
      rw [run_get_bind]
      simp only [UnitStore.openOutput, hmemory, Sink.write, UnitStore.commit, Option.map_some]
      exact run_writeArtifacts sibling rest rfl

/-- Generating a class meets no fault unless a class in it is too large. -/
theorem run_generate {q : QueuedClass} {e : SourceEntry} {decl : ClassDecl} (hs : s.Sound)
    (hmemory : s.store.memory.isSome = true) (he : s.sources[q.unit]? = some e)
    (hdecl : e.tree.types[q.type.place]? = some decl)
    (hname : q.type.binary = e.tree.binaryName decl) :
    (∃ t, (generate q).run.run s = (.ok (), t)) ∨
      ∃ fault t, (generate q).run.run s = (.error (.artifact fault), t) ∧
        ∃ d, s.Declares d ∧ d.Exceeds s.symbols s.options fault := by
  have hdeclares : s.Declares ⟨q.unit, e.tree.packageName?, [q.type.place], none,
      e.tree.binaryName decl, decl⟩ := ⟨e, he, UnitTree.mem_declared_of_getElem? hdecl⟩
  obtain ⟨state, log, hstarted, -⟩ := run_started s
    { phase := .generate, source := q.source, unit := some e.tree, type := some q.type }
  unfold generate
  rw [run_get_bind, he]
  dsimp only
  rw [hdecl, hname]
  dsimp only
  rw [run_bind_ok (run_owns hs hdeclares), if_pos rfl, run_bind_ok hstarted, run_get_bind]
  dsimp only
  cases hartifacts : decl.artifacts s.symbols s.options (e.tree.binaryName decl) with
  | error fault =>
      refine .inr ⟨fault, _, rfl, ?_⟩
      have hall : ∀ d ∈ decl.declared q.unit e.tree.packageName? none [q.type.place]
          (e.tree.binaryName decl), s.Declares d := by
        intro d hd
        have hdeclared := UnitTree.mem_declared_at hdecl hd
        have hunit := (UnitTree.at?_of_mem_declared hdeclared).2
        exact ⟨e, hunit ▸ he, hunit ▸ hdeclared⟩
      obtain ⟨d, hd, hexceeds⟩ := decl.artifacts_exceed (fun d hd =>
        have ⟨c, hc, _⟩ := hs.declared (hall d hd)
        Table.has_eq_true.mpr ⟨c, hc⟩) hartifacts
      exact ⟨d, hall d hd, hexceeds⟩
  | ok artifacts =>
      obtain ⟨t, hwrite⟩ := run_writeArtifacts e.unit artifacts
        (s := { s with state := state, log := log }) hmemory
      exact .inl ⟨_, run_bind_ok hwrite⟩

/-- Generating classes meets no fault unless a class in one of them is too large. -/
theorem run_generateAll : ∀ (qs : List QueuedClass) {s : Session σ}, s.Sound →
    s.store.memory.isSome = true →
    (∀ q ∈ qs, ∃ e, s.sources[q.unit]? = some e ∧ typeSymbol e.tree q.type.place = some q.type) →
    (∃ t, (generateAll qs).run.run s = (.ok (), t)) ∨
      ∃ fault t, (generateAll qs).run.run s = (.error (.artifact fault), t) ∧
        ∃ d, s.Declares d ∧ d.Exceeds s.symbols s.options fault
  | [], s, _, _, _ => .inl ⟨s, rfl⟩
  | q :: rest, s, hs, hmemory, hnamed => by
      obtain ⟨⟨e, he, htype⟩, hnamed⟩ := List.forall_mem_cons.mp hnamed
      obtain ⟨decl, hdecl, hq⟩ := Option.map_eq_some_iff.mp htype
      have hname := (congrArg TypeSymbol.binary hq).symm
      rcases run_generate hs hmemory he hdecl hname with ⟨t, hfirst⟩ | ⟨fault, t, hfirst, hfault⟩
      · obtain ⟨artifacts, hwrites, -⟩ := writes_generate hs he hdecl hname hfirst
        obtain ⟨m, hm⟩ := Option.isSome_iff_exists.mp hmemory
        obtain ⟨m', hm', -⟩ := hwrites.memory m hm
        have hrest := run_generateAll rest (hs.of_eq hwrites.sources hwrites.symbols)
          (Option.isSome_iff_exists.mpr ⟨m', hm'⟩)
          (fun q hq => by rw [hwrites.sources]; exact hnamed q hq)
        rcases hrest with ⟨u, hrest⟩ | ⟨fault, u, hrest, d, ⟨e, he, hd⟩, hexceeds⟩
        · exact .inl ⟨u, (run_bind_ok hfirst).trans hrest⟩
        · rw [hwrites.sources] at he
          rw [hwrites.symbols, hwrites.options] at hexceeds
          exact .inr ⟨fault, u, (run_bind_ok hfirst).trans hrest, d, ⟨e, he, hd⟩, hexceeds⟩
      · exact .inr ⟨fault, t, run_bind_error hfirst, hfault⟩

end SessionM

/-! ## Tasks -/

namespace CompilationTask

open Session

variable {σ : Type} {task : CompilationTask σ} {files : FileTree} {store : UnitStore}
  {search : Option SearchPath} {state : σ} {qs : List QueuedClass} {t u : Session σ}

/-- Whether a task has its units in memory, and neither directories to look for classes in nor
plugins. -/
structure Closed (task : CompilationTask σ) : Prop where
  units : ∀ u ∈ task.units, u.IsText
  sourcePath : task.options.sourcePath.getD [] = []
  classPath : task.options.classPath.getD [] = []
  plugins : task.plugins = []

theorem closed_counterTask : counterTask.Closed where
  units := List.forall_mem_singleton.mpr ⟨_, rfl⟩
  sourcePath := rfl
  classPath := rfl
  plugins := rfl

/-- The analysis of a closed task meets no fault. -/
theorem Closed.returns (h : task.Closed) :
    ∃ qs t, task.analysis files (.inMemory search) state = (.ok qs, t) := by
  let s : Session σ := { task.session files (.inMemory search) state with called := true }
  have hset : task.setUp files (.inMemory search) state =
      (.ok (), (setLocations.run.run s).2) := by
    unfold setUp SessionM.setUp
    rw [h.plugins]
    rfl
  have hcontained : (setLocations.run.run s).2.Contained :=
    ⟨pathless_setLocations rfl h.sourcePath h.classPath, SymbolTable.nested_builtins⟩
  obtain ⟨qs, t, hrun, -⟩ := returns_readAndAnalyse hcontained h.units
  refine ⟨qs, t, ?_⟩
  rw [analysis, analyseTask_eq, run_bind_ok hset]
  exact hrun

/-- A task whose analysis has ended with an error ends there. -/
theorem call_of_not_clean (hanalysis : task.analysis files store state = (.ok qs, t))
    (ht : ¬ t.log.Clean) : task.call (task.session files store state) = (.ok false, t) := by
  obtain ⟨_, _, hpersists⟩ := persists_analysis hanalysis
  have herrors : ¬ t.log.errors = 0 := mt (Log.clean_iff hpersists.log).mp ht
  show (runTask task).run.run { task.session files store state with called := true } = _
  unfold runTask
  rw [run_bind_ok hanalysis, run_get_bind, if_neg herrors]
  exact congrArg (fun b => (Except.ok b, t)) (decide_eq_false herrors)

/-- A task whose analysis has ended without an error ends as the generation of its classes does. -/
theorem call_of_clean {r : Except TaskFault Unit}
    (hanalysis : task.analysis files store state = (.ok qs, t)) (ht : t.log.Clean)
    (hgenerate : (generateAll qs).run.run t = (r, u)) :
    task.call (task.session files store state) =
      (r.map fun _ => decide (u.log.errors = 0), u) := by
  obtain ⟨_, _, hpersists⟩ := persists_analysis hanalysis
  have herrors : t.log.errors = 0 := (Log.clean_iff hpersists.log).mpr ht
  show (runTask task).run.run { task.session files store state with called := true } = _
  unfold runTask
  rw [run_bind_ok hanalysis, run_get_bind, if_pos herrors]
  cases r with
  | error e => exact run_bind_error hgenerate
  | ok done => exact run_bind_ok hgenerate

/-- A closed task with a store in memory ends as its analysis has found the program. If an error has
been reported by then, the answer says so and nothing else happens. If none has been, there is an
answer exactly when no declared class is too large for an artifact, and otherwise the fault is that
of such a class. -/
theorem call_returns (h : task.Closed) :
    ∃ qs t, task.analysis files (.inMemory search) state = (.ok qs, t) ∧
      (¬ t.log.Clean →
        task.call (task.session files (.inMemory search) state) = (.ok false, t)) ∧
      (t.log.Clean →
        (∃ b u, task.call (task.session files (.inMemory search) state) = (.ok b, u) ∧
          (b = true ↔ u.log.Clean) ∧
          ∀ d ∈ declaredClasses 0 t.sources, ∀ fault, ¬ d.Exceeds t.symbols t.options fault) ∨
        ∃ fault u, task.call (task.session files (.inMemory search) state) =
            (.error (.artifact fault), u) ∧ fault.isLimit = true ∧
          ∃ d ∈ declaredClasses 0 t.sources, d.Exceeds t.symbols t.options fault) := by
  obtain ⟨qs, t, hanalysis⟩ :
      ∃ qs t, task.analysis files (.inMemory search) state = (.ok qs, t) := h.returns
  refine ⟨qs, t, hanalysis, call_of_not_clean hanalysis, fun hclean => ?_⟩
  obtain ⟨_, _, hpersists⟩ := persists_analysis hanalysis
  have hanalysed := analysed_analysis hanalysis ((Log.clean_iff hpersists.log).mpr hclean)
  have hmemory : t.store.memory.isSome = true := by
    obtain ⟨m, hm, -⟩ := Option.map_eq_some_iff.mp
      (hpersists.memory : _ = some (Memory.settled { search }))
    rw [hm]
    rfl
  have hnamed : ∀ q ∈ qs, ∃ e, t.sources[q.unit]? = some e ∧
      typeSymbol e.tree q.type.place = some q.type := fun q hq =>
    have ⟨e, he, _, htype⟩ := hanalysed.named q hq
    ⟨e, he, htype⟩
  rcases run_generateAll qs hanalysed.sound hmemory hnamed with
    ⟨u, hgenerate⟩ | ⟨fault, u, hgenerate, d, hd, hexceeds⟩
  · have hrun := call_of_clean hanalysis hclean hgenerate
    obtain ⟨qs', t', hanalysis', hb, hmade, -⟩ := call_makes hrun
    cases hanalysis.symm.trans hanalysis'
    refine .inl ⟨_, u, hrun, hb, fun d hd => ?_⟩
    obtain ⟨artifact, -, hmakes⟩ := exists_of_mem_left (hmade hclean).2.2 hd
    exact hmakes.not_exceeds
  · exact .inr ⟨fault, u, call_of_clean hanalysis hclean hgenerate, hexceeds.isLimit, d,
      Session.declares_iff.mp hd, hexceeds⟩

end CompilationTask

end ProbeLang
