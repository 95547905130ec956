import ProbeLang.Proofs.Code.Artifacts
import ProbeLang.Proofs.Table
import ProbeLang.Proofs.Task.Analysis

/-!
# All or nothing

Once all classes have been analysed without an error, generation opens an output for each declared
class, in the order in which the classes were entered, and writes its artifact to it. So a task that
ends has written the artifacts of exactly the classes that its units declare, each once, unless an
error had been reported by the end of the analysis, after which it writes nothing.
-/

namespace ProbeLang

open SessionM

namespace Session

variable {σ : Type} {s t u : Session σ}

/-- The artifacts that have been written, in their order. -/
def written (s : Session σ) : ArtifactMap :=
  s.outputs.map fun o => (o.name, o.buffer)

/-- The classes in a top-level class of a unit, given the numbers of both. -/
def declaredAt (s : Session σ) (p : Nat × Nat) : List DeclaredClass :=
  s.sources[p.1]?.elim [] fun e => e.tree.declaredAt p.1 p.2

/-- All declared classes in the order of the queue. -/
theorem declaredClasses_eq (s : Session σ) :
    declaredClasses 0 s.sources = (topClasses 0 s.sources).flatMap s.declaredAt := by
  have from_ : ∀ (es : List SourceEntry) (unit : Nat), declaredClasses unit es =
      (topClasses unit es).flatMap fun p => es[p.1 - unit]?.elim [] fun e =>
        e.tree.declaredAt p.1 p.2 := by
    intro es
    induction es with
    | nil => exact fun _ => rfl
    | cons e rest ih =>
        intro unit
        rw [declaredClasses, topClasses, List.flatMap_append, List.flatMap_map,
          UnitTree.declared_eq, ih]
        refine congrArg₂ (· ++ ·) (List.flatMap_congr fun i _ => ?_)
          (List.flatMap_congr fun p hp => ?_)
        · rw [Nat.sub_self]
          rfl
        · obtain ⟨i, -, -, hunit, -⟩ := mem_topClasses.mp hp
          rw [hunit, Nat.add_sub_cancel_left, Nat.add_right_comm, Nat.add_assoc,
            Nat.add_sub_cancel_left]
          rfl
  exact from_ s.sources 0

/-- Whether a session goes on from another with more artifacts, and otherwise as it was but for
what its listener does. -/
structure Writes (s : Session σ) (artifacts : ArtifactMap) (t : Session σ) : Prop where
  sources : t.sources = s.sources
  symbols : t.symbols = s.symbols
  options : t.options = s.options
  log : ∃ ds, t.log = s.log.reportAll ds
  written : t.written = s.written ++ artifacts
  memory : ∀ m, s.store.memory = some m → ∃ m', t.store.memory = some m' ∧ m'.closed = m.closed ∧
    m'.current = artifacts.foldl (fun map a => map.put a.1 a.2) m.current

namespace Writes

theorem of_log (s : Session σ) {state : σ} {log : Log} (h : ∃ ds, log = s.log.reportAll ds) :
    s.Writes [] { s with state := state, log := log } :=
  ⟨rfl, rfl, rfl, h, (List.append_nil _).symm, fun m hm => ⟨m, hm, rfl, rfl⟩⟩

theorem refl (s : Session σ) : s.Writes [] s :=
  of_log s ⟨[], rfl⟩

theorem trans {as bs : ArtifactMap} (h : s.Writes as t) (h' : t.Writes bs u) :
    s.Writes (as ++ bs) u where
  sources := h'.sources.trans h.sources
  symbols := h'.symbols.trans h.symbols
  options := h'.options.trans h.options
  log := by
    obtain ⟨ds, hds⟩ := h.log
    obtain ⟨ds', hds'⟩ := h'.log
    exact ⟨ds ++ ds', by rw [hds', hds, Log.reportAll_append]⟩
  written := by rw [h'.written, h.written, List.append_assoc]
  memory m hm := by
    obtain ⟨m₁, hm₁, hclosed₁, hcurrent₁⟩ := h.memory m hm
    obtain ⟨m₂, hm₂, hclosed₂, hcurrent₂⟩ := h'.memory m₁ hm₁
    refine ⟨m₂, hm₂, hclosed₂.trans hclosed₁, ?_⟩
    rw [hcurrent₂, hcurrent₁, List.foldl_append]

end Writes

end Session

namespace SessionM

variable {σ : Type} {s t : Session σ}

/-! ## Writing -/

/-- Without a fault an output that is committed has been written. -/
theorem writes_commit {name : String} {bytes : Bytes} {sibling : CompilationUnit}
    {files : FileTree} {store : UnitStore} {sink : Sink}
    (hsink : sink = (s.store.openOutput .classOutput name .artifact (some sibling)).write bytes)
    (h : s.store.commit s.files sink = (.ok (), files, store)) :
    s.Writes [(name, bytes)] { s with files, store, outputs := s.outputs ++ [sink] } := by
  have hname : sink.name = name ∧ sink.buffer = bytes := by
    subst hsink
    unfold UnitStore.openOutput
    split <;> exact ⟨rfl, rfl⟩
  refine ⟨rfl, rfl, rfl, ⟨[], rfl⟩, ?_, fun m hm => ?_⟩
  · simp only [Session.written, List.map_append, List.map_cons, List.map_nil, hname]
  · have htarget : sink.target = .artifacts m.closed.length := by
      subst hsink
      simp only [UnitStore.openOutput, hm, Sink.write]
    simp only [UnitStore.commit, htarget, hm, Option.map_some, Prod.mk.injEq, true_and] at h
    obtain ⟨-, rfl⟩ := h
    refine ⟨_, rfl, ?_⟩
    simp only [Memory.publish, Nat.lt_irrefl, if_false, hname, List.foldl_cons, List.foldl_nil,
      and_self]

theorem writes_writeArtifacts (sibling : CompilationUnit) : ∀ (artifacts : ArtifactMap)
    {s : Session σ}, (writeArtifacts sibling artifacts).run.run s = (.ok (), t) →
      s.Writes artifacts t
  | [], s, h => by
      cases h
      exact .refl t
  | (name, bytes) :: rest, s, h => by
      unfold writeArtifacts at h
      rw [run_get_bind] at h
      dsimp only at h
      rcases hcommit : s.store.commit s.files
        ((s.store.openOutput .classOutput name .artifact (some sibling)).write bytes)
        with ⟨done, files, store⟩
      rw [hcommit] at h
      obtain ⟨⟨⟩, s₁, hset, h⟩ := of_run_bind h
      cases hset
      obtain ⟨⟨⟩, s₂, hdone, h⟩ := of_run_bind h
      cases done with
      | error fault => cases hdone
      | ok r =>
          cases hdone
          exact (writes_commit rfl hcommit).trans (writes_writeArtifacts sibling rest h)

/-! ## Generation -/

theorem run_owns {d : DeclaredClass} (hs : s.Sound) (hd : s.Declares d) :
    (owns d.unit d.place d.binary).run.run s = (.ok true, s) := by
  obtain ⟨c, hc, hsymbol⟩ := hs.declared hd
  have horigin : c.origin = .source d.unit d.place := congrArg ClassSymbol.origin hsymbol
  show (Except.ok _, s) = _
  rw [hc, Option.map_some, horigin, beq_self_eq_true]

/-- Generating a class writes the artifacts of the class and of those in it. -/
theorem writes_generate {q : QueuedClass} {e : SourceEntry} {decl : ClassDecl} (hs : s.Sound)
    (he : s.sources[q.unit]? = some e) (hdecl : e.tree.types[q.type.place]? = some decl)
    (hname : q.type.binary = e.tree.binaryName decl)
    (h : (generate q).run.run s = (.ok (), t)) :
    ∃ artifacts, s.Writes artifacts t ∧
      List.Forall₂ (DeclaredClass.Makes s.symbols s.options)
        (decl.declared q.unit e.tree.packageName? none [q.type.place] (e.tree.binaryName decl))
        artifacts := by
  have hdeclares : s.Declares ⟨q.unit, e.tree.packageName?, [q.type.place], none,
      e.tree.binaryName decl, decl⟩ := ⟨e, he, UnitTree.mem_declared_of_getElem? hdecl⟩
  unfold generate at h
  rw [run_get_bind, he] at h
  dsimp only at h
  rw [hdecl, hname] at h
  dsimp only at h
  rw [run_bind_ok (run_owns hs hdeclares), if_pos rfl] at h
  obtain ⟨state, log, hstarted, hlog⟩ := run_started s
    { phase := .generate, source := q.source, unit := some e.tree, type := some q.type }
  rw [run_bind_ok hstarted, run_get_bind] at h
  dsimp only at h
  have hbegin : s.Writes [] { s with state := state, log := log } := .of_log s hlog
  cases hartifacts : decl.artifacts s.symbols s.options (e.tree.binaryName decl) with
  | error fault =>
      rw [hartifacts] at h
      cases h
  | ok artifacts =>
      rw [hartifacts] at h
      obtain ⟨⟨⟩, u, hwrite, h⟩ := of_run_bind h
      obtain ⟨state', log', hfinished, hlog'⟩ := run_finished u
        { phase := .generate, source := q.source, unit := some e.tree, type := some q.type }
      rw [hfinished] at h
      cases h
      have hend : u.Writes [] { u with state := state', log := log' } := .of_log u hlog'
      have hwrites := (hbegin.trans (writes_writeArtifacts e.unit artifacts hwrite)).trans hend
      rw [List.nil_append, List.append_nil] at hwrites
      refine ⟨artifacts, hwrites, decl.artifacts_make (fun d hd => ?_) hartifacts⟩
      have hdeclared := UnitTree.mem_declared_at hdecl hd
      have hunit := (UnitTree.at?_of_mem_declared hdeclared).2
      exact hs.declared ⟨e, hunit ▸ he, hunit ▸ hdeclared⟩

/-- Generating classes writes the artifacts of all classes in them. -/
theorem writes_generateAll : ∀ (qs : List QueuedClass) {s : Session σ}, s.Sound →
    (∀ q ∈ qs, ∃ e, s.sources[q.unit]? = some e ∧ typeSymbol e.tree q.type.place = some q.type) →
    (generateAll qs).run.run s = (.ok (), t) →
      ∃ artifacts, s.Writes artifacts t ∧
        List.Forall₂ (DeclaredClass.Makes s.symbols s.options)
          ((qs.map QueuedClass.key).flatMap s.declaredAt) artifacts
  | [], s, _, _, h => by
      cases h
      exact ⟨[], .refl t, .nil⟩
  | q :: rest, s, hs, hnamed, h => by
      obtain ⟨⟨⟩, u, hfirst, h⟩ := of_run_bind h
      obtain ⟨⟨e, he, htype⟩, hnamed⟩ := List.forall_mem_cons.mp hnamed
      obtain ⟨decl, hdecl, hq⟩ := Option.map_eq_some_iff.mp htype
      obtain ⟨here, hwrites, hmakes⟩ :=
        writes_generate hs he hdecl (congrArg TypeSymbol.binary hq).symm hfirst
      obtain ⟨more, hwrites', hmakes'⟩ := writes_generateAll rest
        (hs.of_eq hwrites.sources hwrites.symbols)
        (fun q hq => by rw [hwrites.sources]; exact hnamed q hq) h
      refine ⟨here ++ more, hwrites.trans hwrites', ?_⟩
      rw [List.map_cons, List.flatMap_cons]
      refine List.rel_append ?_ ?_
      · rw [← UnitTree.declaredAt_of_getElem? hdecl] at hmakes
        rw [Session.declaredAt, QueuedClass.key, he]
        exact hmakes
      · rw [hwrites.symbols, hwrites.options] at hmakes'
        have hsame : u.declaredAt = s.declaredAt := by
          unfold Session.declaredAt
          rw [hwrites.sources]
        rwa [hsame] at hmakes'

end SessionM

/-! ## Tasks -/

/-- Whether an output is the artifact of a declared class: the class is fit for code, its methods give
back values where they should, its names refer to the slots that they have, the artifact was made from
it, and its symbol has the signatures of its members. -/
structure Session.Wrote {σ : Type} (u : Session σ) (d : DeclaredClass) (o : Sink) (symbol : ClassSymbol)
    (file : ClassFile) : Prop where
  declares : u.Declares d
  formed : d.decl.Formed
  spelled : Spelled d.binary
  name : o.name = d.binary
  find? : u.symbols.find? d.binary = some symbol
  entered : symbol.entered = d.symbol
  superclass : symbol.superclass.isSome = true
  fit : d.decl.Fit
  concludes : d.decl.Concludes
  inScope : d.decl.Scoped
  written : symbol.Written u.symbols d.decl
  made : d.decl.classFile u.options symbol = .ok file
  encoded : file.encode = .ok o.buffer

namespace CompilationTask

variable {σ : Type} {task : CompilationTask σ} {files : FileTree} {store : UnitStore} {state : σ}
  {b : Bool} {u : Session σ}

theorem call_of_isOk {s : Session σ} (h : (task.call s).1.isOk = true) :
    ∃ b, task.call s = (.ok b, (task.call s).2) :=
  of_isOk h

/-- A task that ends has generated code if its analysis ended without an error. -/
theorem call_ok (h : task.call (task.session files store state) = (.ok b, u)) :
    ∃ qs t, task.analysis files store state = (.ok qs, t) ∧ (b = true ↔ u.log.errors = 0) ∧
      (t.log.errors = 0 → (generateAll qs).run.run t = (.ok (), u)) ∧
      (t.log.errors ≠ 0 → u = t) := by
  obtain ⟨qs, t, hanalysis, h⟩ := of_run_bind (show (runTask task).run.run
    { task.session files store state with called := true } = (.ok b, u) from h)
  rw [run_get_bind] at h
  refine ⟨qs, t, hanalysis, ?_⟩
  split at h
  · next herrors =>
      obtain ⟨⟨⟩, v, hgenerate, h⟩ := of_run_bind h
      cases h
      exact ⟨decide_eq_true_iff, fun _ => hgenerate, fun h => absurd herrors h⟩
  · next herrors =>
      cases h
      exact ⟨decide_eq_true_iff, fun h => absurd h herrors, fun _ => rfl⟩

/-- What a task has written once it has ended. -/
theorem call_makes (h : task.call (task.session files store state) = (.ok b, u)) :
    ∃ qs t, task.analysis files store state = (.ok qs, t) ∧ (b = true ↔ u.log.Clean) ∧
      (t.log.Clean → t.Analysed task.units qs ∧ t.Writes u.written u ∧
        List.Forall₂ (DeclaredClass.Makes t.symbols t.options) (declaredClasses 0 t.sources)
          u.written) ∧
      (¬ t.log.Clean → u = t) := by
  obtain ⟨qs, t, hanalysis, hb, hclean, hfailed⟩ := call_ok h
  obtain ⟨_, _, hpersists⟩ := persists_analysis hanalysis
  have hcount := Log.clean_iff hpersists.log
  have hmade (herrors : t.log.errors = 0) : t.Analysed task.units qs ∧ t.Writes u.written u ∧
      List.Forall₂ (DeclaredClass.Makes t.symbols t.options) (declaredClasses 0 t.sources)
        u.written := by
    have hanalysed := analysed_analysis hanalysis herrors
    obtain ⟨artifacts, hwrites, hmakes⟩ := writes_generateAll qs hanalysed.sound
      (fun q hq => have ⟨e, he, _, htype⟩ := hanalysed.named q hq; ⟨e, he, htype⟩)
      (hclean herrors)
    have hwritten : u.written = artifacts := by
      rw [hwrites.written, Session.written, hpersists.outputs]
      rfl
    rw [hanalysed.queue, ← Session.declaredClasses_eq] at hmakes
    exact ⟨hanalysed, hwritten ▸ hwrites, hwritten ▸ hmakes⟩
  refine ⟨qs, t, hanalysis, ?_, fun h => hmade (hcount.mpr h), fun h => hfailed (mt hcount.mp h)⟩
  rw [hb]
  by_cases herrors : t.log.errors = 0
  · obtain ⟨ds, hds⟩ := hpersists.log
    obtain ⟨ds', hds'⟩ := (hmade herrors).2.1.log
    refine Log.clean_iff ⟨ds ++ ds', ?_⟩
    rw [hds', hds, Log.reportAll_append]
    rfl
  · rw [hfailed herrors]
    exact hcount

/-- A task that has ended without an error, or has opened an output, has had no error by the end of
its analysis. -/
theorem call_made (hrun : task.call (task.session files store state) = (.ok b, u))
    (hclean : u.log.Clean ∨ u.outputs ≠ []) :
    ∃ (qs : List QueuedClass) (t : Session σ), t.files = files ∧ t.Analysed task.units qs ∧
      t.Writes u.written u ∧ List.Forall₂ (DeclaredClass.Makes t.symbols t.options)
        (declaredClasses 0 t.sources) u.written := by
  obtain ⟨qs, t, hanalysis, -, hmade, hfailed⟩ := call_makes hrun
  obtain ⟨_, _, hpersists⟩ := persists_analysis hanalysis
  have houtputs := hpersists.outputs
  have ht : t.log.Clean := by
    by_contra h
    rw [hfailed h] at hclean
    exact hclean.elim h fun hne => hne houtputs
  exact ⟨qs, t, hpersists.files, hmade ht⟩

/-- The units of such a task are those of their texts. -/
theorem reads_of_call (hrun : task.call (task.session files store state) = (.ok b, u))
    (hclean : u.log.Clean ∨ u.outputs ≠ []) : ∀ e ∈ u.sources, e.Reads files := by
  obtain ⟨qs, t, hfiles, hanalysed, hwrites, -⟩ := call_made hrun hclean
  rw [hwrites.sources, ← hfiles]
  exact hanalysed.reads

/-- Such a task has written the artifacts of all declared classes. -/
theorem call_wrote (hrun : task.call (task.session files store state) = (.ok b, u))
    (hclean : u.log.Clean ∨ u.outputs ≠ []) :
    u.Sound ∧ List.Forall₂ (fun d o => ∃ symbol file, u.Wrote d o symbol file)
      (declaredClasses 0 u.sources) u.outputs := by
  obtain ⟨qs, t, -, hanalysed, hwrites, hmakes⟩ := call_made hrun hclean
  refine ⟨hanalysed.sound.of_eq hwrites.sources hwrites.symbols, ?_⟩
  rw [Session.written, List.forall₂_map_right_iff] at hmakes
  rw [hwrites.sources]
  obtain ⟨hlength, hzip⟩ := List.forall₂_iff_zip.mp hmakes
  refine List.forall₂_iff_zip.mpr ⟨hlength, fun {d o} hmem => ?_⟩
  obtain ⟨hname, symbol, file, hfind, hentered, hfile, hencode⟩ := hzip hmem
  have hdeclares := Session.declares_iff.mpr (List.of_mem_zip hmem).1
  obtain ⟨hsuper, hwritten⟩ := hanalysed.written hdeclares hfind
  obtain ⟨e, he, hd⟩ := hdeclares
  obtain ⟨hformed, hspelled⟩ := (hanalysed.reads e (List.mem_of_getElem? he)).formed hd
  refine ⟨symbol, file, ?_, hformed, hspelled, hname, ?_, hentered, hsuper,
    hanalysed.fit (List.mem_of_getElem? he) hd, hanalysed.concludes (List.mem_of_getElem? he) hd,
    hanalysed.inScope (List.mem_of_getElem? he) hd, ?_, ?_, hencode⟩
  · exact ⟨e, by rwa [hwrites.sources], hd⟩
  · rwa [hwrites.symbols]
  · rwa [hwrites.symbols]
  · rwa [hwrites.options]

/-- The map of a task that works in memory is what the task has written, no name twice. -/
theorem artifacts_in_memory {search : Option SearchPath}
    (hrun : task.call (task.session files (.inMemory search) state) = (.ok b, u))
    (hclean : u.log.Clean) : u.store.artifacts = u.written ∧ u.written.names.Nodup := by
  obtain ⟨qs, t, hanalysis, -, hmade, hfailed⟩ := call_makes hrun
  obtain ⟨_, _, hpersists⟩ := persists_analysis hanalysis
  have ht : t.log.Clean := by
    by_contra h
    exact h (hfailed h ▸ hclean)
  obtain ⟨hanalysed, hwrites, hmakes⟩ := hmade ht
  obtain ⟨m, hm, hsettled⟩ : ∃ m, t.store.memory = some m ∧ m.settled = { search } :=
    Option.map_eq_some_iff.mp hpersists.memory
  obtain ⟨m', hm', -, hcurrent⟩ := hwrites.memory m hm
  have hempty : m.current = [] := congrArg Memory.current hsettled
  have hnames : u.written.names = t.sources.flatMap fun e => e.tree.binaryNames := by
    rw [← binary_declaredClasses 0]
    exact (map_eq_of_forall₂ hmakes fun d o h => h.name.symm).symm
  have hnodup : u.written.names.Nodup := hnames ▸ hanalysed.sound.nodup_names
  refine ⟨?_, hnodup⟩
  rw [UnitStore.artifacts, hm', Option.map_some, Option.getD_some, hcurrent, hempty]
  exact Table.foldl_put_of_nodup _ [] hnodup

/-- A task that ends without an error by the end of its analysis has written one artifact for every
class that is declared in the units that it has entered, at any depth, and each reads back with the
header of its class. With an error by then it has opened no output. The answer tells whether no
error was reported until the end. -/
theorem call_all_or_nothing (hrun : task.call (task.session files store state) = (.ok b, u)) :
    ∃ qs t, task.analysis files store state = (.ok qs, t) ∧
      (t.log.Clean →
        (∀ unit ∈ task.units, ∃ e ∈ u.sources, e.unit = unit) ∧
        (∀ e ∈ u.sources, e.Reads files) ∧
        u.outputs.map Sink.name = (u.sources.flatMap fun e => e.tree.binaryNames) ∧
        (u.outputs.map Sink.name).Nodup ∧
        List.Forall₂ (fun d o => o.name = d.binary ∧ ∃ file, ClassFile.decode o.buffer = .ok file ∧
            file.name = d.binary ∧ file.outer = d.outer ∧ file.nested = d.nestedNames)
          (declaredClasses 0 u.sources) u.outputs) ∧
      (¬ t.log.Clean → u.outputs = []) ∧
      (b = true ↔ u.log.Clean) := by
  obtain ⟨qs, t, hanalysis, hb, hclean, hfailed⟩ := call_makes hrun
  obtain ⟨_, _, hpersists⟩ := persists_analysis hanalysis
  refine ⟨qs, t, hanalysis, fun h => ?_, fun h => ?_, hb⟩
  · obtain ⟨hanalysed, hwrites, hmakes⟩ := hclean h
    rw [hwrites.sources]
    have hmade : List.Forall₂ (fun d (o : Sink) =>
        DeclaredClass.Makes t.symbols t.options d (o.name, o.buffer))
        (declaredClasses 0 t.sources) u.outputs := by
      rwa [Session.written, List.forall₂_map_right_iff] at hmakes
    have hnames : u.outputs.map Sink.name = t.sources.flatMap fun e => e.tree.binaryNames := by
      rw [← binary_declaredClasses 0]
      exact (map_eq_of_forall₂ hmade fun d o h => h.name.symm).symm
    refine ⟨hanalysed.given, ?_, hnames, ?_, ?_⟩
    · have hfiles : t.files = files := hpersists.files
      rw [← hfiles]
      exact hanalysed.reads
    · exact hnames ▸ hanalysed.sound.nodup_names
    · exact hmade.imp fun d o h => ⟨h.name, h.decode⟩
  · rw [hfailed h, hpersists.outputs]
    rfl

end CompilationTask

/-- The session of the task, with a store that works in memory. -/
def counterSession : Session Unit :=
  counterTask.session ⟨[], ""⟩ (.inMemory none) ()

theorem call_all_or_nothing_counter :
    (counterTask.call counterSession).2.outputs.map Sink.name = ["Counter", "Counter$Two"] ∧
      List.Forall₂ (fun d o => o.name = d.binary ∧ ∃ file, ClassFile.decode o.buffer = .ok file ∧
          file.name = d.binary ∧ file.outer = d.outer ∧ file.nested = d.nestedNames)
        (declaredClasses 0 (counterTask.call counterSession).2.sources)
        (counterTask.call counterSession).2.outputs := by
  have hok : (counterTask.call counterSession).1.isOk = true := by decide +kernel
  have hnames : (counterTask.call counterSession).2.outputs.map Sink.name =
      ["Counter", "Counter$Two"] := by decide +kernel
  obtain ⟨b, hrun⟩ := CompilationTask.call_of_isOk hok
  obtain ⟨qs, t, -, hclean, hfailed, -⟩ := CompilationTask.call_all_or_nothing hrun
  refine ⟨hnames, ?_⟩
  by_cases h : t.log.Clean
  · exact (hclean h).2.2.2.2
  · rw [hfailed h] at hnames
    cases hnames

end ProbeLang
