import Mathlib.Data.List.Induction
import ProbeLang.Proofs.Task.Call
import ProbeLang.Proofs.Task.Queueing

/-!
# The protocol of events

A task tells its listener the notices of a trace that follows from the given units: all of them if
it ends with an answer, and the first of them if it ends with a fault.
-/

namespace ProbeLang

open SessionM

/-! ## Analyses that have finished -/

/-- Whether notices tell of no analysis that it has finished. -/
def FinishNoAnalysis (ns : List Notice) : Prop :=
  ∀ e, .finished e ∈ ns → e.phase ≠ .analyze

namespace FinishNoAnalysis

theorem flatMap {α : Type} {f : α → List Notice} (h : ∀ x, FinishNoAnalysis (f x)) (xs : List α) :
    FinishNoAnalysis (xs.flatMap f) := by
  intro e he
  obtain ⟨x, -, he⟩ := List.mem_flatMap.mp he
  exact h x e he

theorem append {ns ns' : List Notice} (h : FinishNoAnalysis ns) (h' : FinishNoAnalysis ns') :
    FinishNoAnalysis (ns ++ ns') :=
  fun e he => (List.mem_append.mp he).elim (h e) (h' e)

theorem started (e : TaskEvent) : FinishNoAnalysis [.started e] := by
  intro e' he
  simp at he

theorem parsing (r : Reading) : FinishNoAnalysis r.parsing := by
  intro e he
  simp only [Reading.parsing, List.mem_cons, reduceCtorEq, Notice.finished.injEq, List.not_mem_nil,
    or_false, false_or] at he
  rw [he]
  exact Phase.noConfusion

theorem entering (r : Reading) : FinishNoAnalysis r.entering := by
  intro e he
  unfold Reading.entering at he
  split at he
  · cases he
  · simp only [List.mem_cons, reduceCtorEq, Notice.finished.injEq, List.not_mem_nil, or_false,
      false_or] at he
    rw [he]
    exact Phase.noConfusion

theorem loading (r : Reading) : FinishNoAnalysis r.loading :=
  (parsing r).append (entering r)

theorem generation (es : List SourceEntry) (a : ClassAnalysis) :
    FinishNoAnalysis (a.generation es) := by
  intro e he
  simp only [ClassAnalysis.generation, List.mem_cons, reduceCtorEq, Notice.finished.injEq,
    List.not_mem_nil, or_false, false_or] at he
  rw [he]
  exact Phase.noConfusion

end FinishNoAnalysis

/-- Whether every class of a trace whose analysis is told to have finished stands in its unit as the
analysis has left it. -/
def Session.ShowsTold {σ : Type} (s : Session σ) (r : TaskTrace) (ns : List Notice) : Prop :=
  ∀ e, .finished e ∈ ns → e.phase = .analyze → ∃ a ∈ r.analyses, e = a.event a.after ∧ s.Shows a

theorem FinishNoAnalysis.showsTold {σ : Type} {ns : List Notice} (h : FinishNoAnalysis ns) (s : Session σ) (r : TaskTrace) :
    s.ShowsTold r ns :=
  fun e he hphase => absurd hphase (h e he)

namespace Session

variable {σ : Type} {s t : Session σ} {r r' : TaskTrace} {ns ns' : List Notice}

namespace ShowsTold

theorem append (h : s.ShowsTold r ns) (h' : s.ShowsTold r ns') : s.ShowsTold r (ns ++ ns') :=
  fun e he => (List.mem_append.mp he).elim (h e) (h' e)

theorem of_front (h : s.ShowsTold r ns') (hns : ns <+: ns') : s.ShowsTold r ns :=
  fun e he => h e (hns.subset he)

theorem mono (h : s.ShowsTold r ns) (hanalyses : r.analyses ⊆ r'.analyses) :
    s.ShowsTold r' ns := by
  intro e he hphase
  obtain ⟨a, ha, heq, hshows⟩ := h e he hphase
  exact ⟨a, hanalyses ha, heq, hshows⟩

theorem of_sources (h : s.ShowsTold r ns) (hst : t.sources = s.sources) : t.ShowsTold r ns := by
  intro e he hphase
  obtain ⟨a, ha, heq, hshows⟩ := h e he hphase
  exact ⟨a, ha, heq, hshows.of_sources hst⟩

/-- When all analysed classes stand as they have been left, what is told of the analysis is right. -/
theorem of_shows (h : ∀ a ∈ r.analyses, s.Shows a) : s.ShowsTold r r.analysis := by
  have hgiven : FinishNoAnalysis (r.given.flatMap Reading.parsing ++ r.given.flatMap Reading.entering) :=
    (FinishNoAnalysis.flatMap .parsing _).append (.flatMap .entering _)
  refine (hgiven.showsTold s r).append fun e he hphase => ?_
  obtain ⟨a, ha, he⟩ := List.mem_flatMap.mp he
  refine ⟨a, ha, ?_, h a ha⟩
  have hfront : FinishNoAnalysis (.started (a.event a.before) :: a.loads.flatMap Reading.loading) :=
    (FinishNoAnalysis.started _).append (.flatMap .loading _)
  rcases List.mem_append.mp (show Notice.finished e ∈ (_ :: _) ++ [_] from he) with he | he
  · exact absurd hphase (hfront e he)
  · exact Notice.finished.inj (List.mem_singleton.mp he)

end ShowsTold

end Session

/-! ## The queue -/

namespace Session

variable {σ : Type} {s s₁ t : Session σ} {names : List String}

/-- Whether a trace is what has happened from a session to another one that has some classes in its
queue. -/
structure Traces (s₁ : Session σ) (names : List String) (r : TaskTrace) (s : Session σ) : Prop where
  queues : s.Queues names r.keys r.readings
  tells : s₁.Tells r.analysis s
  stands : r.AllStand
  once : r.LoadsOnce
  files : s.files = s₁.files
  faithful : ∀ x ∈ r.readings, x.Faithful s₁.files
  shows : ∀ a ∈ r.analyses, s.Shows a

/-- A trace may end with a part of its last analysis. -/
structure Stops (s₁ : Session σ) (names : List String) (r : TaskTrace) (t : Session σ) : Prop where
  queues : t.Queues names r.keys r.readings
  tells : ∃ ns, ns <+: r.analysis ∧ s₁.Tells ns t ∧ t.ShowsTold r ns
  stands : r.AllStand
  once : r.LoadsOnce

/-- A trace behind which no class waits is complete. -/
theorem Queues.follows {r : TaskTrace} (h : s.Queues names r.keys r.readings) (hr : r.AllStand)
    (htodo : s.todo = []) : r.Follows (r.given.map Reading.unit) s.symbols where
  given := rfl
  known := h.known
  queue := by
    have hqueue := h.queue
    rwa [htodo, List.append_nil] at hqueue
  stands := hr

/-- The classes that wait may be analysed as well, each without loading anything. -/
theorem Queues.completed {r : TaskTrace} (h : s.Queues names r.keys r.readings) (hr : r.AllStand)
    (honce : r.LoadsOnce) {units : List CompilationUnit}
    (hgiven : r.given.map Reading.unit = units) :
    ∃ r' : TaskTrace, r'.Follows units s.symbols ∧ r'.LoadsOnce ∧ r.analysis <+: r'.analysis ∧
      r.analyses <+: r'.analyses := by
  have hall : ∀ (todo : List (Nat × Nat)), todo ⊆ r.keys ++ s.todo → ∃ r' : TaskTrace,
      r'.given = r.given ∧ r'.readings = r.readings ∧ r'.keys = r.keys ++ todo ∧ r'.AllStand ∧
        r.analysis <+: r'.analysis ∧ r.analyses <+: r'.analyses := by
    intro todo
    induction todo using List.reverseRecOn with
    | nil =>
        intro _
        exact ⟨r, rfl, rfl, (List.append_nil _).symm, hr, List.prefix_refl _, List.prefix_refl _⟩
    | append_singleton todo p ih =>
        intro hsub
        obtain ⟨hsub, hp⟩ := List.append_subset.mp hsub
        obtain ⟨r', hgiven', hreadings, hkeys, hstands, hprefix, hanalyses⟩ := ih hsub
        obtain ⟨e, -, type, he, -, -, htype, -⟩ :=
          h.stands p.1 p.2 (hp List.mem_cons_self)
        have hplace : type.place = p.2 := by
          obtain ⟨decl, -, rfl⟩ := Option.map_eq_some_iff.mp htype
          rfl
        refine ⟨r'.append ⟨⟨p.1, e.unit.name, type⟩, e.tree, e.tree, []⟩, hgiven', ?_, ?_, ?_, ?_,
          hanalyses.trans (List.prefix_append _ _)⟩
        · rw [TaskTrace.readings_append, hreadings, List.append_nil]
        · rw [TaskTrace.keys_append, hkeys, List.append_assoc]
          exact congrArg (fun n => r.keys ++ (todo ++ [(p.1, n)])) hplace
        · refine hstands.append ⟨e, by rw [hreadings]; exact he, rfl, ?_⟩
          simp [hplace, htype]
        · rw [TaskTrace.analysis_append]
          exact hprefix.trans (List.prefix_append _ _)
  obtain ⟨r', hgiven', hreadings, hkeys, hstands, hprefix⟩ :=
    hall s.todo (List.subset_append_right _ _)
  refine ⟨r', ⟨by rw [hgiven', hgiven], ?_, ?_, hstands⟩, honce.congr hgiven' hreadings, hprefix⟩
  · rw [hreadings]
    exact h.known
  · rw [hkeys, hreadings, h.queue]

end Session

namespace SessionM

open Session

variable {σ : Type} {s s₁ t : Session σ} {names : List String}

/-- Working through the queue goes on with a trace until the queue is empty or a fault is met. -/
theorem run_analyseQueue (bound : Nat) : ∀ (fuel : Nat) {r : TaskTrace} {s : Session σ},
    s₁.Traces names r s → names.length < r.analyses.length + fuel →
    ∃ r' t result, r'.given = r.given ∧
      (analyseQueue bound fuel (r.analyses.map ClassAnalysis.cls).reverse).run.run s = (result, t) ∧
      (result = .ok (r'.analyses.map ClassAnalysis.cls) ∧ s₁.Traces names r' t ∧ t.todo = [] ∨
        (∃ e, result = .error e) ∧ s₁.Stops names r' t)
  | 0, r, s, h, hfuel => by
      have hlength := h.queues.length_le
      rw [TaskTrace.keys, List.length_map] at hlength
      omega
  | fuel + 1, r, s, h, hfuel => by
      unfold analyseQueue
      rw [run_get_bind]
      split
      · next htodo =>
          refine ⟨r, s, _, rfl, rfl, .inl ⟨?_, h, htodo⟩⟩
          rw [List.reverse_reverse]
      · next unit number rest htodo =>
          rw [run_bind_ok (run_modify s _)]
          obtain ⟨a, result, t, hrun, hends, hkey, hstands, hnew, hqueues, hfiles, hreplaces⟩ :=
            run_analyse bound (h.queues.pop htodo)
          have hshows : ∀ b ∈ r.analyses, t.Shows b := by
            intro b hb
            have hpopped : Shows { s with todo := rest } b := (h.shows b hb).of_sources rfl
            refine hpopped.replaces hreplaces fun heq => h.queues.not_mem_done htodo ?_
            exact heq ▸ List.mem_map_of_mem hb
          have honce : (r.append a).LoadsOnce := h.once.append h.queues.filed hnew
          have hpopped : s₁.Tells r.analysis { s with todo := rest } := by
            have htells :=
              h.tells.trans (.of_log (t := { s with todo := rest }) rfl rfl rfl ⟨[], rfl⟩)
            rwa [List.append_nil] at htells
          have hqueues' : t.Queues names (r.append a).keys (r.append a).readings := by
            rw [TaskTrace.keys_append, TaskTrace.readings_append, hkey]
            exact hqueues
          cases hends with
          | ends htells hfaithful hshown =>
              have htraces : s₁.Traces names (r.append a) t := by
                refine ⟨hqueues', ?_, h.stands.append hstands, honce, hfiles.trans h.files, ?_, ?_⟩
                · rw [TaskTrace.analysis_append]
                  exact hpopped.trans htells
                · rw [TaskTrace.readings_append]
                  exact List.forall_mem_append.mpr ⟨h.faithful, h.files ▸ hfaithful⟩
                · exact List.forall_mem_append.mpr ⟨hshows, List.forall_mem_singleton.mpr hshown⟩
              obtain ⟨r', u, result, hgiven, hrest, hend⟩ := run_analyseQueue bound fuel htraces (by
                show _ < (r.analyses ++ [a]).length + fuel
                rw [List.length_append, List.length_singleton]
                omega)
              refine ⟨r', u, result, hgiven, ?_, hend⟩
              rw [run_bind_ok hrun, ← hrest, TaskTrace.append, List.map_append, List.reverse_append]
              rfl
          | breaks e ns htells hpart =>
              refine ⟨r.append a, t, .error e, rfl, run_bind_error hrun, .inr ⟨⟨e, rfl⟩, hqueues',
                ⟨r.analysis ++ ns, ?_, hpopped.trans htells, ?_⟩, h.stands.append hstands, honce⟩⟩
              · rw [TaskTrace.analysis_append, List.prefix_append_right_inj]
                exact hpart.trans (List.prefix_append _ _)
              · have hpart : FinishNoAnalysis ns := fun e he =>
                  (FinishNoAnalysis.started _).append (.flatMap .loading _) e (hpart.subset he)
                exact ((ShowsTold.of_shows hshows).mono (List.subset_append_left _ _)).append
                  (hpart.showsTold t _)

end SessionM

/-! ## The given units -/

namespace Session

variable {σ α : Type} {s t u : Session σ} {rs : List Reading} {ns ns' : List Notice}

/-- A session that knows only the built-in classes holds no class from source. -/
theorem Fresh.placed (h : s.Fresh) : s.Placed := by
  intro p hp unit place horigin
  rw [h.symbols] at hp
  simp only [SymbolTable.builtins, List.mem_cons, List.not_mem_nil, or_false] at hp
  rcases hp with rfl | rfl | rfl <;> cases horigin

/-- With the given units entered all their classes wait. -/
theorem Fresh.queues (h : s.Fresh) (hst : s.Takes (entries rs) t) :
    t.Queues (t.symbols.names ++ t.findable) [] rs where
  queue := by
    rw [hst.todo, h.todo, h.sources]
    rfl
  judges {i e} he number decl hdecl := by
    have hjudges := hst.judges he hdecl
    rwa [h.sources, List.length_nil, Nat.zero_add] at hjudges
  alike := by
    rw [hst.entered, h.sources, List.nil_append]
    exact List.forall₂_same.mpr fun e _ => .refl e
  filed := hst.filed
  placed := hst.placed
  within := List.Subset.refl _

/-- Whether the listener has been told just the given notices by a step that ends with an answer, or
the first of them by one that ends with a fault. -/
def Relays (s : Session σ) (ns : List Notice) (r : Except TaskFault α) (t : Session σ) : Prop :=
  match r with
  | .ok _ => s.Tells ns t
  | .error _ => ∃ told, told <+: ns ∧ s.Tells told t

/-- What the listener has been told is all of some notices unless there has been a fault. -/
theorem Relays.told {r : Except TaskFault α} (h : s.Relays ns r t) :
    ∃ told, told <+: ns ∧ (∀ a, r = .ok a → told = ns) ∧ s.Tells told t := by
  cases r with
  | ok a => exact ⟨ns, List.prefix_refl ns, fun _ _ => rfl, h⟩
  | error e =>
      obtain ⟨told, hpart, htells⟩ := h
      exact ⟨told, hpart, nofun, htells⟩

/-- Whether the listener has been told notices as `Relays` says, and what it has been told of the
analysis of classes is right. -/
def Conveys (s : Session σ) (trace : TaskTrace) (ns : List Notice) (r : Except TaskFault α)
    (t : Session σ) : Prop :=
  ∃ told, told <+: ns ∧ (∀ a, r = .ok a → told = ns) ∧ s.Tells told t ∧ t.ShowsTold trace told

theorem Conveys.relays {trace : TaskTrace} {r : Except TaskFault α} (h : s.Conveys trace ns r t) :
    s.Relays ns r t := by
  obtain ⟨told, hpart, hall, htells, -⟩ := h
  cases r with
  | ok a => exact hall a rfl ▸ htells
  | error e => exact ⟨told, hpart, htells⟩

theorem Tells.relays {r : Except TaskFault α} (h : s.Tells ns t) (h' : t.Relays ns' r u) :
    s.Relays (ns ++ ns') r u := by
  cases r with
  | ok a => exact h.trans h'
  | error e =>
      obtain ⟨told, hpart, htells⟩ := h'
      exact ⟨ns ++ told, (List.prefix_append_right_inj ns).mpr hpart, h.trans htells⟩

theorem Relays.called {r : Except TaskFault α} (h : s.Relays ns r t) : t.called = s.called := by
  cases r with
  | ok a => exact Tells.called h
  | error e =>
      obtain ⟨told, -, htells⟩ := h
      exact htells.called

/-- What has been told before a fault is the first of what a complete trace tells. -/
theorem Stops.completed {names : List String} {r : TaskTrace} (h : s.Stops names r t) :
    ∃ r' : TaskTrace, r'.Follows (r.given.map Reading.unit) t.symbols ∧ r'.LoadsOnce ∧
      ∃ told, told <+: r'.analysis ∧ s.Tells told t ∧ t.ShowsTold r' told := by
  obtain ⟨r', hfollows, honce, hprefix, hanalyses⟩ := h.queues.completed h.stands h.once rfl
  obtain ⟨told, hpart, htells, hshows⟩ := h.tells
  exact ⟨r', hfollows, honce, told, hpart.trans hprefix, htells, hshows.mono hanalyses.subset⟩

/-- With the given units entered a trace has begun. -/
theorem Fresh.traces (h : s.Fresh) (hparsed : s.Told (rs.flatMap Reading.parsing) t)
    (hentered : t.Takes (entries rs) u) (htells : t.Tells (rs.flatMap Reading.entering) u)
    (hfaithful : ∀ x ∈ rs, x.Faithful s.files) :
    s.Traces (u.symbols.names ++ u.findable) ⟨rs, [], none⟩ u := by
  have hreadings : (⟨rs, [], none⟩ : TaskTrace).readings = rs := List.append_nil rs
  refine ⟨?_, ?_, fun i a ha => ?_, .of_loads_eq_nil rfl, hentered.files.trans hparsed.files, ?_,
    ?_⟩
  · rw [hreadings]
    exact h.queues ((Takes.of_told h.placed hparsed).trans hentered)
  · have hall := hparsed.tells.trans htells
    rwa [← List.append_nil (_ ++ _)] at hall
  · cases ha
  · rw [hreadings]
    exact hfaithful
  · exact List.forall_mem_nil _

/-- When the text of a given unit cannot be had, a trace may go on with the classes of the units in
front of it. -/
theorem Fresh.completed (h : s.Fresh) (unit : CompilationUnit) (rest : List CompilationUnit)
    (hentered : s.Takes (entries rs) u) :
    ∃ r' : TaskTrace, r'.Follows (rs.map Reading.unit ++ unit :: rest) u.symbols ∧ r'.LoadsOnce ∧
      rs.flatMap Reading.parsing ++ [.started { phase := .parse, source := unit.name }] <+:
        r'.analysis := by
  let given := rs ++ (unit :: rest).map fun unit => ⟨unit, none⟩
  have hentries : entries given = entries rs := by
    rw [entries_append, entries, entries, List.filterMap_map]
    simp [Function.comp_def, Reading.entry?]
  have hreadings : (⟨given, [], none⟩ : TaskTrace).readings = given := List.append_nil given
  have hqueues : u.Queues (u.symbols.names ++ u.findable) [] given := h.queues (hentries ▸ hentered)
  obtain ⟨r', hfollows, honce, hprefix, -⟩ := Queues.completed (r := ⟨given, [], none⟩)
    (hreadings.symm ▸ hqueues) (fun _ _ h => by cases h) (.of_loads_eq_nil rfl) rfl
  refine ⟨r', ?_, honce, List.IsPrefix.trans ?_ hprefix⟩
  · have hunits : given.map Reading.unit = rs.map Reading.unit ++ unit :: rest := by
      simp [given, Function.comp_def]
    exact hunits ▸ hfollows
  · simp only [TaskTrace.analysis, given, List.flatMap_append, List.map_cons, List.flatMap_cons,
      Reading.parsing, List.append_assoc, List.prefix_append_right_inj]
    exact List.cons_prefix_cons.mpr ⟨rfl, List.nil_prefix⟩

end Session

namespace SessionM

open Session

variable {σ : Type} {s t : Session σ}

/-- The units that are trees, with these. -/
def parsed (rs : List Reading) : List (CompilationUnit × UnitTree) :=
  (entries rs).map fun e => (e.unit, e.tree)

/-- Parsing units tells of each of them, and of none behind one whose text cannot be had. -/
theorem run_parseAll : ∀ (us : List CompilationUnit) (done : List (CompilationUnit × UnitTree))
    (s : Session σ), ∃ rs r t, (parseAll done us).run.run s = (r, t) ∧
      (∀ x ∈ rs, x.Faithful s.files) ∧
      (r = .ok (done.reverse ++ parsed rs) ∧ rs.map Reading.unit = us ∧
          s.Told (rs.flatMap Reading.parsing) t ∨
        ∃ e unit rest, r = .error e ∧ us = rs.map Reading.unit ++ unit :: rest ∧
          s.Told (rs.flatMap Reading.parsing ++
            [.started { phase := .parse, source := unit.name }]) t)
  | [], done, s => by
      refine ⟨[], _, s, rfl, List.forall_mem_nil _, .inl ⟨?_, rfl, .refl s⟩⟩
      exact congrArg Except.ok (List.append_nil _).symm
  | unit :: rest, done, s => by
      unfold parseAll
      rcases run_parse_cases s unit with ⟨e, t, hparse, htold⟩ | ⟨tree, t, hparse, htold, hfaithful⟩
      · exact ⟨[], .error e, t, run_bind_error hparse, List.forall_mem_nil _,
          .inr ⟨e, unit, rest, rfl, rfl, htold⟩⟩
      · -- The rest goes on behind the trees that are there by now.
        have hrest (done' : List (CompilationUnit × UnitTree))
            (hdone : done'.reverse = done.reverse ++ parsed [⟨unit, tree⟩]) :
            ∃ rs r u, (parseAll done' rest).run.run t = (r, u) ∧
              (∀ x ∈ rs, x.Faithful s.files) ∧
              (r = .ok (done.reverse ++ parsed rs) ∧ rs.map Reading.unit = unit :: rest ∧
                  s.Told (rs.flatMap Reading.parsing) u ∨
                ∃ e unit' rest', r = .error e ∧
                  unit :: rest = rs.map Reading.unit ++ unit' :: rest' ∧
                  s.Told (rs.flatMap Reading.parsing ++
                    [.started { phase := .parse, source := unit'.name }]) u) := by
          obtain ⟨rs, r, u, hrun, hall, hends⟩ := run_parseAll rest done' t
          refine ⟨⟨unit, tree⟩ :: rs, r, u, hrun,
            List.forall_mem_cons.mpr ⟨hfaithful, htold.files ▸ hall⟩, ?_⟩
          rcases hends with ⟨hr, hunits, htold'⟩ | ⟨e, unit', rest', hr, hunits, htold'⟩
          · refine .inl ⟨?_, congrArg (unit :: ·) hunits, htold.trans htold'⟩
            rw [hr, hdone, List.append_assoc, parsed, parsed, parsed, ← List.map_append,
              ← entries_append, List.singleton_append]
          · refine .inr ⟨e, unit', rest', hr, congrArg (unit :: ·) hunits, ?_⟩
            rw [List.flatMap_cons, List.append_assoc]
            exact htold.trans htold'
        rw [run_bind_ok hparse]
        cases tree with
        | none => exact hrest done (List.append_nil _).symm
        | some tree => exact hrest ((unit, tree) :: done) List.reverse_cons

/-- Entering units tells of each of them. -/
theorem run_enterAll : ∀ (rs : List Reading) {s : Session σ}, s.Placed →
    ∃ t, (enterAll (parsed rs)).run.run s = (.ok (), t) ∧ s.Takes (entries rs) t ∧
      s.Tells (rs.flatMap Reading.entering) t
  | [], s, hs => ⟨s, rfl, .of_told hs (.refl s), .refl s⟩
  | ⟨unit, none⟩ :: rest, s, hs => run_enterAll rest hs
  | ⟨unit, some tree⟩ :: rest, s, hs => by
      obtain ⟨t, henter, htakes, htells, -⟩ := takes_enter hs unit tree
      obtain ⟨u, hrest, htakes', htells'⟩ := run_enterAll rest htakes.placed
      exact ⟨u, (run_bind_ok henter).trans hrest, htakes.trans htakes', htells.trans htells'⟩

/-! ## Up to the end of the analysis -/

/-- What a task does once its directories and its plugins have been set up. -/
def readAndAnalyse (units : List CompilationUnit) : SessionM σ (List QueuedClass) := do
  enterAll (← parseAll [] units)
  let bound := (← get).classBound
  let analysed ← analyseQueue bound bound []
  reportDeprecatedUses
  return analysed

end SessionM

namespace Session

variable {σ : Type} {s t : Session σ} {files : FileTree} {rs : List Reading}

/-- Whether a session holds the units that have been read, each with the classes that its text has,
and it has been decided for each class who owns its name. -/
structure HasRead (s : Session σ) (files : FileTree) (rs : List Reading) : Prop where
  faithful : ∀ x ∈ rs, x.Faithful files
  alike : List.Forall₂ SourceEntry.Alike (entries rs) s.sources
  judges : ∀ {i : Nat} {e : SourceEntry}, (entries rs)[i]? = some e →
    ∀ {number : Nat} {decl : ClassDecl}, e.tree.types[number]? = some decl →
      s.Judges i e.tree number decl

theorem HasRead.of_log (h : s.HasRead files rs) (hsources : t.sources = s.sources)
    (hsymbols : t.symbols = s.symbols) (hlog : ∃ ds, t.log = s.log.reportAll ds) :
    t.HasRead files rs where
  faithful := h.faithful
  alike := by rw [hsources]; exact h.alike
  judges he _ _ hdecl := by
    obtain ⟨ds, hds⟩ := hlog
    obtain ⟨hknown, hjudged⟩ := h.judges he hdecl
    refine ⟨by rw [hsymbols]; exact hknown, hjudged.imp (fun howns => ?_) fun hmem => ?_⟩
    · rw [hsymbols]
      exact howns
    · rw [hds, Log.diagnostics_reportAll]
      exact List.mem_append_left _ hmem

end Session

namespace SessionM

open Session

variable {σ : Type} {s : Session σ}

theorem silent_reportDeprecatedUses :
    ∃ t, reportDeprecatedUses.run.run s = (.ok (), t) ∧ s.Silent t := by
  refine ⟨_, rfl, ?_⟩
  have hlog : ∃ ds, s.log.reportAll (deprecationNotes s.deprecatedUses) = s.log.reportAll ds :=
    ⟨_, rfl⟩
  exact ⟨{ Extends.refl s with log := hlog }, rfl, rfl, rfl, .of_log rfl rfl rfl hlog⟩

/-- What is read and analysed is told as a trace has it. With a fault the trace goes on with what
could have followed. -/
theorem run_readAndAnalyse (h : s.Fresh) (units : List CompilationUnit) :
    ∃ (trace : TaskTrace) (symbols : SymbolTable) (r : _) (t : Session σ),
      (readAndAnalyse units).run.run s = (r, t) ∧ trace.Follows units symbols ∧ trace.LoadsOnce ∧
      t.symbols.entered <+: symbols.entered ∧ s.Conveys trace trace.analysis r t ∧
      ∀ qs, r = .ok qs → qs = trace.analyses.map ClassAnalysis.cls ∧ symbols = t.symbols ∧
        t.HasRead s.files trace.readings := by
  obtain ⟨rs, r, t, hparse, hfaithful, hends⟩ := run_parseAll units [] s
  rw [List.reverse_nil, List.nil_append] at hends
  rcases hends with ⟨rfl, rfl, htold⟩ | ⟨e, unit, rest, rfl, rfl, htold⟩
  · obtain ⟨u, henter, hentered, htells⟩ := run_enterAll rs (Takes.of_told h.placed htold).placed
    obtain ⟨trace, v, r, hgiven, hqueue, hends⟩ := run_analyseQueue (r := ⟨rs, [], none⟩)
      u.classBound u.classBound (h.traces htold hentered htells hfaithful) (by
        have hbound := u.length_findable_lt
        have hnames : u.symbols.names.length = u.symbols.length := List.length_map _
        rw [List.length_append, hnames]
        exact Nat.lt_of_lt_of_le hbound (Nat.le_add_left _ _))
    have hgiven : trace.given = rs := hgiven
    have hqueue : (analyseQueue u.classBound u.classBound []).run.run u = (r, v) := hqueue
    rcases hends with ⟨rfl, htraces, htodo⟩ | ⟨⟨e, rfl⟩, hstops⟩
    · obtain ⟨w, hreport, hsilent⟩ := silent_reportDeprecatedUses (s := v)
      have hfollows := htraces.queues.follows htraces.stands htodo
      refine ⟨trace, v.symbols, .ok (trace.analyses.map ClassAnalysis.cls), w, ?_,
        hgiven ▸ hfollows, htraces.once, ?_, ?_, ?_⟩
      · unfold readAndAnalyse
        rw [run_bind_ok hparse, run_bind_ok henter, run_get_bind]
        dsimp only
        rw [run_bind_ok hqueue, run_bind_ok hreport]
        rfl
      · exact hsilent.same ▸ List.prefix_refl _
      · have hall := htraces.tells.trans hsilent.tells
        rw [List.append_nil] at hall
        have hshows := (ShowsTold.of_shows htraces.shows).of_sources hsilent.units
        exact ⟨_, List.prefix_refl _, fun _ _ => rfl, hall, hshows⟩
      · rintro qs ⟨⟩
        refine ⟨rfl, hsilent.same.symm, ?_⟩
        exact HasRead.of_log ⟨htraces.faithful, htraces.queues.alike, htraces.queues.judges⟩
          hsilent.units hsilent.same hsilent.log
    · obtain ⟨r', hfollows, honce, told, hpart, htells, hshows⟩ := hstops.completed
      refine ⟨r', v.symbols, .error e, v, ?_, hgiven ▸ hfollows, honce, List.prefix_refl _,
        ⟨told, hpart, nofun, htells, hshows⟩, nofun⟩
      unfold readAndAnalyse
      rw [run_bind_ok hparse, run_bind_ok henter, run_get_bind]
      exact run_bind_error hqueue
  · have hparsed := Takes.of_told h.placed htold
    obtain ⟨u, -, hentered, -⟩ := run_enterAll rs hparsed.placed
    obtain ⟨trace, hfollows, honce, hprefix⟩ := h.completed unit rest (hparsed.trans hentered)
    have hparsing : FinishNoAnalysis (rs.flatMap Reading.parsing ++
        [.started { phase := .parse, source := unit.name }]) :=
      (FinishNoAnalysis.flatMap .parsing _).append (.started _)
    exact ⟨trace, u.symbols, .error e, t, run_bind_error hparse, hfollows, honce, hentered.symbols,
      ⟨_, hprefix, nofun, htold.tells, hparsing.showsTold t trace⟩, nofun⟩

end SessionM

/-! ## Generation -/

namespace Session

variable {σ α : Type} {s t u : Session σ} {ns ns' : List Notice} {r : Except TaskFault α}

/-- Whether a step has told the listener some notices and has changed neither units nor symbols. -/
structure Emits (s : Session σ) (ns : List Notice) (r : Except TaskFault α) (t : Session σ) :
    Prop where
  sources : t.sources = s.sources
  symbols : t.symbols = s.symbols
  log : ∃ ds, t.log = s.log.reportAll ds
  relays : s.Relays ns r t

theorem Told.emits {a : α} (h : s.Told ns t) : s.Emits ns (.ok a : Except TaskFault α) t :=
  ⟨h.units, h.same, h.log, h.tells⟩

/-- A step that tells nothing. -/
theorem Tells.emits (h : s.Tells [] t) (hsources : t.sources = s.sources)
    (hsymbols : t.symbols = s.symbols) (hlog : ∃ ds, t.log = s.log.reportAll ds) :
    s.Emits [] r t := by
  refine ⟨hsources, hsymbols, hlog, ?_⟩
  cases r with
  | ok a => exact h
  | error e => exact ⟨[], List.prefix_refl _, h⟩

end Session

namespace SessionM

open Session

variable {σ α β : Type} {s u : Session σ}

/-- A sequence of two steps tells what the first one tells and then what the second one does. -/
theorem emits_bind (ns ns' : List Notice) {m : SessionM σ α} {f : α → SessionM σ β}
    {r : Except TaskFault β}
    (hm : ∀ {r t}, m.run.run s = (r, t) → s.Emits ns r t)
    (hf : ∀ {a t}, m.run.run s = (.ok a, t) → ∀ {r u}, (f a).run.run t = (r, u) → t.Emits ns' r u)
    (h : (m >>= f).run.run s = (r, u)) : s.Emits (ns ++ ns') r u := by
  rcases hrun : m.run.run s with ⟨e | a, t⟩
  · rw [run_bind_error hrun] at h
    cases h
    obtain ⟨hsources, hsymbols, hlog, told, hpart, htells⟩ := hm hrun
    exact ⟨hsources, hsymbols, hlog, told, hpart.trans (List.prefix_append _ _), htells⟩
  · rw [run_bind_ok hrun] at h
    obtain ⟨hsources, hsymbols, ⟨ds, hds⟩, htells⟩ := hm hrun
    obtain ⟨hsources', hsymbols', ⟨ds', hds'⟩, hrelays⟩ := hf hrun h
    refine ⟨hsources'.trans hsources, hsymbols'.trans hsymbols, ⟨ds ++ ds', ?_⟩,
      Tells.relays htells hrelays⟩
    rw [hds', hds, Log.reportAll_append]

theorem emits_stored (files : FileTree) (store : UnitStore) (outputs : List Sink)
    {r : Except TaskFault α} : s.Emits [] r { s with files, store, outputs } :=
  Tells.emits (.of_log rfl rfl rfl ⟨[], rfl⟩) rfl rfl ⟨[], rfl⟩

theorem emits_ofIo {r : Except IoFault α} {r' : Except TaskFault α}
    (h : (ofIo r).run.run s = (r', u)) : s.Emits [] r' u := by
  cases r <;> cases h <;> exact (Tells.refl s).emits rfl rfl ⟨[], rfl⟩

theorem emits_writeArtifacts (sibling : CompilationUnit) : ∀ (artifacts : ArtifactMap)
    {s u : Session σ} {r : Except TaskFault Unit},
    (writeArtifacts sibling artifacts).run.run s = (r, u) → s.Emits [] r u
  | [], s, u, r, h => by
      cases h
      exact (Tells.refl s).emits rfl rfl ⟨[], rfl⟩
  | (name, bytes) :: rest, s, u, r, h => by
      unfold writeArtifacts at h
      rw [run_get_bind] at h
      dsimp only at h
      refine emits_bind [] _ (fun {r t} h => ?_) (fun {a t} _ {r u} h => ?_) h
      · cases h
        exact emits_stored _ _ _
      · exact emits_bind [] _ emits_ofIo
          (fun {_ _} _ {_ _} h => emits_writeArtifacts sibling rest h) h

/-- Generating a class tells that it is generated. -/
theorem emits_generate {a : ClassAnalysis} {e : SourceEntry} {r : Except TaskFault Unit}
    (hs : s.Sound) (he : s.sources[a.cls.unit]? = some e)
    (htype : typeSymbol e.tree a.cls.type.place = some a.cls.type)
    (h : (generate a.cls).run.run s = (r, u)) : s.Emits (a.generation s.sources) r u := by
  obtain ⟨decl, hdecl, hq⟩ := Option.map_eq_some_iff.mp htype
  have hname : a.cls.type.binary = e.tree.binaryName decl :=
    (congrArg TypeSymbol.binary hq).symm
  have hdeclares : s.Declares ⟨a.cls.unit, e.tree.packageName?, [a.cls.type.place], none,
      e.tree.binaryName decl, decl⟩ := ⟨e, he, UnitTree.mem_declared_of_getElem? hdecl⟩
  unfold generate at h
  rw [run_get_bind, he] at h
  dsimp only at h
  rw [hdecl, hname] at h
  dsimp only at h
  rw [run_bind_ok (run_owns hs hdeclares), if_pos rfl] at h
  unfold ClassAnalysis.generation
  rw [he, Option.map_some]
  refine emits_bind [_] _ (fun {r t} h => ?_) (fun {a t} _ {r u} h => ?_) h
  · rw [run_started_eq] at h
    cases h
    exact (told_told s _).emits
  · rw [run_get_bind] at h
    split at h
    · cases h
      exact ⟨rfl, rfl, ⟨[], rfl⟩, [], List.nil_prefix, .refl t⟩
    · refine emits_bind [] _ (emits_writeArtifacts _ _) (fun {a t} _ {r u} h => ?_) h
      rw [run_finished_eq] at h
      cases h
      exact (told_told _ _).emits

/-- Generating classes tells that they are generated, one after the other. -/
theorem emits_generateAll : ∀ (as : List ClassAnalysis) {s u : Session σ}
    {r : Except TaskFault Unit}, s.Sound →
    (∀ a ∈ as, ∃ e, s.sources[a.cls.unit]? = some e ∧
      typeSymbol e.tree a.cls.type.place = some a.cls.type) →
    (generateAll (as.map ClassAnalysis.cls)).run.run s = (r, u) →
      s.Emits (as.flatMap (ClassAnalysis.generation s.sources)) r u
  | [], s, u, r, _, _, h => by
      cases h
      exact (Tells.refl s).emits rfl rfl ⟨[], rfl⟩
  | a :: rest, s, u, r, hs, hnamed, h => by
      obtain ⟨⟨e, he, htype⟩, hnamed⟩ := List.forall_mem_cons.mp hnamed
      refine emits_bind _ _ (emits_generate hs he htype) (fun {b t} hfirst {r u} h => ?_) h
      have hemits := emits_generate hs he htype hfirst
      rw [← hemits.sources] at hnamed ⊢
      exact emits_generateAll rest (hs.of_eq hemits.sources hemits.symbols) hnamed h

/-! ## The task -/

/-- Set the directories of a task and then its plugins up. -/
def setUp (plugins : List (Plugin σ)) : SessionM σ Unit := do
  setLocations
  initPlugins plugins

/-- All that is set up is the store, the listener and its state. -/
theorem run_setUp (plugins : List (Plugin σ)) (s : Session σ) : ∃ r store state listener,
    (setUp plugins).run.run s = (r, { s with store, state, listener }) := by
  obtain ⟨r, state, listener, hrun⟩ := run_initPlugins plugins (setLocations.run.run s).2
  exact ⟨r, _, state, listener, hrun⟩

theorem analyseTask_eq (task : CompilationTask σ) : analyseTask task = (do
    setUp task.plugins
    readAndAnalyse task.units) := by
  unfold setUp
  rw [bind_assoc]
  rfl

end SessionM

namespace CompilationTask

open Session

variable {σ : Type} {task : CompilationTask σ} {files : FileTree} {store : UnitStore} {state : σ}
  {r : Except TaskFault Bool} {u : Session σ}

/-- How setting a task up ends. -/
def setUp (task : CompilationTask σ) (files : FileTree) (store : UnitStore) (state : σ) :
    Except TaskFault Unit × Session σ :=
  (SessionM.setUp task.plugins).run.run { task.session files store state with called := true }

/-- Nothing has been read when a task has been set up. -/
theorem fresh_setUp {r : Except TaskFault Unit} {s : Session σ}
    (h : task.setUp files store state = (r, s)) :
    s.Fresh ∧ s.files = files ∧ s.called = true := by
  obtain ⟨r', store', state', listener, hrun⟩ := run_setUp task.plugins
    { task.session files store state with called := true }
  cases hrun.symm.trans h
  exact ⟨⟨rfl, rfl, rfl⟩, rfl, rfl⟩

/-- A task that has been set up tells its listener what it reads and analyses as a trace has it. -/
theorem analysis_tells {s : Session σ} (hsetUp : task.setUp files store state = (.ok (), s)) :
    ∃ (trace : TaskTrace) (symbols : SymbolTable) (r : _) (t : Session σ),
      task.analysis files store state = (r, t) ∧
      trace.Follows task.units symbols ∧ trace.LoadsOnce ∧
      t.symbols.entered <+: symbols.entered ∧ s.Conveys trace trace.analysis r t ∧
      ∀ qs, r = .ok qs → qs = trace.analyses.map ClassAnalysis.cls ∧ symbols = t.symbols ∧
        t.HasRead files trace.readings := by
  obtain ⟨hfresh, hfiles, -⟩ := fresh_setUp hsetUp
  rw [analysis, analyseTask_eq, run_bind_ok hsetUp, ← hfiles]
  exact run_readAndAnalyse hfresh task.units

/-- A task whose analysis ends goes on to tell of the classes that it generates, of all those that
have been analysed if there has been no error by then, and of none if there has been one. -/
theorem emits_call {trace : TaskTrace} {t : Session σ}
    (hanalysis : task.analysis files store state =
      (.ok (trace.analyses.map ClassAnalysis.cls), t))
    (hrun : task.call (task.session files store state) = (r, u)) :
    t.Emits (TaskTrace.generation
      { trace with generated := if t.log.Clean then some t.sources else none }) r u := by
  obtain ⟨_, _, hpersists⟩ := persists_analysis hanalysis
  have hclean := Log.clean_iff hpersists.log
  have hrun : (runTask task).run.run { task.session files store state with called := true } =
      (r, u) := hrun
  unfold runTask at hrun
  rw [run_bind_ok hanalysis, run_get_bind] at hrun
  split at hrun
  · next herrors =>
      have hanalysed := analysed_analysis hanalysis herrors
      rw [if_pos (hclean.mp herrors)]
      have hemits := emits_bind _ [] (emits_generateAll trace.analyses hanalysed.sound ?_)
        (fun {_ _} _ {r v} h => ?_) hrun
      · rwa [List.append_nil] at hemits
      · intro a ha
        obtain ⟨e, he, -, htype⟩ := hanalysed.named a.cls (List.mem_map_of_mem ha)
        exact ⟨e, he, htype⟩
      · cases h
        exact (Tells.refl _).emits rfl rfl ⟨[], rfl⟩
  · next herrors =>
      rw [if_neg (mt hclean.mpr herrors)]
      cases hrun
      exact (Tells.refl _).emits rfl rfl ⟨[], rfl⟩

/-- A task that has been set up tells its listener the notices of a trace that follows from the
given units, or the first of them if it ends with a fault. No unit is loaded that has been read
before as a tree. The log at the end is the one at the set-up with reports added, and a run that
ends well has an analysis that ended well. -/
theorem call_traces_once {s : Session σ} (hsetUp : task.setUp files store state = (.ok (), s))
    (hrun : task.call (task.session files store state) = (r, u)) :
    ∃ (trace : TaskTrace) (symbols : SymbolTable), trace.LoadsOnce ∧
      trace.Follows task.units symbols ∧ u.symbols.entered <+: symbols.entered ∧
      s.Conveys trace trace.notices r u ∧ (∃ ds, u.log = s.log.reportAll ds) ∧
      (∀ b, r = .ok b → (task.analysis files store state).1.isOk = true) ∧
      ∀ qs t, task.analysis files store state = (.ok qs, t) →
        qs = trace.analyses.map ClassAnalysis.cls ∧ symbols = u.symbols ∧
        u.HasRead files trace.readings ∧
        (∀ {i : Nat} {e : SourceEntry}, (entries trace.readings)[i]? = some e →
          ∀ {number : Nat} {decl : ClassDecl}, e.tree.types[number]? = some decl →
            trace.AnalysesOnce i number ∨ e.tree.duplicate decl ∈ u.log.diagnostics) ∧
        trace.generated = if t.log.Clean then some t.sources else none := by
  obtain ⟨trace, symbols, r₂, t, hanalysis, hfollows, honce, hsymbols, hconveys, hends⟩ :=
    analysis_tells hsetUp
  have hlog : ∃ ds, t.log = s.log.reportAll ds := by
    obtain ⟨_, _, hpersists⟩ := persists_analysis hanalysis
    obtain ⟨_, _, _, _, hset⟩ := run_setUp task.plugins
      { task.session files store state with called := true }
    cases hset.symm.trans hsetUp
    exact hpersists.log
  cases r₂ with
  | error e =>
      have hcalled : (runTask task).run.run
          { task.session files store state with called := true } = (r, u) := hrun
      unfold runTask at hcalled
      rw [run_bind_error hanalysis] at hcalled
      cases hcalled
      refine ⟨trace, symbols, honce, hfollows, hsymbols, ?_, hlog, nofun, fun qs t' h => ?_⟩
      · obtain ⟨told, hpart, -, htells, hshows⟩ := hconveys
        exact ⟨told, hpart.trans (List.prefix_append _ _), nofun, htells, hshows⟩
      · cases hanalysis.symm.trans h
  | ok qs =>
      obtain ⟨rfl, rfl, hread⟩ := hends qs rfl
      have hemits := emits_call hanalysis hrun
      let complete : TaskTrace :=
        { trace with generated := if t.log.Clean then some t.sources else none }
      have hcomplete : complete.Follows task.units t.symbols :=
        ⟨hfollows.given, hfollows.known, hfollows.queue, hfollows.stands⟩
      have hall : s.Conveys complete complete.notices r u := by
        obtain ⟨told, -, hwhole, htells, hshows⟩ := hconveys
        obtain ⟨told', hpart', hwhole', htells'⟩ := hemits.relays.told
        have hshows : u.ShowsTold complete told := (hshows.mono fun _ => id).of_sources hemits.sources
        have hgeneration : FinishNoAnalysis complete.generation := by
          unfold TaskTrace.generation
          cases complete.generated with
          | none => exact fun _ he => by cases he
          | some es => exact .flatMap (.generation es) _
        obtain rfl := hwhole _ rfl
        refine ⟨trace.analysis ++ told', (List.prefix_append_right_inj _).mpr hpart',
          fun b hb => congrArg (trace.analysis ++ ·) (hwhole' b hb), htells.trans htells', ?_⟩
        exact hshows.append ((hgeneration.showsTold u complete).of_front hpart')
      obtain ⟨ds, hds⟩ := hlog
      obtain ⟨ds', hds'⟩ := hemits.log
      refine ⟨complete, t.symbols, honce.congr rfl rfl, hcomplete,
        hemits.symbols ▸ List.prefix_refl _, hall,
        ⟨ds ++ ds', by rw [hds', hds, Log.reportAll_append]⟩, fun _ _ => by rw [hanalysis]; rfl,
        fun qs t' h => ?_⟩
      cases hanalysis.symm.trans h
      have hread := hread.of_log hemits.sources hemits.symbols hemits.log
      refine ⟨rfl, hemits.symbols.symm, hread, fun {i e} he {number decl} hdecl => ?_, rfl⟩
      refine (hread.judges he hdecl).judged.imp_left fun howns => ?_
      rw [hemits.symbols] at howns
      exact hcomplete.analysesOnce he hdecl howns

theorem call_traces {s : Session σ} (hsetUp : task.setUp files store state = (.ok (), s))
    (hrun : task.call (task.session files store state) = (r, u)) :
    ∃ (trace : TaskTrace) (symbols : SymbolTable),
      trace.Follows task.units symbols ∧ u.symbols.entered <+: symbols.entered ∧
      s.Relays trace.notices r u ∧
      (∀ b, r = .ok b → (task.analysis files store state).1.isOk = true) ∧
      ∀ qs t, task.analysis files store state = (.ok qs, t) →
        qs = trace.analyses.map ClassAnalysis.cls ∧ symbols = u.symbols ∧
        u.HasRead files trace.readings ∧
        (∀ {i : Nat} {e : SourceEntry}, (entries trace.readings)[i]? = some e →
          ∀ {number : Nat} {decl : ClassDecl}, e.tree.types[number]? = some decl →
            trace.AnalysesOnce i number ∨ e.tree.duplicate decl ∈ u.log.diagnostics) ∧
        trace.generated = if t.log.Clean then some t.sources else none := by
  obtain ⟨trace, symbols, -, hfollows, hsymbols, hconveys, -, hends⟩ :=
    call_traces_once hsetUp hrun
  exact ⟨trace, symbols, hfollows, hsymbols, hconveys.relays, hends⟩

/-- A task that cannot be set up tells its listener nothing. One that has been set up tells it the
notices of a trace that follows from the given units: all of them if it ends with an answer, and the
first of them if it ends with a fault. Once the analysis has ended, the units are those that the
trace has read, every class of them has been analysed once or has been reported, and the trace
generates the analysed classes if and only if there is no error by then. A session does not run a
second task. -/
theorem call_tells (hrun : task.call (task.session files store state) = (r, u)) :
    task.call u = (.error .alreadyCalled, u) ∧
      ∃ r₁ s, task.setUp files store state = (r₁, s) ∧
        (∀ e, r₁ = .error e → r = .error e ∧ u = s) ∧
        (r₁ = .ok () → ∃ (trace : TaskTrace) (symbols : SymbolTable),
          trace.Follows task.units symbols ∧ u.symbols.entered <+: symbols.entered ∧
          s.Relays trace.notices r u ∧
          (∀ b, r = .ok b → (task.analysis files store state).1.isOk = true) ∧
          ∀ qs t, task.analysis files store state = (.ok qs, t) →
            qs = trace.analyses.map ClassAnalysis.cls ∧ symbols = u.symbols ∧
            u.HasRead files trace.readings ∧
            (∀ {i : Nat} {e : SourceEntry}, (entries trace.readings)[i]? = some e →
              ∀ {number : Nat} {decl : ClassDecl}, e.tree.types[number]? = some decl →
                trace.AnalysesOnce i number ∨ e.tree.duplicate decl ∈ u.log.diagnostics) ∧
            trace.generated = if t.log.Clean then some t.sources else none) := by
  have hagain (h : u.called = true) : task.call u = (.error .alreadyCalled, u) := by
    show (callTask task).run.run u = _
    unfold callTask
    rw [run_get_bind, if_pos h]
    rfl
  rcases hsetUp : task.setUp files store state with ⟨e | done, s⟩
  all_goals obtain ⟨-, -, hs⟩ := fresh_setUp hsetUp
  · have hcalled : (runTask task).run.run
        { task.session files store state with called := true } = (r, u) := hrun
    unfold runTask at hcalled
    rw [analyseTask_eq, bind_assoc, run_bind_error hsetUp] at hcalled
    cases hcalled
    exact ⟨hagain hs, _, _, rfl, fun e' h => by cases h; exact ⟨rfl, rfl⟩, nofun⟩
  · have htraces := call_traces hsetUp hrun
    have hcalled : u.called = s.called := by
      obtain ⟨_, _, -, -, hrelays, -⟩ := htraces
      exact hrelays.called
    exact ⟨hagain (hcalled.trans hs), _, _, rfl, nofun, fun _ => htraces⟩

end CompilationTask

/-! ## A listener that writes down -/

/-- What a listener writes down of a notice. -/
structure NoticeRecord where
  phase : Phase
  starts : Bool
  source : String
  cls : Option String
  deriving DecidableEq

/-- What is written down of a notice. -/
def Notice.record : Notice → NoticeRecord
  | .started e => ⟨e.phase, true, e.source, e.type.map TypeSymbol.binary⟩
  | .finished e => ⟨e.phase, false, e.source, e.type.map TypeSymbol.binary⟩

/-- A listener that writes down all that it is told. -/
def recorder : TaskListener (List NoticeRecord) where
  started e notes log := (notes ++ [Notice.record (.started e)], log)
  finished e notes log := (notes ++ [Notice.record (.finished e)], log)

theorem recorder_records : recorder.Records Notice.record id := by
  rintro (e | e) notes log <;> rfl

/-- A task with a class whose field is of a class in another file. -/
def recordedTask : CompilationTask (List NoticeRecord) where
  options := { sourcePath := some ["lib"] }
  units := [⟨"Near", .source, "Near", .text "class Near { Far f; }"⟩]
  listener := some recorder

/-- The file of the other class. -/
def recordedFiles : FileTree :=
  let text := "class Far {}".toList.map fun c => c.toNat.toUInt8
  ⟨[(["lib"], .dir), (["lib", "Far.probe"], .file text)], ""⟩

/-- The session of the task, with a store that works in memory. -/
def recordedSession : Session (List NoticeRecord) :=
  recordedTask.session recordedFiles (.inMemory none) []

theorem call_tells_recorded :
    (recordedTask.call recordedSession).2.state.map NoticeRecord.phase =
      [.parse, .parse, .enter, .enter,
        .analyze, .parse, .parse, .enter, .enter, .analyze, .analyze, .analyze,
        .generate, .generate, .generate, .generate] ∧
    ∃ trace : TaskTrace,
      trace.Follows recordedTask.units (recordedTask.call recordedSession).2.symbols ∧
        trace.notices.map Notice.record = (recordedTask.call recordedSession).2.state := by
  have hok : (recordedTask.call recordedSession).1.isOk = true := by decide +kernel
  refine ⟨by decide +kernel, ?_⟩
  -- The run must not be unfolded from here on.
  generalize hrun : recordedTask.call recordedSession = p at hok ⊢
  obtain ⟨e | b, u⟩ := p
  · cases hok
  · obtain ⟨-, r₁, s, hsetUp, -, htells⟩ := CompilationTask.call_tells hrun
    have hset : recordedTask.setUp recordedFiles (.inMemory none) [] = (.ok (), _) := rfl
    cases hset.symm.trans hsetUp
    obtain ⟨trace, symbols, hfollows, -, hrelays, hanalysis, hends⟩ := htells rfl
    obtain ⟨qs, hqs⟩ := of_isOk (hanalysis b rfl)
    obtain ⟨-, rfl, -⟩ := hends qs _ hqs
    exact ⟨trace, hfollows, (Session.Tells.recorded hrelays rfl recorder_records).symm⟩

end ProbeLang
