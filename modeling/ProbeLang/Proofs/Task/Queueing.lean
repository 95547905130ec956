import Mathlib.Data.List.Nodup
import ProbeLang.Proofs.Analysis.Moves
import ProbeLang.Proofs.Related
import ProbeLang.Proofs.Task.Readings

/-!
# All classes are queued

At any point of the analysis, with or without errors, the classes that have been analysed and those
that wait are the top-level classes with a name of their own, in the order in which their units have
been read (`Session.Queues`). They all have different names, so there are no more of them than
symbols, and the queue is empty before the bound on its length is reached.
-/

namespace ProbeLang

open SessionM

/-- Whether a unit is another one with the same classes, of which some may have been analysed. -/
structure SourceEntry.Alike (e e' : SourceEntry) : Prop where
  unit : e'.unit = e.unit
  types : typeSymbol e'.tree = typeSymbol e.tree

theorem SourceEntry.Alike.refl (e : SourceEntry) : e.Alike e :=
  ⟨rfl, rfl⟩

/-- A class that keeps its name may be replaced. -/
theorem typeSymbol_set {tree : UnitTree} {number : Nat} {decl decl' : ClassDecl}
    (hdecl : tree.types[number]? = some decl) (hname : decl'.name = decl.name) :
    typeSymbol { tree with types := tree.types.set number decl' } = typeSymbol tree := by
  funext n
  unfold typeSymbol
  dsimp only
  by_cases hn : n = number
  · subst hn
    rw [List.getElem?_set_self (List.getElem?_eq_some_iff.mp hdecl).1, hdecl]
    simp only [Option.map_some, UnitTree.binaryName, UnitTree.packageName?, hname]
  · rw [List.getElem?_set_ne (Ne.symm hn)]
    rfl

namespace Session

variable {σ : Type} {s t : Session σ} {names : List String} {done : List (Nat × Nat)}
  {rs rs' : List Reading}

/-- Whether the classes in `done` and those in the queue of a session are all that have a name of
their own in the units that have been read. -/
structure Queues (s : Session σ) (names : List String) (done : List (Nat × Nat))
    (rs : List Reading) : Prop where
  queue : done ++ s.todo = s.symbols.accepted 0 (entries rs)
  judges : ∀ {i : Nat} {e : SourceEntry}, (entries rs)[i]? = some e →
    ∀ {number : Nat} {decl : ClassDecl}, e.tree.types[number]? = some decl →
      s.Judges i e.tree number decl
  alike : List.Forall₂ SourceEntry.Alike (entries rs) s.sources
  filed : ∀ e ∈ entries rs, e.unit.uri ∈ s.loaded
  placed : s.Placed
  within : s.symbols.names ++ s.findable ⊆ names

namespace Queues

theorem length_eq (h : s.Queues names done rs) : (entries rs).length = s.sources.length :=
  h.alike.length_eq

theorem known (h : s.Queues names done rs) : ∀ e ∈ entries rs, ∀ decl ∈ e.tree.types,
    s.symbols.has (e.tree.binaryName decl) = true := by
  intro e he decl hdecl
  obtain ⟨i, he⟩ := List.mem_iff_getElem?.mp he
  obtain ⟨number, hdecl⟩ := List.mem_iff_getElem?.mp hdecl
  exact (h.judges he hdecl).known

/-- Units that are loaded put their classes into the queue. -/
theorem loads (h : s.Queues names done rs) (hst : s.Loads rs' t) :
    t.Queues names done (rs ++ rs') where
  queue := by
    rw [entries_append, SymbolTable.accepted_append, hst.todo, ← List.append_assoc, h.queue,
      SymbolTable.accepted_of_entered_prefix hst.symbols h.known, h.length_eq, Nat.zero_add]
  judges {i e} he number decl hdecl := by
    rw [entries_append] at he
    by_cases hi : i < (entries rs).length
    · rw [List.getElem?_append_left hi] at he
      exact (h.judges he hdecl).of_extends hst.toExtends
    · rw [List.getElem?_append_right (Nat.le_of_not_lt hi)] at he
      have hjudges := hst.judges he hdecl
      rwa [← h.length_eq, Nat.add_sub_cancel' (Nat.le_of_not_lt hi)] at hjudges
  alike := by
    rw [entries_append, hst.entered]
    exact List.rel_append h.alike (List.forall₂_same.mpr fun e _ => .refl e)
  filed := by
    rw [entries_append]
    exact List.forall_mem_append.mpr ⟨fun e he => hst.uris (h.filed e he), hst.filed⟩
  placed := hst.placed
  within := by
    rw [hst.toExtends.findable]
    refine List.append_subset.mpr ⟨List.Subset.trans hst.within h.within, ?_⟩
    exact List.Subset.trans (List.subset_append_right _ _) h.within

/-- What is told and reported does not matter. -/
theorem told {ns : List Notice} (h : s.Queues names done rs) (hst : s.Told ns t) :
    t.Queues names done rs where
  queue := by rw [hst.same, hst.todo, h.queue]
  judges he _ _ hdecl := (h.judges he hdecl).of_extends hst.toExtends
  alike := by rw [hst.units]; exact h.alike
  filed e he := hst.uris (h.filed e he)
  placed := (Takes.of_told h.placed hst).placed
  within := by rw [hst.same, hst.toExtends.findable]; exact h.within

/-- A unit whose text could not be had has no classes. -/
theorem unread (h : s.Queues names done rs) (unit : CompilationUnit) :
    s.Queues names done (rs ++ [⟨unit, none⟩]) := by
  have hentries : entries (rs ++ [⟨unit, none⟩]) = entries rs := by
    rw [entries_append]
    exact List.append_nil _
  obtain ⟨hqueue, hjudges, halike, hfiled, hplaced, hwithin⟩ := h
  exact ⟨hentries ▸ hqueue, hentries ▸ hjudges, hentries ▸ halike, hentries ▸ hfiled, hplaced,
    hwithin⟩

/-- Taking a class out of the queue. -/
theorem pop {p : Nat × Nat} {rest : List (Nat × Nat)} (h : s.Queues names done rs)
    (htodo : s.todo = p :: rest) : Queues { s with todo := rest } names (done ++ [p]) rs where
  queue := by
    rw [List.append_assoc, List.singleton_append, ← htodo, h.queue]
  judges he _ _ hdecl := ⟨(h.judges he hdecl).known, (h.judges he hdecl).judged⟩
  alike := h.alike
  filed := h.filed
  placed := h.placed
  within := h.within

/-- Putting a tree with the same classes into its place. -/
theorem withTree {unit : Nat} {e : SourceEntry} {tree : UnitTree} (h : s.Queues names done rs)
    (he : s.sources[unit]? = some e) (htree : typeSymbol tree = typeSymbol e.tree) :
    (s.withTree unit tree).Queues names done rs where
  queue := h.queue
  judges he _ _ hdecl := ⟨(h.judges he hdecl).known, (h.judges he hdecl).judged⟩
  alike := by
    refine forall₂_modify h.alike fun e₁ e₂ h₁ h₂ => ⟨h₁.unit, ?_⟩
    rw [he] at h₂
    cases h₂
    exact htree.trans h₁.types
  filed := h.filed
  placed p hp unit place horigin := by
    have hlt := h.placed p hp unit place horigin
    rwa [Session.withTree, List.length_modify]
  within := h.within

/-- A class that is queued stands in a unit that has been read. -/
theorem stands (h : s.Queues names done rs) (unit number : Nat)
    (hmem : (unit, number) ∈ done ++ s.todo) : ∃ e e' type, (entries rs)[unit]? = some e ∧
      s.sources[unit]? = some e' ∧ e.Alike e' ∧ typeSymbol e.tree number = some type ∧
      s.symbols.owns unit [number] type.binary = true := by
  rw [h.queue] at hmem
  obtain ⟨i, e, type, he, hunit, htype, howns⟩ := SymbolTable.mem_accepted hmem
  rw [Nat.zero_add] at hunit
  subst hunit
  obtain ⟨e', he', halike⟩ := exists_getElem?_of_forall₂ h.alike.flip he
  exact ⟨e, e', type, he, he', halike, htype, howns⟩

/-- A class that waits has not been analysed. -/
theorem not_mem_done {p : Nat × Nat} {rest : List (Nat × Nat)} (h : s.Queues names done rs)
    (htodo : s.todo = p :: rest) : p ∉ done := by
  have hnodup : (done ++ s.todo).Nodup := h.queue ▸ s.symbols.nodup_accepted 0 (entries rs)
  rw [htodo] at hnodup
  exact fun hp => List.disjoint_of_nodup_append hnodup hp List.mem_cons_self

/-- There are no more classes than names. -/
theorem length_le (h : s.Queues names done rs) : done.length + s.todo.length ≤ names.length := by
  let nameOf (p : Nat × Nat) : Option String :=
    (entries rs)[p.1]?.bind fun e => (typeSymbol e.tree p.2).map TypeSymbol.binary
  have hname (p : Nat × Nat) (hp : p ∈ done ++ s.todo) : ∃ name, nameOf p = some name ∧
      s.symbols.owns p.1 [p.2] name = true := by
    obtain ⟨e, e', type, he, -, -, htype, howns⟩ := h.stands p.1 p.2 hp
    refine ⟨type.binary, ?_, howns⟩
    show (entries rs)[p.1]?.bind _ = _
    rw [he, Option.bind_some, htype, Option.map_some]
  have hinj : ∀ p ∈ done ++ s.todo, ∀ q ∈ done ++ s.todo, nameOf p = nameOf q → p = q := by
    intro p hp q hq heq
    obtain ⟨name, hpname, hpowns⟩ := hname p hp
    obtain ⟨name', hqname, hqowns⟩ := hname q hq
    rw [heq, hqname] at hpname
    cases hpname
    have horigins := (eq_of_beq hpowns).symm.trans (eq_of_beq hqowns)
    simp only [Option.some.injEq, Origin.source.injEq, List.cons.injEq, and_true] at horigins
    exact Prod.ext horigins.1 horigins.2
  have hnodup : (done ++ s.todo).Nodup := h.queue ▸ s.symbols.nodup_accepted 0 (entries rs)
  have hsub : (done ++ s.todo).map nameOf ⊆ names.map some := by
    intro name? hmem
    obtain ⟨p, hp, rfl⟩ := List.mem_map.mp hmem
    obtain ⟨name, hpname, howns⟩ := hname p hp
    obtain ⟨c, hc, -⟩ := Option.map_eq_some_iff.mp (eq_of_beq howns)
    refine List.mem_map.mpr ⟨name, h.within (List.mem_append_left _ ?_), hpname.symm⟩
    exact Table.has_iff_mem_names.mp (Table.has_eq_true.mpr ⟨c, hc⟩)
  have hle := ((hnodup.map_on hinj).subperm hsub).length_le
  rwa [List.length_map, List.length_map, List.length_append] at hle

end Queues

end Session

/-! ## What becomes of a class -/

namespace Session

variable {σ : Type} {s t u : Session σ} {a : ClassAnalysis} {key : Nat × Nat}

/-- Whether a session goes on from another with all its units, of which no class has been replaced
but, at most, the one that stands at the given place. -/
def Replaces (s : Session σ) (key : Nat × Nat) (t : Session σ) : Prop :=
  ∀ (i : Nat) (e : SourceEntry), s.sources[i]? = some e → ∃ e', t.sources[i]? = some e' ∧
    e'.unit = e.unit ∧ e'.tree.source = e.tree.source ∧ e'.tree.package = e.tree.package ∧
    ∀ n, (i, n) ≠ key → e'.tree.types[n]? = e.tree.types[n]?

/-- Whether an analysed class stands in its unit as its analysis has left it. -/
def Shows (s : Session σ) (a : ClassAnalysis) : Prop :=
  ∃ e, s.sources[a.cls.unit]? = some e ∧ e.unit.name = a.cls.source ∧
    e.tree.source = a.after.source ∧ e.tree.package = a.after.package ∧
    e.tree.types[a.cls.type.place]? = a.after.types[a.cls.type.place]?

theorem Extends.replaces (h : s.Extends t) (key : Nat × Nat) : s.Replaces key t :=
  fun _ _ he => ⟨_, h.source he, rfl, rfl, rfl, fun _ _ => rfl⟩

theorem Replaces.trans (h : s.Replaces key t) (h' : t.Replaces key u) : s.Replaces key u := by
  intro i e he
  obtain ⟨e', he', hunit, hsource, hpackage, htypes⟩ := h i e he
  obtain ⟨e'', he'', hunit', hsource', hpackage', htypes'⟩ := h' i e' he'
  exact ⟨e'', he'', hunit'.trans hunit, hsource'.trans hsource, hpackage'.trans hpackage,
    fun n hn => (htypes' n hn).trans (htypes n hn)⟩

/-- Putting a class into its place replaces this class. -/
theorem replaces_withTree {unit number : Nat} {e : SourceEntry} {decl : ClassDecl}
    (he : s.sources[unit]? = some e) : s.Replaces (unit, number)
      (s.withTree unit { e.tree with types := e.tree.types.set number decl }) := by
  intro i e' he'
  rw [source_withTree he]
  split
  · next hi =>
      rw [hi, he] at he'
      cases he'
      refine ⟨_, rfl, rfl, rfl, rfl, fun n hn => List.getElem?_set_ne fun hnumber => hn ?_⟩
      rw [hi, hnumber]
  · exact ⟨e', he', rfl, rfl, rfl, fun _ _ => rfl⟩

/-- The class stays as it is when others are replaced. -/
theorem Shows.replaces (h : s.Shows a) (hst : s.Replaces key t)
    (hkey : QueuedClass.key a.cls ≠ key) : t.Shows a := by
  obtain ⟨e, he, hunit, hsource, hpackage, htype⟩ := h
  obtain ⟨e', he', hunit', hsource', hpackage', htypes⟩ := hst _ e he
  exact ⟨e', he', by rw [hunit', hunit], hsource'.trans hsource, hpackage'.trans hpackage,
    (htypes _ hkey).trans htype⟩

theorem Shows.of_sources (h : s.Shows a) (hst : t.sources = s.sources) : t.Shows a := by
  unfold Shows
  rw [hst]
  exact h

end Session

/-! ## Analysing a class -/

namespace SessionM

open Session

variable {σ : Type} {s s₁ t : Session σ} {names : List String} {done : List (Nat × Nat)}
  {rs : List Reading} {bound unit number : Nat}

/-- All that looking for classes and completing them does is to load units. -/
theorem lookups_loading : Lookups (σ := σ) Loading Breaks where
  ext h := h.ext
  quiet h := Loading.of_silent h.1
  find name _ := loads_findClass name
  mark hcls := by
    refine ⟨extends_markCompleted hcls, fun hs => ⟨[], ?_⟩⟩
    exact .modify hs (extends_markCompleted hcls) fun _ => rfl
  complete hcls superclass fields methods := by
    have hext := extends_completeWith hcls superclass fields methods
    exact ⟨hext, fun hs => ⟨[], .modify hs hext fun _ => rfl⟩⟩
  endless _ _ := Breaks.refl _ _

/-- Whether the analysis of a class ends as `a` says, with an answer or with a fault. In the second
case only a part of what `a` stands for has been told, and not that the analysis has finished. -/
inductive Analyses (s : Session σ) (a : ClassAnalysis) :
    Except TaskFault (Option QueuedClass) → Session σ → Prop
  | ends {t : Session σ} (told : s.Tells a.notices t)
      (faithful : ∀ r ∈ a.loads, r.Faithful s.files) (shows : t.Shows a) :
      Analyses s a (.ok (some a.cls)) t
  | breaks {t : Session σ} (e : TaskFault) (ns : List Notice) (told : s.Tells ns t)
      (part : ns <+: .started (a.event a.before) :: a.loads.flatMap Reading.loading) :
      Analyses s a (.error e) t

/-- Analysing the class that has been taken out of the queue. -/
theorem run_analyse (bound : Nat) (h : s.Queues names (done ++ [(unit, number)]) rs) :
    ∃ a r t, (analyse bound unit number).run.run s = (r, t) ∧ Analyses s a r t ∧
      QueuedClass.key a.cls = (unit, number) ∧ a.Stands (entries rs) ∧
      Reading.AllNew s.loaded a.loads ∧
      t.Queues names (done ++ [(unit, number)]) (rs ++ a.loads) ∧ t.files = s.files ∧
      s.Replaces (unit, number) t := by
  have hmem : (unit, number) ∈ (done ++ [(unit, number)]) ++ s.todo := by simp
  obtain ⟨e, e', type, he, he', halike, htype, -⟩ := h.stands unit number hmem
  have htype' : typeSymbol e'.tree number = some type := by rw [halike.types, htype]
  obtain ⟨decl, hdecl, -⟩ := Option.map_eq_some_iff.mp htype'
  have hplace : type.place = number := by
    obtain ⟨decl', -, rfl⟩ := Option.map_eq_some_iff.mp htype
    rfl
  let event : TaskEvent :=
    { phase := .analyze, source := e'.unit.name, unit := some e'.tree, type := some type }
  let analysis (after : UnitTree) (loads : List Reading) : ClassAnalysis :=
    ⟨⟨unit, e'.unit.name, type⟩, e'.tree, after, loads⟩
  have hkey (after : UnitTree) (loads : List Reading) :
      QueuedClass.key (analysis after loads).cls = (unit, number) := by
    show (unit, type.place) = _
    rw [hplace]
  have hstands (after : UnitTree) (loads : List Reading)
      (hafter : typeSymbol after = typeSymbol e'.tree) :
      (analysis after loads).Stands (entries rs) := by
    refine ⟨e, he, congrArg CompilationUnit.name halike.unit, ?_⟩
    simp only [analysis, List.forall_mem_cons, List.not_mem_nil, false_implies, implies_true,
      and_true, hplace]
    exact ⟨htype, htype', by rw [hafter, htype']⟩
  have hstarted := told_told s (.started event)
  have hqueues := h.told hstarted
  have hrun : (analyse bound unit number).run.run s = (do
      let tree ← analyseTop bound unit number e'.tree
      finished { event with unit := some tree }
      return some (QueuedClass.mk unit e'.unit.name type) : SessionM σ (Option QueuedClass)).run.run
        (told s (.started event)) := by
    unfold analyse
    rw [run_get_bind, he']
    simp only [htype']
    rw [run_bind_ok (run_started_eq s event)]
    rfl
  rw [hrun, analyseTop_eq hdecl]
  have hmoves : Moves Loading Breaks (told s (.started event))
      (analyseDecl bound unit number e'.tree decl) _ := moves_analyseDecl lookups_loading
  rcases hdecl' : (analyseDecl bound unit number e'.tree decl).run.run (told s (.started event))
    with ⟨fault | r, u⟩
  · obtain ⟨v, hloading, hbreaks⟩ := hmoves.faults hdecl'
    obtain ⟨loads, hloads⟩ := hloading.loads hqueues.placed
    have htells := hstarted.tells.trans hloads.tells
    have hextends := hstarted.toExtends.trans hloads.toExtends
    have hfiles := hloads.files.trans hstarted.files
    have hnew := hloads.unread.mono hstarted.uris
    rcases hbreaks with hsilent | ⟨unread, hunread, htold⟩
    · refine ⟨analysis e'.tree loads, .error fault, u, run_bind_error (run_bind_error hdecl'),
        .breaks fault (.started event :: loads.flatMap Reading.loading) ?_ ?_, hkey _ _,
        hstands _ _ rfl, hnew, (hqueues.loads hloads).told hsilent, hsilent.files.trans hfiles,
        (hextends.trans hsilent.toExtends).replaces _⟩
      · have hall := htells.trans hsilent.tells
        rwa [List.append_nil] at hall
      · exact List.prefix_refl _
    · refine ⟨analysis e'.tree (loads ++ [⟨unread, none⟩]), .error fault, u,
        run_bind_error (run_bind_error hdecl'),
        .breaks fault (.started event :: (loads.flatMap Reading.loading ++
          [.started { phase := .parse, source := unread.name }])) ?_ ?_,
        hkey _ _, hstands _ _ rfl, ?_, ?_, htold.files.trans hfiles,
        (hextends.trans htold.toExtends).replaces _⟩
      · have hall := htells.trans htold.tells
        rwa [List.append_assoc] at hall
      · refine List.cons_prefix_cons.mpr ⟨rfl, ?_⟩
        rw [List.flatMap_append, List.prefix_append_right_inj]
        exact ⟨_, rfl⟩
      · exact hnew.append (.singleton hunread)
          (List.Subset.trans hstarted.uris hloads.toExtends.uris) hloads.filed
      · rw [← List.append_assoc]
        exact ((hqueues.loads hloads).told htold).unread unread
  · obtain ⟨hloading, hname⟩ := hmoves.answers hdecl'
    obtain ⟨loads, hloads⟩ := hloading.loads hqueues.placed
    -- What is left is to put the tree into its place, if it is new, and to tell the listener.
    have hu : u.sources[unit]? = some e' := by
      have hsource := hloads.toExtends.source (hstarted.toExtends.source he')
      exact hsource
    have hend {after : UnitTree} {v : Session σ} (hafter : typeSymbol after = typeSymbol e'.tree)
        (hputs : u.Tells [] v) (hv : v.Queues names (done ++ [(unit, number)]) (rs ++ loads))
        (hfiles : v.files = u.files) (hreplaces : u.Replaces (unit, number) v)
        (hshows : v.sources[unit]? = some { e' with tree := after }) :
        Analyses s (analysis after loads) (.ok (some ⟨unit, e'.unit.name, type⟩))
          (told v (.finished { event with unit := some after })) ∧
        QueuedClass.key (analysis after loads).cls = (unit, number) ∧
        (analysis after loads).Stands (entries rs) ∧ Reading.AllNew s.loaded loads ∧
        (told v (.finished { event with unit := some after })).Queues names
          (done ++ [(unit, number)]) (rs ++ loads) ∧
        (told v (.finished { event with unit := some after })).files = s.files ∧
        s.Replaces (unit, number) (told v (.finished { event with unit := some after })) := by
      have hfinished := told_told v (.finished { event with unit := some after })
      refine ⟨.ends ?_ (hstarted.files ▸ hloads.faithful) ?_, hkey _ _, hstands _ _ hafter,
        hloads.unread.mono hstarted.uris, hv.told hfinished, ?_, ?_⟩
      · have hall := (hstarted.tells.trans (hloads.tells.trans hputs)).trans hfinished.tells
        rwa [List.append_nil] at hall
      · exact ⟨_, hfinished.toExtends.source hshows, rfl, rfl, rfl, rfl⟩
      · rw [hfinished.files, hfiles, hloads.files, hstarted.files]
      · have hloaded := hstarted.toExtends.trans hloads.toExtends
        exact ((hloaded.replaces _).trans hreplaces).trans (hfinished.toExtends.replaces _)
    cases r with
    | none =>
        refine ⟨analysis e'.tree loads, _, _, ?_, hend rfl (.refl u) (hqueues.loads hloads) rfl
          ((Extends.refl u).replaces _) hu⟩
        rw [run_bind_ok ((run_bind_ok hdecl').trans rfl), run_bind_ok (run_finished_eq u _)]
        rfl
    | some decl' =>
        have hset := typeSymbol_set hdecl (hname decl' rfl)
        refine ⟨analysis { e'.tree with types := e'.tree.types.set number decl' } loads, _, _, ?_,
          hend (v := u.withTree unit _) hset (.of_log rfl rfl rfl ⟨[], rfl⟩)
            ((hqueues.loads hloads).withTree hu hset) rfl (replaces_withTree hu)
            (by rw [source_withTree hu, if_pos rfl])⟩
        rw [run_bind_ok ((run_bind_ok hdecl').trans rfl), run_bind_ok (run_finished_eq _ _)]
        rfl

end SessionM

end ProbeLang
