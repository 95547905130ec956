import ProbeLang.Proofs.Analysis.Coinciding
import ProbeLang.Proofs.Analysis.Lookup
import ProbeLang.Proofs.Task.Refusals

/-!
# Looking names up ends

Loading a class with its superclasses may complete these, which may load other classes, and so on.
Each class that is completed is marked first, and only so many classes can be found in all: those
that are known and those that files give. So completions nest no deeper than that number and no
chain is longer, and bounds that are larger change nothing (`Session.lookups_end`). A class is
completed at most once (`SessionM.complete_once`).

What may go on for ever is the way outwards through the classes around one from source, since the
class around one that is known from an artifact may be any. There is no other fault than that and
those of files.
-/

namespace ProbeLang

open SessionM

namespace Session

variable {σ : Type} {s t : Session σ} {names : List String} {n : Nat}

/-! ## What is left to be completed -/

theorem Completed.of_extends {cls : String} (h : s.Completed cls) (hst : s.Extends t) :
    t.Completed cls :=
  have ⟨_, hc, hcompleted⟩ := h
  hst.completed hc hcompleted

/-- The classes among some names that have not been completed yet. -/
def unfinished (s : Session σ) (names : List String) : Finset String :=
  names.toFinset.filter fun name => (s.symbols.find? name).any ClassSymbol.completed = false

theorem mem_unfinished {cls : String} :
    cls ∈ s.unfinished names ↔ cls ∈ names ∧ ¬ s.Completed cls := by
  rw [unfinished, Finset.mem_filter, List.mem_toFinset, ← Bool.not_eq_true, Option.any_eq_true]
  rfl

theorem unfinished_subset (h : s.Extends t) (names : List String) :
    t.unfinished names ⊆ s.unfinished names := by
  intro name hmem
  obtain ⟨hname, hnot⟩ := mem_unfinished.mp hmem
  exact mem_unfinished.mpr ⟨hname, fun hcompleted => hnot (hcompleted.of_extends h)⟩

/-- Whether a session knows and finds no classes but those of some names, and has completed all but
so many of them. -/
structure Outstanding (s : Session σ) (names : List String) (n : Nat) : Prop where
  placed : s.Placed
  within : s.symbols.names ++ s.findable ⊆ names
  left : (s.unfinished names).card ≤ n

namespace Outstanding

theorem of_loading (h : s.Outstanding names n) (hst : s.Loading t) : t.Outstanding names n := by
  obtain ⟨rs, hloads⟩ := hst.loads h.placed
  refine ⟨hloads.placed, ?_,
    Nat.le_trans (Finset.card_le_card (unfinished_subset hst.ext names)) h.left⟩
  rw [hst.ext.findable]
  exact List.append_subset.mpr ⟨List.Subset.trans hloads.within h.within,
    List.Subset.trans (List.subset_append_right _ _) h.within⟩

theorem mono {n' : Nat} (h : s.Outstanding names n) (hn : n ≤ n') : s.Outstanding names n' :=
  ⟨h.placed, h.within, Nat.le_trans h.left hn⟩

theorem mem_names (h : s.Outstanding names n) {cls : String} (hcls : s.symbols.has cls = true) :
    cls ∈ names :=
  h.within (List.mem_append_left _ (Table.has_iff_mem_names.mp hcls))

/-- Marking a class leaves fewer to be completed. -/
theorem mark (h : s.Outstanding names n) {cls : String} (hcls : s.FromSource cls)
    (hopen : ¬ s.Completed cls) : ∃ k < n, (markCompleted s cls).Outstanding names k := by
  have hloading := lookups_loading.mark hcls
  have hmarked := h.of_loading hloading
  obtain ⟨c, hc, -⟩ := hcls
  have hcompleted : (markCompleted s cls).Completed cls := ⟨_, find?_marked hc, rfl⟩
  have hmem : cls ∈ s.unfinished names :=
    mem_unfinished.mpr ⟨h.mem_names (Table.has_eq_true.mpr ⟨c, hc⟩), hopen⟩
  have hless : ((markCompleted s cls).unfinished names).card < (s.unfinished names).card := by
    refine Finset.card_lt_card ((Finset.ssubset_iff_of_subset ?_).mpr ⟨cls, hmem, fun hmem' => ?_⟩)
    · exact unfinished_subset hloading.ext names
    · exact (mem_unfinished.mp hmem').2 hcompleted
  exact ⟨_, Nat.lt_of_lt_of_le hless h.left, hmarked.placed, hmarked.within, Nat.le_refl _⟩

end Outstanding

end Session

namespace SessionM

open Session

variable {σ α : Type} {s : Session σ} {names : List String} {n : Nat}

/-! ## Large bounds -/

/-- Completing a class is the same with two functions that load the same superclasses once a class
has been marked. -/
theorem coincide_complete {chain chain' : String → SessionM σ (List String)}
    (hmoves : ∀ (cls : String) {s : Session σ}, Moves Loading Breaks s (chain cls) fun _ _ => True)
    (hsame : ∀ k < n, ∀ (cls : String) {s : Session σ}, s.Outstanding names k →
      Coincide (Outstanding · names k) s (chain cls) (chain' cls))
    (cls : String) (hs : s.Outstanding names n) :
    Coincide (Outstanding · names n) s (complete chain cls) (complete chain' cls) := by
  rcases complete_cases cls s with ⟨-, hrun⟩ | ⟨c, hc, hsource, hopen, unit, place, hrun⟩
  · exact .after (hrun chain) (hrun chain') (.pure hs ())
  · have hcls : s.FromSource cls := ⟨c, hc, hsource⟩
    obtain ⟨k, hk, hmarked⟩ := hs.mark hcls fun ⟨c', hc', hcompleted⟩ => by
      cases hc.symm.trans hc'
      exact Bool.false_ne_true (hopen.symm.trans hcompleted)
    refine .after (hrun chain) (hrun chain') (.get ?_)
    refine Coincide.mono (P := (Outstanding · names k)) ?_ fun h => h.mono (Nat.le_of_lt hk)
    have hadmits (tree : UnitTree) (classes : List String) :
        (NameScope.ofTree chain tree classes).Admits Loading Breaks (Outstanding · names k)
          chain' :=
      ⟨⟨lookups_loading.toSearches, hmoves⟩, Outstanding.of_loading, hsame k hk⟩
    split
    · split
      · split
        · exact NameScope.coincide_completeMembers (hadmits _ _) lookups_loading
            (hcls.of_extends (extends_markCompleted hcls)) _ hmarked
        · exact .pure hmarked _
      · exact .pure hmarked _
    · exact .throw _

theorem coincide_chainBehind {complete complete' : String → SessionM σ Unit}
    (hsame : ∀ (cls : String) {s : Session σ}, s.Outstanding names n →
      Coincide (Outstanding · names n) s (complete cls) (complete' cls)) :
    ∀ (fuel fuel' : Nat) {done : List String} (cls : String) {s : Session σ}, done.Nodup →
      done ⊆ names → names.length < done.length + fuel → names.length < done.length + fuel' →
      s.Outstanding names n → Coincide (Outstanding · names n) s
        (chainBehind complete fuel done cls) (chainBehind complete' fuel' done cls)
  | 0, _, done, _, _, hnodup, hdone, hfuel, _, _ => by
      have hle := hnodup.length_le_of_subset hdone
      omega
  | _ + 1, 0, done, _, _, hnodup, hdone, _, hfuel', _ => by
      have hle := hnodup.length_le_of_subset hdone
      omega
  | fuel + 1, fuel' + 1, done, cls, s, hnodup, hdone, hfuel, hfuel', hs => by
      unfold chainBehind
      split
      · exact .pure hs _
      · next hnew =>
          refine (Coincide.of_moves hs.of_loading (loads_findClass cls)).bind
            fun found t hrun ht => ?_
          split
          · next hfound =>
              have hcls : cls ∈ names :=
                ht.mem_names (((loads_findClass cls).answers hrun).2 hfound)
              refine (hsame cls ht).bind fun _ u _ hu => .get ?_
              split
              · refine coincide_chainBehind hsame fuel fuel' _ ?_ ?_ ?_ ?_ hu
                · exact List.nodup_cons.mpr ⟨mt List.contains_iff_mem.mpr hnew, hnodup⟩
                · exact List.cons_subset.mpr ⟨hcls, hdone⟩
                · rw [List.length_cons]
                  omega
                · rw [List.length_cons]
                  omega
              · exact .pure hu _
          · exact .pure ht _

/-- Chains are loaded in the same way with all bounds that are large enough: on their length, and on
the depth of completions. -/
theorem coincide_loadChain {bound bound' : Nat} (hbound : names.length < bound)
    (hbound' : names.length < bound') {n depth depth' : Nat} (hdepth : n < depth)
    (hdepth' : n < depth') (cls : String) {s : Session σ} (hs : s.Outstanding names n) :
    Coincide (Outstanding · names n) s (loadChain bound depth cls)
      (loadChain bound' depth' cls) := by
  induction n using Nat.strong_induction_on generalizing depth depth' cls s with
  | _ n ih =>
      obtain ⟨depth, rfl⟩ := Nat.exists_eq_add_of_lt hdepth
      obtain ⟨depth', rfl⟩ := Nat.exists_eq_add_of_lt hdepth'
      refine coincide_chainBehind
        (fun cls {s} hs => coincide_complete ?_ (fun k hk cls {s} hs => ?_) cls hs)
        bound bound' cls List.nodup_nil (List.nil_subset _) ?_ ?_ hs
      · exact moves_loadChain lookups_loading bound _
      · exact ih k hk (by omega) (by omega) cls hs
      · rwa [List.length_nil, Nat.zero_add]
      · rwa [List.length_nil, Nat.zero_add]

end SessionM

/-! ## Ends -/

namespace Session

variable {σ α : Type} {s : Session σ} {names : List String}

/-- Whether a session has met the fault of a file, or a class from source outwards of which the
classes go on for ever. -/
def Stalls (e : TaskFault) (s t : Session σ) : Prop :=
  (∃ fault, e = .io fault) ∨
    e = .endless ∧ t = s ∧ ∃ cls, s.FromSource cls ∧ s.symbols.Endless cls

/-- Whether a step that is given bounds ends: with all bounds beyond a limit it does the same, and
either it gives an answer, or it meets the fault of a file or classes that go on for ever. -/
def Ends (s : Session σ) (limit : Nat) (m : Nat → Nat → SessionM σ α) : Prop :=
  ∃ r t, (∀ bound depth, limit < bound → limit < depth → (m bound depth).run.run s = (r, t)) ∧
    ∀ e, r = .error e → (∃ fault, e = .io fault) ∨
      e = .endless ∧ ∃ cls, t.FromSource cls ∧ t.symbols.Endless cls

theorem lookups_stalling : Lookups (σ := σ) Loading Stalls where
  ext := lookups_loading.ext
  quiet := lookups_loading.quiet
  find name _ := by
    refine ⟨(lookups_loading.find name).answers, fun hrun => ?_⟩
    obtain ⟨u, hsu, -⟩ := (lookups_loading.find name).faults hrun
    obtain ⟨_, -, hfails⟩ := (rests_findClass name).faults hrun
    exact ⟨u, hsu, .inl hfails.io⟩
  mark := lookups_loading.mark
  complete := lookups_loading.complete
  endless hcls hendless := .inr ⟨rfl, rfl, _, hcls, hendless⟩

theorem Ends.of_coincide {m : Nat → Nat → SessionM σ α}
    (hsame : ∀ {bound depth bound' depth' : Nat}, names.length < bound → names.length < depth →
      names.length < bound' → names.length < depth' →
        Coincide (Outstanding · names names.length) s (m bound depth) (m bound' depth'))
    (hmoves : ∀ bound depth, Moves Loading Stalls s (m bound depth) fun _ _ => True) :
    s.Ends names.length m := by
  let large := names.length + 1
  rcases hrun : (m large large).run.run s with ⟨r, t⟩
  refine ⟨r, t, fun bound depth hbound hdepth => ?_, fun e he => ?_⟩
  · rw [← hrun]
    exact (hsame hbound hdepth (Nat.lt_succ_self _) (Nat.lt_succ_self _)).same
  · rw [he] at hrun
    obtain ⟨u, -, hio | ⟨rfl, rfl, hendless⟩⟩ := (hmoves large large).faults hrun
    · exact .inl hio
    · exact .inr ⟨rfl, hendless⟩

/-- Whether finding out what a name means, and completing classes, ends. -/
structure LookupsEnd (s : Session σ) (limit : Nat) : Prop where
  findClass : ∀ name, s.Ends limit fun _ _ => SessionM.findClass name
  complete : ∀ cls, s.Ends limit fun bound depth => SessionM.complete (loadChain bound depth) cls
  loadChain : ∀ cls, s.Ends limit fun bound depth => SessionM.loadChain bound depth cls
  memberType : ∀ (ns : NameScope σ) (cls simple : String), s.Ends limit fun bound depth =>
    (ns.withChain (SessionM.loadChain bound depth)).memberType cls simple
  lookupQualified : ∀ (ns : NameScope σ) (segments : List String), s.Ends limit fun bound depth =>
    (ns.withChain (SessionM.loadChain bound depth)).lookupQualified segments
  resolveSimple : ∀ (ns : NameScope σ) (simple : String), s.Ends limit fun bound depth =>
    (ns.withChain (SessionM.loadChain bound depth)).resolveSimple simple
  resolveType : ∀ (ns : NameScope σ) (type : TypeRef), s.Ends limit fun bound depth =>
    (ns.withChain (SessionM.loadChain bound depth)).resolveType type

theorem Ends.of_scope {m : NameScope σ → SessionM σ α} {Q : α → Session σ → Prop}
    (hsame : ∀ {ns : NameScope σ} {other : String → SessionM σ (List String)},
      ns.Admits Loading Breaks (Outstanding · names names.length) other →
        Coincide (Outstanding · names names.length) s (m ns) (m (ns.withChain other)))
    (hmoves : ∀ {ns : NameScope σ}, ns.Within Loading Stalls → Moves Loading Stalls s (m ns) Q)
    (ns : NameScope σ) :
    s.Ends names.length fun bound depth => m (ns.withChain (SessionM.loadChain bound depth)) := by
  refine .of_coincide (fun {bound depth bound' depth'} hbound hdepth hbound' hdepth' => ?_)
    fun bound depth => ?_
  · have hadmits : (ns.withChain (SessionM.loadChain bound depth)).Admits Loading Breaks
        (Outstanding · names names.length) (SessionM.loadChain bound' depth') :=
      ⟨⟨lookups_loading.toSearches, moves_loadChain lookups_loading bound depth⟩,
        Outstanding.of_loading,
        fun cls _ hs => coincide_loadChain hbound hbound' hdepth hdepth' cls hs⟩
    exact hsame hadmits
  · have hwithin : (ns.withChain (SessionM.loadChain bound depth)).Within Loading Stalls :=
      ⟨lookups_stalling.toSearches, moves_loadChain lookups_stalling bound depth⟩
    exact (hmoves hwithin).weaken

theorem Outstanding.lookupsEnd (h : s.Outstanding names names.length) :
    s.LookupsEnd names.length where
  findClass name := by
    refine .of_coincide (fun _ _ _ _ => ?_) fun _ _ => (lookups_stalling.find name).weaken
    exact .of_moves h.of_loading (loads_findClass name)
  complete cls := by
    refine .of_coincide (fun hbound hdepth hbound' hdepth' => ?_) fun bound depth =>
      moves_complete lookups_stalling (moves_loadChain lookups_stalling bound depth) cls
    exact coincide_complete (moves_loadChain lookups_loading _ _) (fun k hk cls _ hs =>
      coincide_loadChain hbound hbound' (Nat.lt_trans hk hdepth) (Nat.lt_trans hk hdepth') cls hs)
      cls h
  loadChain cls := by
    refine .of_coincide (fun hbound hdepth hbound' hdepth' => ?_) fun bound depth =>
      moves_loadChain lookups_stalling bound depth cls
    exact coincide_loadChain hbound hbound' hdepth hdepth' cls h
  memberType ns cls simple :=
    .of_scope (fun hns => NameScope.coincide_memberType hns cls simple h)
      (fun hns => NameScope.moves_memberType hns cls simple) ns
  lookupQualified ns segments :=
    .of_scope (fun hns => NameScope.coincide_lookupQualified hns segments h)
      (fun hns => NameScope.moves_lookupQualified hns segments) ns
  resolveSimple ns simple :=
    .of_scope (fun hns => NameScope.coincide_resolveSimple hns simple h)
      (fun hns => NameScope.moves_resolveSimple hns simple) ns
  resolveType ns type :=
    .of_scope (fun hns => NameScope.coincide_resolveType hns type h)
      (fun hns => NameScope.moves_resolveType hns type) ns

/-- Whatever classes inherit from each other, import each other and stand in each other, and
whatever is in artifacts, finding out what a name means ends. What a task takes for bounds once its
units have been entered is large enough in every session that the analysis may lead to. -/
theorem lookups_end (hs : s.Placed) :
    ∃ limit < s.classBound, ∀ {t : Session σ}, s.Loading t → t.LookupsEnd limit := by
  let names := s.symbols.names ++ s.findable
  have hs' : s.Outstanding names names.length :=
    ⟨hs, List.Subset.refl _,
      Nat.le_trans (Finset.card_filter_le _ _) names.toFinset_card_le⟩
  refine ⟨names.length, ?_, fun hst => (hs'.of_loading hst).lookupsEnd⟩
  have hlength : names.length = s.symbols.length + s.findable.length := by
    rw [List.length_append, Table.names, List.length_map]
  exact hlength ▸ s.length_findable_lt

end Session

/-- A class that stands in itself, as an artifact has it. -/
def circleFile : ClassFile where
  target := .latest
  flags := 0
  name := "A$B"
  superclass := none
  outer := some "A$B"
  nested := ["A$B$C"]
  fields := []
  methods := []
  pool := .empty

/-- A directory with the artifact, and with a source whose class `A$B$C` comes to stand in it. -/
def circleFiles : FileTree :=
  let text := "class D {} class A { class B { class C {} } }".toList.map fun c => c.toNat.toUInt8
  ⟨[(["lib"], .dir), (["lib", "A$B.class"], .file (circleFile.encode.toOption.getD [])),
    (["lib", "D.probe"], .file text)], ""⟩

/-- A task that uses the artifact, the source and then the class. -/
def circleTask : CompilationTask Unit where
  options := { sourcePath := some ["lib"], classPath := some ["lib"] }
  units := [⟨"W", .source, "W", .text "class W { A$B b; D d; } class V extends A.B.C {}"⟩]

-- The classes around `A$B$C` are `A$B` again and again.
example : (circleTask.call (circleTask.session circleFiles (.inMemory none) ())).1 =
    .error .endless := by
  decide +kernel

/-! ## Once -/

namespace SessionM

open Session

variable {σ : Type} {s : Session σ}

/-- However the loading of units ends, nothing is forgotten. -/
theorem Moves.extends {α : Type} {m : SessionM σ α} {Q : α → Session σ → Prop}
    {r : Except TaskFault α} {t : Session σ} (h : Moves Loading Breaks s m Q)
    (hrun : m.run.run s = (r, t)) : s.Extends t := by
  cases r with
  | ok a => exact (h.answers hrun).1.ext
  | error e =>
      obtain ⟨u, hsu, hsilent | ⟨_, -, htold⟩⟩ := h.faults hrun
      · exact hsu.ext.trans hsilent.toExtends
      · exact hsu.ext.trans htold.toExtends

/-- Completing a class leaves a session as it is, or marks the class, which has not been completed,
and goes on from there. In the sessions that it leads to, and in all behind them, completing the
class once more changes nothing. -/
theorem complete_once (bound depth : Nat) (cls : String) (s : Session σ) :
    (complete (loadChain bound depth) cls).run.run s = (.ok (), s) ∨
      ¬ s.Completed cls ∧ ∃ unit place r t,
        (complete (loadChain bound depth) cls).run.run s = (r, t) ∧
        (completeMarked (loadChain bound depth) cls unit place).run.run (markCompleted s cls) =
          (r, t) ∧
        (markCompleted s cls).Extends t ∧
        ∀ (chain : String → SessionM σ (List String)) (u : Session σ),
          (markCompleted s cls).Extends u → (complete chain cls).run.run u = (.ok (), u) := by
  rcases complete_cases cls s with ⟨-, hrun⟩ | ⟨c, hc, hsource, hopen, unit, place, hrun⟩
  · exact .inl (hrun _)
  · right
    have hcls : s.FromSource cls := ⟨c, hc, hsource⟩
    have hmarked := hcls.of_extends (extends_markCompleted hcls)
    have hmoves := moves_completeMarked lookups_loading
      (moves_loadChain lookups_loading bound depth) hmarked unit place
    refine ⟨?_, unit, place, _, _, rfl, (hrun _).symm, hmoves.extends (hrun _).symm,
      fun chain u hu => ?_⟩
    · rintro ⟨c', hc', hcompleted⟩
      cases hc.symm.trans hc'
      exact Bool.false_ne_true (hopen.symm.trans hcompleted)
    · obtain ⟨c', hc', hcompleted⟩ := hu.completed (find?_marked hc) rfl
      exact run_complete hc' hcompleted

end SessionM

end ProbeLang
