import Mathlib.Data.List.Perm.Subperm
import ProbeLang.Proofs.Session.Distinct
import ProbeLang.Proofs.Session.Plain
import ProbeLang.Proofs.Task.Persistence

/-!
# The queue of classes

Analysing the class at the head of the queue keeps a session ready for the next one
(`Session.Ready`): what has been analysed is fit for code, what has not been is as the parser left
it, and both together are all top-level classes, in the order in which their units were entered.
Classes that are loaded on the way are queued behind. All of them have different names, so there
are no more of them than names that can be found, and the queue is empty before the bound on its
length is reached.
-/

namespace ProbeLang

open SessionM

/-! ## Numbers of top-level classes -/

theorem mem_topClasses : ∀ {es : List SourceEntry} {first unit number : Nat},
    (unit, number) ∈ topClasses first es ↔ ∃ (i : Nat) (e : SourceEntry), es[i]? = some e ∧
      unit = first + i ∧ number < e.tree.types.length
  | [], first, unit, number => by simp [topClasses]
  | e :: rest, first, unit, number => by
      rw [topClasses, List.mem_append, mem_topClasses]
      constructor
      · rintro (h | ⟨i, e', he', hunit, hlt⟩)
        · obtain ⟨n, hn, heq⟩ := List.mem_map.mp h
          cases heq
          exact ⟨0, e, rfl, rfl, List.mem_range.mp hn⟩
        · exact ⟨i + 1, e', he', by omega, hlt⟩
      · rintro ⟨_ | i, e', he', hunit, hlt⟩
        · cases he'
          refine .inl (List.mem_map.mpr ⟨number, List.mem_range.mpr hlt, ?_⟩)
          rw [hunit, Nat.add_zero]
        · exact .inr ⟨i, e', he', by omega, hlt⟩

theorem nodup_topClasses (first : Nat) (es : List SourceEntry) : (topClasses first es).Nodup := by
  induction es generalizing first with
  | nil => exact List.nodup_nil
  | cons e rest ih =>
      refine List.Nodup.append ?_ (ih (first + 1)) fun p hp hp' => ?_
      · exact List.nodup_range.map fun i j h => (Prod.mk.inj h).2
      · obtain ⟨n, -, rfl⟩ := List.mem_map.mp hp
        obtain ⟨i, e', -, hunit, -⟩ := mem_topClasses.mp hp'
        omega

theorem topClasses_congr : ∀ {es es' : List SourceEntry} (first : Nat),
    es.map (fun e => e.tree.types.length) = es'.map (fun e => e.tree.types.length) →
      topClasses first es = topClasses first es'
  | [], [], _, _ => rfl
  | e :: es, e' :: es', first, h => by
      obtain ⟨hlength, hrest⟩ := List.cons.inj h
      dsimp only at hlength
      rw [topClasses, topClasses, hlength, topClasses_congr (first + 1) hrest]

/-! ## Sessions that are ready -/

/-- Where a class of the queue stands. -/
def QueuedClass.key (q : QueuedClass) : Nat × Nat :=
  (q.unit, q.type.place)

/-- Whether a listener has seen an analysed class without an error being reported. -/
def TaskListener.Passes {σ : Type} (l : TaskListener σ) (decl : ClassDecl) : Prop :=
  ∃ (e : TaskEvent) (state : σ) (log : Log), e.phase = .analyze ∧ e.decl? = some decl ∧
    (l.finished e state log).2.errors = 0

namespace Session

variable {σ : Type} {s t : Session σ}

/-- Whether a top-level class has been analysed. -/
structure HasAnalysed (s : Session σ) (cls : String) (decl : ClassDecl) : Prop where
  fit : decl.Fit
  concludes : decl.Concludes
  inScope : decl.Scoped
  uses : s.Plain → decl.Uses
  signed : ∀ name ∈ decl.binaryNames cls, s.Signed name
  passes : ∀ l, s.listener = some l → l.Passes decl

/-- Whether a session is in the middle of its queue, given the names that classes can have, the
classes that have been analysed, last first, and those that have been taken out of the queue. -/
structure Ready (s : Session σ) (names : List String) (done : List QueuedClass)
    (current : List (Nat × Nat)) : Prop where
  sound : s.Sound
  settled : s.Settled
  queue : done.reverse.map QueuedClass.key ++ (current ++ s.todo) = topClasses 0 s.sources
  named : ∀ q ∈ done, ∃ e, s.sources[q.unit]? = some e ∧ q.source = e.unit.name ∧
    typeSymbol e.tree q.type.place = some q.type
  loadable : s.loadable ⊆ names
  bounded : ∀ e ∈ s.sources, e.tree.binaryNames ⊆ names
  reads : ∀ e ∈ s.sources, e.Reads s.files
  parsed : ∀ {unit number : Nat} {e : SourceEntry} {decl : ClassDecl},
    (unit, number) ∈ current ++ s.todo → s.sources[unit]? = some e →
      e.tree.types[number]? = some decl → decl.Parsed
  analysed : ∀ {unit number : Nat} {e : SourceEntry} {decl : ClassDecl},
    (unit, number) ∉ current ++ s.todo → s.sources[unit]? = some e →
      e.tree.types[number]? = some decl → s.HasAnalysed (e.tree.binaryName decl) decl

theorem HasAnalysed.of_extends {cls : String} {decl : ClassDecl} (h : s.HasAnalysed cls decl)
    (hst : s.Extends t) : t.HasAnalysed cls decl where
  fit := h.fit
  concludes := h.concludes
  inScope := h.inScope
  uses ht := h.uses (ht.of_extends hst)
  signed name hname := (h.signed name hname).of_extends hst
  passes l hl := h.passes l (hst.listener ▸ hl)

/-- No more classes have been analysed than there are names. -/
theorem Ready.length_le {names : List String} {done : List QueuedClass}
    (h : s.Ready names done []) : done.length + s.todo.length ≤ names.length := by
  have hlength := congrArg List.length h.queue
  simp only [List.length_append, List.length_map, List.length_reverse, List.nil_append] at hlength
  rw [hlength]
  refine Nat.le_trans (length_topClasses_le 0 s.sources) ?_
  refine (h.sound.nodup_names.subperm fun name hname => ?_).length_le
  obtain ⟨e, he, hname⟩ := List.mem_flatMap.mp hname
  exact h.bounded e he hname

end Session

/-! ## Analysing a class -/

theorem typeSymbol_of_skeleton {tree tree' : UnitTree} (h : tree'.skeleton = tree.skeleton)
    (number : Nat) : typeSymbol tree' number = typeSymbol tree number := by
  have htypes (u : UnitTree) : typeSymbol u number = typeSymbol u.skeleton number := by
    unfold typeSymbol UnitTree.skeleton
    dsimp only
    rw [List.getElem?_map, Option.map_map]
    refine congrFun (congrArg _ (funext fun decl => ?_)) _
    simp [Function.comp, UnitTree.binaryName, UnitTree.packageName?]
  rw [htypes, h, ← htypes]

theorem length_types_of_skeleton {tree tree' : UnitTree} (h : tree'.skeleton = tree.skeleton) :
    tree'.types.length = tree.types.length := by
  have hlength (u : UnitTree) : u.types.length = u.skeleton.types.length :=
    (List.length_map _).symm
  rw [hlength, h, ← hlength]

namespace Session

variable {σ : Type} {s t : Session σ} {names : List String} {done : List QueuedClass}
  {unit number : Nat} {rest : List (Nat × Nat)} {e : SourceEntry} {decl decl' : ClassDecl}

/-- Taking a class out of the queue. -/
theorem Ready.pop (h : s.Ready names done []) (htodo : s.todo = (unit, number) :: rest) :
    Ready { s with todo := rest } names done [(unit, number)] where
  sound := h.sound.of_eq rfl rfl
  settled := h.settled
  queue := by
    have hqueue := h.queue
    rwa [htodo] at hqueue
  named := h.named
  loadable := h.loadable
  bounded := h.bounded
  reads := h.reads
  parsed hp := h.parsed (by rwa [htodo])
  analysed hp he hdecl := by
    have hanalysed := h.analysed (by rwa [htodo]) he hdecl
    exact ⟨hanalysed.fit, hanalysed.concludes, hanalysed.inScope,
      fun ht => hanalysed.uses ⟨ht.origin, ht.params, ht.reads⟩, hanalysed.signed, hanalysed.passes⟩

/-- Classes that are loaded are queued behind the others, as the parser left them. -/
theorem Ready.grow {current : List (Nat × Nat)} (h : s.Ready names done current)
    (hst : s.Grows t) (hadvances : s.Advances t) : t.Ready names done current := by
  obtain ⟨more, hmore⟩ := hst.sources
  have hdrop : t.sources.drop s.sources.length = more := by rw [← hmore, List.drop_left]
  have htodo : t.todo = s.todo ++ topClasses s.sources.length more := by
    rw [hadvances.todo, hdrop]
  have hloaded : ∀ e ∈ more, e.Loaded s := hdrop ▸ hst.loaded
  have hold {i : Nat} (hi : i < s.sources.length) : t.sources[i]? = s.sources[i]? := by
    rw [← hmore, List.getElem?_append_left hi]
  constructor
  · exact hadvances.sound
  · exact h.settled.of_advances hadvances
  · rw [htodo, ← hmore, topClasses_append, ← h.queue, Nat.zero_add]
    simp only [List.append_assoc]
  · intro q hq
    obtain ⟨e, he, hnamed⟩ := h.named q hq
    exact ⟨e, hst.source he, hnamed⟩
  · exact hst.loadable ▸ h.loadable
  · intro e he
    rw [← hmore] at he
    rcases List.mem_append.mp he with he | he
    · exact h.bounded e he
    · exact List.Subset.trans (hloaded e he).loadable h.loadable
  · intro e he
    rw [hst.files]
    rw [← hmore] at he
    rcases List.mem_append.mp he with he | he
    · exact h.reads e he
    · exact ⟨e.tree, (hloaded e he).parsed, rfl⟩
  · intro unit number e decl hp he hdecl
    rw [htodo, ← List.append_assoc] at hp
    by_cases hi : unit < s.sources.length
    · rcases List.mem_append.mp hp with hp | hp
      · exact h.parsed hp (hold hi ▸ he) hdecl
      · obtain ⟨i, -, -, hunit, -⟩ := mem_topClasses.mp hp
        omega
    · rw [← hmore, List.getElem?_append_right (Nat.le_of_not_lt hi)] at he
      obtain ⟨text, -, hparse⟩ := (hloaded e (List.mem_of_getElem? he)).parsed
      exact (UnitTree.parsed_of_parse hparse).types decl (List.mem_of_getElem? hdecl)
  · intro unit number e decl hp he hdecl
    rw [htodo, ← List.append_assoc, List.mem_append, not_or] at hp
    by_cases hi : unit < s.sources.length
    · exact (h.analysed hp.1 (hold hi ▸ he) hdecl).of_extends hst.toExtends
    · refine absurd (mem_topClasses.mpr ⟨unit - s.sources.length, e, ?_, by omega, ?_⟩) hp.2
      · rwa [← hmore, List.getElem?_append_right (Nat.le_of_not_lt hi)] at he
      · exact (List.getElem?_eq_some_iff.mp hdecl).1

/-- The class that has been taken out of the queue is one of a unit, and is queued once. -/
theorem Ready.current (h : s.Ready names done [(unit, number)]) :
    (unit, number) ∉ s.todo ∧ ∃ e decl, s.sources[unit]? = some e ∧
      e.tree.types[number]? = some decl := by
  have hnodup := nodup_topClasses 0 s.sources
  rw [← h.queue] at hnodup
  refine ⟨(List.nodup_cons.mp (List.nodup_append.mp hnodup).2.1).1, ?_⟩
  have hmem : (unit, number) ∈ topClasses 0 s.sources := by
    rw [← h.queue]
    exact List.mem_append_right _ List.mem_cons_self
  obtain ⟨i, e, he, hunit, hlt⟩ := mem_topClasses.mp hmem
  rw [Nat.zero_add] at hunit
  subst hunit
  exact ⟨e, _, he, List.getElem?_eq_getElem hlt⟩

theorem binaryName_of_skeleton {tree tree' : UnitTree} {decl decl' : ClassDecl}
    (h : tree'.skeleton = tree.skeleton) (hdecl : decl'.skeleton = decl.skeleton) :
    tree'.binaryName decl' = tree.binaryName decl := by
  have hname : decl'.name = decl.name := by
    rw [← decl'.name_skeleton, hdecl, decl.name_skeleton]
  have hpackage : tree'.package = tree.package := congrArg (fun u => u.package) h
  simp only [UnitTree.binaryName, UnitTree.packageName?, hname, hpackage]

/-- Putting a tree with the analysed class into its place. -/
theorem Ready.replace {tree : UnitTree} {type : TypeSymbol}
    (h : s.Ready names done [(unit, number)]) (he : s.sources[unit]? = some e)
    (hskeleton : tree.skeleton = e.tree.skeleton) (hdecl : tree.types[number]? = some decl)
    (hothers : ∀ n, n ≠ number → tree.types[n]? = e.tree.types[n]?)
    (htype : typeSymbol e.tree number = some type)
    (hanalysed : s.HasAnalysed (tree.binaryName decl) decl) :
    (s.withTree unit tree).Ready names (⟨unit, e.unit.name, type⟩ :: done) [] := by
  have hself : (s.withTree unit tree).sources[unit]? = some { e with tree } := by
    rw [source_withTree he, if_pos rfl]
  have hother {i : Nat} (hi : i ≠ unit) :
      (s.withTree unit tree).sources[i]? = s.sources[i]? := by
    rw [source_withTree he, if_neg hi]
  have hplace : type.place = number := by
    obtain ⟨decl, -, rfl⟩ := Option.map_eq_some_iff.mp htype
    rfl
  obtain ⟨hnew, -⟩ := h.current
  refine ⟨h.sound.withTree he hskeleton, h.settled, ?_, ?_, h.loadable, ?_, ?_, ?_, ?_⟩
  · have hclasses : topClasses 0 (s.withTree unit tree).sources = topClasses 0 s.sources := by
      refine topClasses_congr 0 (List.ext_getElem? fun i => ?_)
      rw [List.getElem?_map, List.getElem?_map, source_withTree he]
      split
      · next hi =>
          rw [hi, he]
          exact congrArg some (length_types_of_skeleton hskeleton)
      · rfl
    rw [hclasses, ← h.queue, List.reverse_cons, List.map_append, List.append_assoc]
    subst hplace
    rfl
  · refine List.forall_mem_cons.mpr ⟨⟨_, hself, rfl, ?_⟩, fun q hq => ?_⟩
    · rw [hplace, typeSymbol_of_skeleton hskeleton, htype]
    · obtain ⟨e', he', hsource, hq⟩ := h.named q hq
      by_cases hunit : q.unit = unit
      · rw [hunit, he] at he'
        cases he'
        refine ⟨{ e with tree }, by rw [hunit, hself], hsource, ?_⟩
        rw [typeSymbol_of_skeleton hskeleton, hq]
      · exact ⟨e', by rw [hother hunit, he'], hsource, hq⟩
  · intro e' he'
    obtain ⟨i, he'⟩ := List.mem_iff_getElem?.mp he'
    by_cases hunit : i = unit
    · rw [hunit, hself] at he'
      cases he'
      rw [UnitTree.binaryNames_eq_of_skeleton hskeleton]
      exact h.bounded e (List.mem_of_getElem? he)
    · rw [hother hunit] at he'
      exact h.bounded e' (List.mem_of_getElem? he')
  · intro e' he'
    obtain ⟨i, he'⟩ := List.mem_iff_getElem?.mp he'
    by_cases hunit : i = unit
    · rw [hunit, hself] at he'
      cases he'
      obtain ⟨tree', hparsed, htree⟩ := h.reads e (List.mem_of_getElem? he)
      exact ⟨tree', hparsed, hskeleton.trans htree⟩
    · rw [hother hunit] at he'
      exact h.reads e' (List.mem_of_getElem? he')
  · intro unit' number' e' decl' hp he' hdecl'
    have hp' := List.mem_append_right [(unit, number)] hp
    by_cases hunit : unit' = unit
    · subst hunit
      rw [hself] at he'
      cases he'
      have hne : number' ≠ number := by
        rintro rfl
        exact hnew hp
      exact h.parsed hp' he (hothers number' hne ▸ hdecl')
    · exact h.parsed hp' (hother hunit ▸ he') hdecl'
  · intro unit' number' e' decl' hp he' hdecl'
    have hkeep {cls : String} {decl : ClassDecl} (h : s.HasAnalysed cls decl) :
        (s.withTree unit tree).HasAnalysed cls decl :=
      ⟨h.fit, h.concludes, h.inScope, fun ht => h.uses (ht.of_withTree he hskeleton), h.signed,
        h.passes⟩
    by_cases hunit : unit' = unit
    · subst hunit
      rw [hself] at he'
      cases he'
      by_cases hnumber : number' = number
      · subst hnumber
        rw [hdecl] at hdecl'
        cases hdecl'
        exact hkeep hanalysed
      · have hp' : (unit', number') ∉ [(unit', number)] ++ s.todo := by
          rw [List.singleton_append, List.mem_cons, not_or]
          exact ⟨fun heq => hnumber (Prod.mk.inj heq).2, hp⟩
        have hkept := h.analysed hp' he (hothers number' hnumber ▸ hdecl')
        rw [← binaryName_of_skeleton hskeleton rfl] at hkept
        exact hkeep hkept
    · have hp' : (unit', number') ∉ [(unit, number)] ++ s.todo := by
        rw [List.singleton_append, List.mem_cons, not_or]
        exact ⟨fun heq => hunit (Prod.mk.inj heq).1, hp⟩
      exact hkeep (h.analysed hp' (hother hunit ▸ he') hdecl')

end Session

/-! ## Runs -/

namespace SessionM

variable {σ : Type} {s t : Session σ} {names : List String} {done : List QueuedClass}
  {bound unit number : Nat} {r : Option QueuedClass}

/-- What a listener is told at the end of a phase is the last that goes into the log. -/
theorem finished_log {e : TaskEvent} {l : TaskListener σ} (h : (finished e).run.run s = (.ok (), t))
    (hl : s.listener = some l) : t.log = (l.finished e s.state s.log).2 := by
  rw [finished, run_modify, hl] at h
  cases h
  rfl

/-- Analysing the class that has been taken out of the queue, if no error is reported. -/
theorem ready_analyse (h : s.Ready names done [(unit, number)])
    (hrun : (analyse bound unit number).run.run s = (.ok r, t)) (herrors : t.log.errors = 0) :
    ∃ q, r = some q ∧ t.Ready names (q :: done) [] := by
  obtain ⟨-, e, decl, he, hdecl⟩ := h.current
  have htype : typeSymbol e.tree number =
      some ⟨number, qualifiedName (e.tree.binaryName decl), e.tree.binaryName decl⟩ := by
    rw [typeSymbol, hdecl]
    rfl
  unfold analyse at hrun
  rw [run_get_bind, he] at hrun
  simp only [htype] at hrun
  obtain ⟨⟨⟩, s₁, hstarted, hrun⟩ := of_run_bind hrun
  obtain ⟨tree, s₂, htop, hrun⟩ := of_run_bind hrun
  obtain ⟨⟨⟩, s₃, hfinished, hrun⟩ := of_run_bind hrun
  cases hrun
  rw [analyseTop_eq hdecl] at htop
  obtain ⟨r, u, hanalyse, htop⟩ := of_run_bind htop
  -- The listener may report errors at any point, so the run is clean from its end backwards.
  have hclean₂ := ((Persists.of_keeps (.finished _)).of_run hfinished).clean herrors
  have hclean : u.log.errors = 0 := by
    refine Session.Persists.clean (Persists.of_run ?_ htop) hclean₂
    cases r with
    | none => exact .pure _
    | some decl' => exact .bind (persists_putTree _ _) fun _ => .pure _
  have hclean₁ := ((Persists.of_keeps (keeps_analyseDecl False.elim).weaken).of_run
    hanalyse).clean hclean
  have hgrows₁ := (Keeps.started (P := True) _).grows_of_run hstarted
  have hready₁ := h.grow hgrows₁
    ((Keeps.started _).advances_of_run hstarted trivial h.sound hclean₁).1
  have he₁ := hgrows₁.source he
  have hkeeps : Keeps s₁ True (analyseDecl bound unit number e.tree decl) _ :=
    keeps_analyseDecl fun _ => ⟨⟨_, _, e, he₁, UnitTree.mem_declared_of_getElem? hdecl⟩,
      hready₁.parsed (List.mem_append_left _ List.mem_cons_self) he₁ hdecl, hready₁.settled⟩
  have hgrows := hkeeps.grows_of_run hanalyse
  obtain ⟨hadvances, decl', rfl, hskeleton, hfit, hconcludes, hscoped, huses, hsigned⟩ :=
    hkeeps.advances_of_run hanalyse trivial hready₁.sound hclean
  cases htop
  have htree := UnitTree.skeleton_set hdecl hskeleton
  have hself : (e.tree.types.set number decl')[number]? = some decl' :=
    List.getElem?_set_self (List.getElem?_eq_some_iff.mp hdecl).1
  have hanalysed : u.HasAnalysed (e.tree.binaryName decl) decl' := by
    refine ⟨hfit, hconcludes, hscoped, huses, ?_, fun l hl => ?_⟩
    · rwa [ClassDecl.binaryNames_eq_of_skeleton hskeleton]
    · rw [finished_log hfinished hl] at herrors
      refine ⟨_, _, _, ?_, ?_, herrors⟩
      · rfl
      · exact hself
  rw [← Session.binaryName_of_skeleton htree hskeleton] at hanalysed
  have hready := (hready₁.grow hgrows hadvances).replace (hgrows.source he₁) htree hself
    (fun n hn => List.getElem?_set_ne (Ne.symm hn)) htype hanalysed
  refine ⟨_, rfl, hready.grow ((Keeps.finished (P := True) _).grows_of_run hfinished) ?_⟩
  exact ((Keeps.finished _).advances_of_run hfinished trivial hready.sound herrors).1

/-- Working through the queue, if no error is reported, ends with an empty one. -/
theorem ready_analyseQueue : ∀ (fuel : Nat) {done : List QueuedClass} {s : Session σ}
    {qs : List QueuedClass}, s.Ready names done [] → names.length ≤ done.length + fuel →
    (analyseQueue bound fuel done).run.run s = (.ok qs, t) → t.log.errors = 0 →
      t.todo = [] ∧ t.Ready names qs.reverse []
  | 0, done, s, qs, h, hfuel, hrun, _ => by
      cases hrun
      have hlength := h.length_le
      rw [List.reverse_reverse]
      exact ⟨List.eq_nil_of_length_eq_zero (by omega), h⟩
  | fuel + 1, done, s, qs, h, hfuel, hrun, herrors => by
      unfold analyseQueue at hrun
      rw [run_get_bind] at hrun
      split at hrun
      · next htodo =>
          cases hrun
          rw [List.reverse_reverse]
          exact ⟨htodo, h⟩
      · next unit number rest htodo =>
          obtain ⟨⟨⟩, s₁, hpop, hrun⟩ := of_run_bind hrun
          cases hpop
          obtain ⟨r, u, hanalyse, hrun⟩ := of_run_bind hrun
          have hclean : u.log.errors = 0 := by
            cases r with
            | some q => exact ((persists_analyseQueue bound fuel _).of_run hrun).clean herrors
            | none => exact ((persists_analyseQueue bound fuel _).of_run hrun).clean herrors
          obtain ⟨q, rfl, hready⟩ := ready_analyse (h.pop htodo) hanalyse hclean
          refine ready_analyseQueue fuel hready ?_ hrun herrors
          rw [List.length_cons]
          omega

end SessionM

end ProbeLang
