import ProbeLang.Proofs.Task.Trace

/-!
# Units that are read

Entering a unit queues those of its top-level classes that get a symbol of their own and reports
the others (`Session.Takes`). Looking for a class reads any number of units, each of which is told to the
listener and entered at once (`Session.Loads`), and adds no symbols but those of classes that files
can give. All this holds whether or not an error is reported; a fault can only be met between two
units, or at the text of one (`Session.Breaks`).
-/

namespace ProbeLang

open SessionM

/-- The report of a top-level class whose name is taken. -/
def UnitTree.duplicate (tree : UnitTree) (decl : ClassDecl) : Diagnostic where
  severity := .error
  message := (Problem.duplicateClass (tree.binaryName decl)).message
  source := some tree.source
  pos := decl.pos

namespace Session

variable {σ : Type} {s t u : Session σ} {es es' : List SourceEntry} {rs rs' : List Reading}

/-- Whether it has been decided who owns the name of a top-level class: the class does, or has been
reported. -/
structure Judges (s : Session σ) (unit : Nat) (tree : UnitTree) (number : Nat) (decl : ClassDecl) :
    Prop where
  known : s.symbols.has (tree.binaryName decl) = true
  judged : s.symbols.owns unit [number] (tree.binaryName decl) = true ∨
    tree.duplicate decl ∈ s.log.diagnostics

theorem Judges.of_extends {unit number : Nat} {tree : UnitTree} {decl : ClassDecl}
    (h : s.Judges unit tree number decl) (hst : s.Extends t) : t.Judges unit tree number decl where
  known := hst.has h.known
  judged := by
    refine h.judged.imp (fun howns => ?_) fun hmem => ?_
    · rw [SymbolTable.owns_of_entered_prefix hst.symbols h.known, howns]
    · obtain ⟨ds, hds⟩ := hst.log
      rw [hds, Log.diagnostics_reportAll]
      exact List.mem_append_left _ hmem

/-! ## Entering -/

/-- Whether every class from source is that of a unit which has been entered. -/
def Placed (s : Session σ) : Prop :=
  ∀ p ∈ s.symbols, ∀ unit place, p.2.origin = .source unit place → unit < s.sources.length

/-- Whether a session goes on from another with some units that have been entered. -/
structure Takes (s : Session σ) (es : List SourceEntry) (t : Session σ) : Prop
    extends s.Extends t where
  placed : t.Placed
  entered : t.sources = s.sources ++ es
  filed : ∀ e ∈ es, e.unit.uri ∈ t.loaded
  todo : t.todo = s.todo ++ t.symbols.accepted s.sources.length es
  judges : ∀ {i : Nat} {e : SourceEntry}, es[i]? = some e → ∀ {number : Nat} {decl : ClassDecl},
    e.tree.types[number]? = some decl → t.Judges (s.sources.length + i) e.tree number decl

theorem Takes.known (h : s.Takes es t) :
    ∀ e ∈ es, ∀ decl ∈ e.tree.types, t.symbols.has (e.tree.binaryName decl) = true := by
  intro e he decl hdecl
  obtain ⟨i, he⟩ := List.mem_iff_getElem?.mp he
  obtain ⟨number, hdecl⟩ := List.mem_iff_getElem?.mp hdecl
  exact (h.judges he hdecl).known

theorem Takes.of_told {ns : List Notice} (hs : s.Placed) (h : s.Told ns t) : s.Takes [] t where
  toExtends := h.toExtends
  placed := by
    unfold Placed
    rw [h.same, h.units]
    exact hs
  entered := by rw [h.units, List.append_nil]
  filed := List.forall_mem_nil _
  todo := by
    rw [h.todo]
    exact (List.append_nil _).symm
  judges h := by cases h

theorem Takes.trans (h : s.Takes es t) (h' : t.Takes es' u) : s.Takes (es ++ es') u where
  toExtends := h.toExtends.trans h'.toExtends
  placed := h'.placed
  entered := by rw [h'.entered, h.entered, List.append_assoc]
  filed := List.forall_mem_append.mpr ⟨fun e he => h'.uris (h.filed e he), h'.filed⟩
  todo := by
    rw [h'.todo, h.todo, SymbolTable.accepted_append, List.append_assoc,
      SymbolTable.accepted_of_entered_prefix h'.symbols h.known, h.entered, List.length_append]
  judges {i e} he number decl hdecl := by
    by_cases hi : i < es.length
    · rw [List.getElem?_append_left hi] at he
      exact (h.judges he hdecl).of_extends h'.toExtends
    · rw [List.getElem?_append_right (Nat.le_of_not_lt hi)] at he
      have hjudges := h'.judges he hdecl
      rwa [h.entered, List.length_append, Nat.add_assoc,
        Nat.add_sub_cancel' (Nat.le_of_not_lt hi)] at hjudges

end Session

namespace Session

variable {σ : Type} {s t : Session σ}

/-- Whether the places of a unit are free from a number on. -/
def FreeFrom (s : Session σ) (unit number : Nat) : Prop :=
  ∀ p ∈ s.symbols, ∀ n rest, p.2.origin = .source unit (n :: rest) → n < number

theorem FreeFrom.of_adds {unit number : Nat} {names : List String} {queue : List (Nat × Nat)}
    (h : s.FreeFrom unit number) (hst : s.Adds (ClassSymbol.Below names unit [number]) queue t) :
    t.FreeFrom unit (number + 1) := by
  obtain ⟨more, ht, hmore⟩ := hst.more
  intro p hp n rest horigin
  rw [ht] at hp
  rcases List.mem_append.mp hp with hp | hp
  · exact Nat.lt_succ_of_lt (h p hp n rest horigin)
  · obtain ⟨-, -, place, horigin', hplace⟩ := hmore p hp
    rw [horigin] at horigin'
    cases horigin'
    obtain ⟨rfl, -⟩ := List.cons_prefix_cons.mp hplace
    exact Nat.lt_succ_self _

end Session

namespace SessionM

open Session

variable {σ : Type} {s t : Session σ}

/-- The class of a number in a unit, if the name of the class is its own. -/
def acceptedOne (t : SymbolTable) (unit : Nat) (tree : UnitTree) (number : Nat) :
    List (Nat × Nat) :=
  if t.accepts unit tree number then [(unit, number)] else []

/-- Entering a top-level class queues it if its name is free and reports it if not. -/
theorem run_enterTypes_cons (u : Entering) {tree : UnitTree} (hsource : u.source = tree.source)
    {decl : ClassDecl} (rest : List ClassDecl) {number : Nat}
    (hdecl : tree.types[number]? = some decl) (hfree : s.FreeFrom u.unit number) :
    ∃ t, (enterTypes u tree number (decl :: rest)).run.run s =
        (enterTypes u tree (number + 1) rest).run.run t ∧
      s.Adds (ClassSymbol.Below (decl.binaryNames (tree.binaryName decl)) u.unit [number])
        (acceptedOne t.symbols u.unit tree number) t ∧
      t.Judges u.unit tree number decl := by
  have haccepts (t : SymbolTable) : t.accepts u.unit tree number =
      t.owns u.unit [number] (tree.binaryName decl) := by
    unfold SymbolTable.accepts typeSymbol
    rw [hdecl]
    rfl
  rw [enterTypes]
  dsimp only
  rw [run_get_bind]
  split
  · next hhas =>
      have howns : s.symbols.owns u.unit [number] (tree.binaryName decl) = false := by
        refine Bool.eq_false_iff.mpr fun howns => ?_
        obtain ⟨c, hc, horigin⟩ := Option.map_eq_some_iff.mp (eq_of_beq howns)
        exact Nat.lt_irrefl _ (hfree _ (Table.mem_of_find? hc) number [] horigin)
      refine ⟨{ s with log := s.log.report (tree.duplicate decl) }, ?_, ?_, hhas, .inr ?_⟩
      · rw [hsource]
        exact run_bind_ok (run_modify s _)
      · unfold acceptedOne
        rw [haccepts, if_neg (by rw [howns]; exact Bool.false_ne_true)]
        exact .of_silent (silent_of_log ⟨[_], rfl⟩)
      · rw [← Log.reportAll_singleton, Log.diagnostics_reportAll]
        exact List.mem_append_right _ List.mem_cons_self
  · next hhas =>
      obtain ⟨⟨⟩, t, hrun, hadds, howns⟩ := Moves.ends
        (owns_enterClass decl u none [number] (Bool.eq_false_iff.mpr hhas) (s := s))
      refine ⟨{ t with todo := t.todo ++ [(u.unit, number)] }, ?_, ?_, ?_, .inl howns⟩
      · rw [run_bind_ok hrun]
        exact run_bind_ok (run_modify t _)
      · unfold acceptedOne
        rw [haccepts, if_pos howns]
        exact hadds.trans ⟨{ Extends.refl t with },
          ⟨[], (List.append_nil _).symm, List.forall_mem_nil _⟩, rfl, rfl,
          .of_log rfl rfl rfl ⟨[], rfl⟩⟩
      · obtain ⟨c, hc, -⟩ := Option.map_eq_some_iff.mp (eq_of_beq howns)
        exact Table.has_eq_true.mpr ⟨c, hc⟩

/-- Entering top-level classes queues those whose names are free and reports the others. -/
theorem run_enterTypes (u : Entering) (tree : UnitTree) (hsource : u.source = tree.source) :
    ∀ (decls : List ClassDecl) (s : Session σ) (first : Nat),
      (∀ n, decls[n]? = tree.types[first + n]?) → s.FreeFrom u.unit first →
      ∃ t, (enterTypes u tree first decls).run.run s = (.ok (), t) ∧
        s.Adds (ClassSymbol.Below tree.binaryNames u.unit [])
          (((List.range' first decls.length).filter (t.symbols.accepts u.unit tree)).map
            (u.unit, ·)) t ∧
        ∀ {n : Nat} {decl : ClassDecl}, decls[n]? = some decl →
          t.Judges u.unit tree (first + n) decl
  | [], s, first, _, _ => ⟨s, rfl, .of_silent (.refl s), fun h => by cases h⟩
  | decl :: rest, s, first, hdecls, hfree => by
      have hdecl : tree.types[first]? = some decl := (hdecls 0).symm
      obtain ⟨s₁, hrun, hadds, hjudges⟩ := run_enterTypes_cons u hsource rest hdecl hfree
      obtain ⟨t, hrest, hadds', hjudges'⟩ := run_enterTypes u tree hsource rest s₁ (first + 1)
        (fun n => by rw [Nat.add_right_comm, Nat.add_assoc]; exact hdecls (n + 1))
        (hfree.of_adds hadds)
      refine ⟨t, hrun.trans hrest, ?_, ?_⟩
      · have hnames (c : ClassSymbol)
            (hc : c.Below (decl.binaryNames (tree.binaryName decl)) u.unit [first]) :
            c.Below tree.binaryNames u.unit [] := by
          obtain ⟨hname, place, horigin, -⟩ := hc
          refine ⟨?_, place, horigin, List.nil_prefix⟩
          exact List.mem_flatMap.mpr ⟨decl, List.mem_of_getElem? hdecl, hname⟩
        have hsame :
            s₁.symbols.accepts u.unit tree first = t.symbols.accepts u.unit tree first := by
          unfold SymbolTable.accepts typeSymbol
          rw [hdecl]
          exact (SymbolTable.owns_of_entered_prefix hadds'.symbols hjudges.known _ _).symm
        have hall := (hadds.mono hnames).trans hadds'
        rw [List.length_cons, List.range'_succ, List.filter_cons]
        unfold acceptedOne at hall
        rw [hsame] at hall
        split
        · next h => rwa [if_pos h] at hall
        · next h => rwa [if_neg h] at hall
      · rintro (_ | n) decl' hdecl'
        · cases hdecl'
          exact hjudges.of_extends hadds'.toExtends
        · rw [Nat.add_comm n, ← Nat.add_assoc]
          exact hjudges' hdecl'

/-- Entering a unit. -/
theorem takes_enter (hs : s.Placed) (unit : CompilationUnit) (tree : UnitTree) :
    ∃ t, (enter unit tree).run.run s = (.ok (), t) ∧ s.Takes [⟨unit, tree⟩] t ∧
      s.Tells (Reading.entering ⟨unit, some tree⟩) t ∧
      t.symbols.names ⊆ s.symbols.names ++ tree.binaryNames := by
  have hfree : (told (opened s unit tree) (.started (enterEvent unit tree))).FreeFrom
      s.sources.length 0 := by
    intro p hp n rest horigin
    rw [(told_told _ _).same] at hp
    exact absurd (hs p hp _ _ horigin) (Nat.lt_irrefl _)
  obtain ⟨t, htypes, hadds, hjudges⟩ := run_enterTypes
    ⟨s.sources.length, tree.source, tree.packageName?⟩ tree rfl tree.types
    (told (opened s unit tree) (.started (enterEvent unit tree))) 0
    (fun n => by rw [Nat.zero_add]) hfree
  have hstarted := told_told (opened s unit tree) (.started (enterEvent unit tree))
  have hfinished := told_told t (.finished (enterEvent unit tree))
  have hst : s.Extends (told t (.finished (enterEvent unit tree))) :=
    (((extends_opened s unit tree).trans hstarted.toExtends).trans hadds.toExtends).trans
      hfinished.toExtends
  refine ⟨_, run_enter_eq htypes, ⟨hst, ?_, ?_, List.forall_mem_singleton.mpr ?_, ?_, ?_⟩, ?_, ?_⟩
  · obtain ⟨more, ht, hmore⟩ := hadds.more
    intro p hp number place horigin
    rw [hfinished.same, ht, hstarted.same] at hp
    rw [hfinished.units, hadds.units, hstarted.units, sources_opened, List.length_append,
      List.length_singleton]
    rcases List.mem_append.mp hp with hp | hp
    · exact Nat.lt_succ_of_lt (hs p hp _ _ horigin)
    · obtain ⟨-, -, place', horigin', -⟩ := hmore p hp
      rw [horigin] at horigin'
      cases horigin'
      exact Nat.lt_succ_self _
  · rw [hfinished.units, hadds.units, hstarted.units, sources_opened]
  · exact hfinished.uris (hadds.uris (hstarted.uris List.mem_cons_self))
  · rw [hfinished.todo, hadds.todo, hstarted.todo, hfinished.same, ← List.range_eq_range']
    show _ = _ ++ (_ ++ [])
    rw [List.append_nil]
    rfl
  · intro i e he number decl hdecl
    obtain ⟨rfl, rfl⟩ : i = 0 ∧ e = ⟨unit, tree⟩ := by
      cases i with
      | zero =>
          cases he
          exact ⟨rfl, rfl⟩
      | succ i => cases he
    have hjudged := hjudges hdecl
    rw [Nat.zero_add] at hjudged
    exact hjudged.of_extends hfinished.toExtends
  · have hsilent : s.Tells [] (opened s unit tree) := .of_log rfl rfl rfl ⟨[], rfl⟩
    exact hsilent.trans ((hstarted.tells.trans hadds.tells).trans hfinished.tells)
  · rw [hfinished.same]
    have hnames := hadds.names_subset fun _ h => h.1
    rwa [hstarted.same] at hnames

end SessionM

/-! ## Loading -/

namespace Session

variable {σ : Type} {s t u : Session σ} {rs rs' : List Reading}

/-- Whether a session goes on from another with some units that have been loaded on demand. -/
structure Loads (s : Session σ) (rs : List Reading) (t : Session σ) : Prop
    extends s.Takes (entries rs) t where
  within : t.symbols.names ⊆ s.symbols.names ++ s.findable
  tells : s.Tells (rs.flatMap Reading.loading) t
  faithful : ∀ r ∈ rs, r.Faithful s.files
  unread : Reading.AllNew s.loaded rs

namespace Loads

theorem of_silent (hs : s.Placed) (h : s.Silent t) : s.Loads [] t where
  toTakes := .of_told hs h
  within := by
    rw [h.same]
    exact List.subset_append_left _ _
  tells := h.tells
  faithful := List.forall_mem_nil _
  unread := .nil _

theorem trans (h : s.Loads rs t) (h' : t.Loads rs' u) : s.Loads (rs ++ rs') u where
  toTakes := by
    rw [entries_append]
    exact h.toTakes.trans h'.toTakes
  within := by
    refine List.Subset.trans h'.within (List.append_subset.mpr ⟨h.within, ?_⟩)
    rw [h.toExtends.findable]
    exact List.subset_append_right _ _
  tells := by
    rw [List.flatMap_append]
    exact h.tells.trans h'.tells
  faithful := List.forall_mem_append.mpr ⟨h.faithful, fun r hr => h.files ▸ h'.faithful r hr⟩
  unread := h.unread.append h'.unread h.uris h.filed

/-- The symbol of an artifact may be added under a name that files can give. -/
theorem insert {c : ClassSymbol} {symbols : SymbolTable} (hs : s.Placed)
    (hins : s.symbols.insert? c = some symbols) (hc : c.origin = .classPath)
    (hname : c.binary ∈ s.findable) : s.Loads [] { s with symbols } := by
  have hadds : s.Adds (fun c => c.origin = .classPath ∧ c.binary ∈ s.findable) []
      { s with symbols } := .insert hins ⟨hc, hname⟩
  refine ⟨⟨hadds.toExtends, ?_, ?_, List.forall_mem_nil _, ?_, fun h => by cases h⟩,
    hadds.names_subset fun _ h => h.2, hadds.tells, List.forall_mem_nil _, .nil _⟩
  · obtain ⟨more, ht, hmore⟩ := hadds.more
    intro p hp unit place horigin
    rw [ht] at hp
    rcases List.mem_append.mp hp with hp | hp
    · exact hs p hp unit place horigin
    · rw [(hmore p hp).2.1] at horigin
      cases horigin
  · exact (List.append_nil _).symm
  · exact (List.append_nil _).symm

/-- A symbol may be changed, but for its name and where it is from. -/
theorem modify {cls : String} {f : ClassSymbol → ClassSymbol} (hs : s.Placed)
    (hext : s.Extends { s with symbols := s.symbols.modify cls f })
    (hf : ∀ c, (f c).origin = c.origin) :
    s.Loads [] { s with symbols := s.symbols.modify cls f } := by
  refine ⟨⟨hext, fun p hp unit place horigin => ?_, ?_, List.forall_mem_nil _, ?_,
    fun h => by cases h⟩, ?_, .of_log rfl rfl rfl ⟨[], rfl⟩, List.forall_mem_nil _, .nil _⟩
  · obtain ⟨⟨name, c⟩, hc, rfl⟩ := List.mem_map.mp hp
    refine hs (name, c) hc unit place ?_
    rw [← horigin]
    dsimp only
    split
    · exact (hf c).symm
    · rfl
  · exact (List.append_nil _).symm
  · exact (List.append_nil _).symm
  · rw [Table.names_modify]
    exact List.subset_append_left _ _

end Loads

/-- Whether a session goes on from another with units that have been loaded. -/
structure Loading (s t : Session σ) : Prop where
  ext : s.Extends t
  loads : s.Placed → ∃ rs, s.Loads rs t

theorem Loading.of_silent (h : s.Silent t) : s.Loading t :=
  ⟨h.toExtends, fun hs => ⟨[], .of_silent hs h⟩⟩

instance : IsPreorder (Session σ) Loading where
  refl s := .of_silent (.refl s)
  trans _ _ _ h h' := by
    refine ⟨h.ext.trans h'.ext, fun hs => ?_⟩
    obtain ⟨rs, hst⟩ := h.loads hs
    obtain ⟨rs', htu⟩ := h'.loads hst.placed
    exact ⟨rs ++ rs', hst.trans htu⟩

/-- Whether a session has ended with a fault: nothing has happened, or the text of a unit could not
be had. -/
def Breaks (_ : TaskFault) (s t : Session σ) : Prop :=
  s.Silent t ∨
    ∃ unit : CompilationUnit, unit.uri ∉ s.loaded ∧
      s.Told [.started { phase := .parse, source := unit.name }] t

theorem Breaks.refl (e : TaskFault) (s : Session σ) : Breaks e s s :=
  .inl (.refl s)

end Session

namespace SessionM

open Session

variable {σ α : Type} {s t : Session σ} {T : TaskFault → Session σ → Session σ → Prop}

theorem silent_ofIo (hT : ∀ e s, T e s s) (r : Except IoFault α) :
    Moves Silent T s (ofIo r) fun a _ => r = .ok a := by
  cases r with
  | error e => exact .throw (hT _ s)
  | ok a => exact .pure rfl

theorem silent_input (hT : ∀ e s, T e s s) (l : Location) (name : String) (kind : UnitKind) :
    Moves Silent T s (input l name kind) fun _ _ => True := by
  refine .get (Moves.bind (Q := fun _ _ => True) ?_ fun _ _ _ _ => (silent_ofIo hT _).weaken)
  refine .of_run_ok rfl ⟨?_, rfl, rfl, rfl, .of_log rfl rfl rfl ⟨[], rfl⟩⟩ trivial
  exact { Extends.refl s with store := s.store.takeDeferred_input s.files l name kind }

/-- Parsing a unit ends with what its text is, unless the text cannot be had. -/
theorem run_parse_cases (s : Session σ) (unit : CompilationUnit) :
    (∃ e t, (parse unit).run.run s = (.error e, t) ∧
      s.Told [.started { phase := .parse, source := unit.name }] t) ∨
    ∃ tree t, (parse unit).run.run s = (.ok tree, t) ∧ s.Told (Reading.parsing ⟨unit, tree⟩) t ∧
      Reading.Faithful ⟨unit, tree⟩ s.files := by
  let event : TaskEvent := { phase := .parse, source := unit.name }
  have hstarted := told_told s (.started event)
  unfold parse
  rw [run_bind_ok (run_started_eq s event), run_get_bind]
  have hfiles : (told s (.started event)).files = s.files := hstarted.files
  cases hcontent : unit.content (told s (.started event)).files with
  | error fault => exact .inl ⟨.io fault, _, run_bind_error rfl, hstarted⟩
  | ok text =>
      right
      rw [run_bind_ok (show (ofIo (.ok text)).run.run _ = _ from rfl)]
      cases htree : UnitTree.parse unit.name text with
      | error e =>
          obtain ⟨⟨⟩, u, hproblem, ⟨hsilent, -⟩, -⟩ := Moves.ends (quiet_problem
            (s := told s (.started event)) unit.name e.pos (.unparsable e.fault))
          refine ⟨none, told u (.finished event), ?_, ?_, text, hfiles ▸ hcontent, ?_⟩
          · dsimp only
            rw [run_bind_ok hproblem, run_bind_ok (run_finished_eq u event)]
            rfl
          · exact hstarted.trans (hsilent.trans (told_told u _))
          · rw [htree]
            rfl
      | ok tree =>
          refine ⟨some tree, told (told s (.started event))
            (.finished { event with unit := some tree }), ?_, ?_, text, hfiles ▸ hcontent, ?_⟩
          · dsimp only
            rw [run_bind_ok (run_finished_eq _ _)]
            rfl
          · exact hstarted.trans (told_told _ _)
          · rw [htree]
            rfl

/-- Reading a unit that is no tree. -/
theorem loading_of_parse_none {unit : CompilationUnit} (h : s.Told (Reading.parsing ⟨unit, none⟩) t)
    (hfaithful : Reading.Faithful ⟨unit, none⟩ s.files) (hnew : unit.uri ∉ s.loaded) :
    s.Loading t := by
  refine ⟨h.toExtends, fun hs => ⟨[⟨unit, none⟩], .of_told hs h, ?_, ?_, ?_, .singleton hnew⟩⟩
  · rw [h.same]
    exact List.subset_append_left _ _
  · exact h.tells
  · exact List.forall_mem_singleton.mpr hfaithful

/-- Reading a unit that is a tree, and entering it. -/
theorem loading_of_parse_some {unit : CompilationUnit} {tree : UnitTree} {u : Session σ}
    (h : s.Told (Reading.parsing ⟨unit, some tree⟩) t)
    (hfaithful : Reading.Faithful ⟨unit, some tree⟩ s.files)
    (hnew : unit.uri ∉ s.loaded) (hloaded : tree.binaryNames ⊆ s.loadable)
    (hrun : (enter unit tree).run.run t = (.ok (), u)) : s.Loading u := by
  obtain ⟨u', hrun', hext, -, -⟩ := run_enter t unit tree
  rw [hrun] at hrun'
  cases hrun'
  refine ⟨h.toExtends.trans hext,
    fun hs => ⟨[⟨unit, some tree⟩], ?_, ?_, ?_, ?_, .singleton hnew⟩⟩
  all_goals
    have hparsed := Takes.of_told hs h
    obtain ⟨u', hrun', htakes, htells, hnames⟩ := takes_enter hparsed.placed unit tree
    rw [hrun] at hrun'
    cases hrun'
  · exact hparsed.trans htakes
  · rw [h.same] at hnames
    refine List.Subset.trans hnames (List.append_subset.mpr ⟨List.subset_append_left _ _, ?_⟩)
    exact List.Subset.trans hloaded
      (List.Subset.trans (List.subset_append_left _ _) (List.subset_append_right _ _))
  · rw [List.flatMap_singleton]
    exact h.tells.trans htells
  · exact List.forall_mem_singleton.mpr hfaithful

theorem loads_problem (source : String) (pos : Pos) (p : Problem) :
    Moves Loading T s (problem source pos p) fun _ _ => True :=
  (quiet_problem source pos p).rel fun h => .of_silent h.1

theorem loads_input (l : Location) (name : String) (kind : UnitKind) :
    Moves Loading Breaks s (input l name kind) fun _ _ => True :=
  (silent_input Breaks.refl l name kind).rel .of_silent

theorem loads_known (name : String) : Moves Loading T s (known name) (Finds name) :=
  .get (.pure id)

theorem loads_loadSource (name : String) :
    Moves Loading Breaks s (loadSource name) (Finds name) := by
  unfold loadSource
  refine (loads_input _ _ _).bind_run fun found t hinput _ _ => ?_
  cases found with
  | none => exact .pure finds_false
  | some unit =>
      refine .get ?_
      split
      · exact loads_known name
      · next hcontains =>
        have hnew : unit.uri ∉ t.loaded := mt List.contains_iff_mem.mpr hcontains
        rcases run_parse_cases t unit with
          ⟨e, u, hparse, htold⟩ | ⟨tree, u, hparse, htold, hfaithful⟩
        · exact .of_run_error (run_bind_error hparse) (refl_of Loading t)
            (.inr ⟨unit, hnew, htold⟩)
        · cases tree with
          | none =>
              exact .after (run_bind_ok hparse) (loading_of_parse_none htold hfaithful hnew)
                (.pure finds_false)
          | some tree =>
              obtain ⟨v, henter, -⟩ := run_enter u unit tree
              have hloaded := (loaded_of_input hinput hparse).loadable
              rw [htold.loadable] at hloaded
              refine .after ((run_bind_ok hparse).trans (run_bind_ok henter))
                (loading_of_parse_some htold hfaithful hnew hloaded henter) ?_
              refine (loads_known name).bind fun found _ _ hfound => ?_
              split
              · next h => exact .pure fun _ => hfound h
              · exact (loads_problem _ _ _).bind fun _ _ _ _ => .pure finds_false

theorem loads_report (d : Diagnostic) : Moves Loading T s (report d) fun _ _ => True :=
  (quiet_report d).rel fun h => .of_silent h.1

theorem loads_loadArtifact (name : String) :
    Moves Loading Breaks s (loadArtifact name) (Finds name) := by
  unfold loadArtifact
  refine (loads_input _ _ _).bind_run fun found t hinput hst _ => ?_
  cases found with
  | none => exact .pure finds_false
  | some unit =>
      refine .get (((silent_ofIo Breaks.refl _).rel .of_silent).bind fun bytes u htu hbytes => ?_)
      split
      · exact (loads_report _).bind fun _ _ _ _ => .pure finds_false
      · next c hdecode =>
          split
          · next hname =>
              refine .get ?_
              split
              · next symbols hins =>
                  refine Moves.bind (Q := fun _ t => t.symbols.has name = true)
                    (.of_run_ok rfl ⟨.of_isPrefix (prefix_insert hins), fun hu => ⟨[], ?_⟩⟩ ?_)
                    fun _ _ _ h => .pure fun _ => h
                  · have hbytes : unit.bytes s.files = .ok bytes := hst.ext.files ▸ hbytes
                    have hmem := mem_artifactNames (run_input_ok hinput) hbytes hdecode
                    have hext := hst.ext.trans htu.ext
                    exact .insert hu hins rfl (hext.findable ▸ List.mem_append_right _ hmem)
                  · exact hname ▸ has_insert hins
              · exact .pure finds_false
          · exact (loads_report _).bind fun _ _ _ _ => .pure finds_false

variable {find : String → SessionM σ Bool}

theorem loads_load
    (hfind : ∀ {name : String} {s : Session σ}, Moves Loading Breaks s (find name) (Finds name))
    (name : String) : Moves Loading Breaks s (load find name) (Finds name) := by
  unfold load
  refine hfind.bind fun found t _ hfound => ?_
  split
  · next h => exact .pure fun _ => hfound h
  · refine (loads_loadArtifact name).bind fun found u _ hfound => ?_
    split
    · next h => exact .pure fun _ => hfound h
    · refine Moves.bind (Q := fun _ _ => True) (.of_run_ok rfl (Loading.of_silent ?_) trivial)
        fun _ _ _ _ => .pure finds_false
      exact ⟨{ Extends.refl u with }, rfl, rfl, rfl, .of_log rfl rfl rfl ⟨[], rfl⟩⟩

theorem loads_findWith
    (hfind : ∀ {name : String} {s : Session σ}, Moves Loading Breaks s (find name) (Finds name))
    (name : String) : Moves Loading Breaks s (findWith find name) (Finds name) := by
  unfold findWith
  refine .get ?_
  split
  · next h => exact .pure fun _ => h
  · split
    · exact .pure finds_false
    · exact loads_load hfind name

/-- Looking for a class loads units, and adds no symbols but those of classes that files can give. A
class that is found is known. -/
theorem loads_findClass (name : String) :
    Moves Loading Breaks s (findClass name) (Finds name) := by
  unfold findClass
  dsimp only
  split
  · exact loads_findWith (loads_loadSource _) name
  · refine loads_findWith (fun {name _} => ?_) _
    refine (loads_findWith (loads_loadSource _) _).bind fun _ _ _ _ => ?_
    split
    · exact loads_known name
    · exact .pure finds_false

end SessionM

end ProbeLang
