import ProbeLang.Proofs.Session.Soundness

/-!
# Entering classes

Entering a unit adds a symbol for each class that the unit declares, unless an error is reported:
the names must differ from each other and from all names that are known already. So a session that
is sound before is sound behind it, and the top-level classes of the unit are in the queue.
-/

namespace ProbeLang

/-- The member types that members make. -/
def Member.memberTypes (binary : String) : List Member → Table String
  | [] => []
  | .type decl :: rest =>
      (decl.name.name, binary ++ "$" ++ decl.name.name) :: Member.memberTypes binary rest
  | .field _ :: rest | .method _ :: rest => Member.memberTypes binary rest

theorem DeclaredClass.memberTypes_eq (d : DeclaredClass) :
    Member.memberTypes d.binary d.decl.members = d.memberTypes := by
  unfold DeclaredClass.memberTypes ClassDecl.nested
  induction d.decl.members with
  | nil => rfl
  | cons m rest ih => cases m <;> simpa [Member.memberTypes] using ih

namespace Session

variable {σ : Type} {s t u : Session σ} {ds ds' : List DeclaredClass}
  {tops tops' : List (Nat × Nat)}

/-- Whether a session goes on from another with the symbols of some classes, which it did not know,
and with some top-level classes in its queue, unless an error is reported. -/
structure Enters (s t : Session σ) (ds : List DeclaredClass) (tops : List (Nat × Nat)) : Prop
    extends s.Extends t where
  known : s.symbols <+: t.symbols
  same : t.sources = s.sources
  todo : t.log.errors = s.log.errors → t.todo = s.todo ++ tops
  found : t.log.errors = s.log.errors → ∀ d ∈ ds, t.symbols.find? d.binary = some d.symbol
  fresh : t.log.errors = s.log.errors → ∀ d ∈ ds, s.symbols.has d.binary = false
  origin : t.log.errors = s.log.errors → ∀ {name : String} {c : ClassSymbol},
    t.symbols.find? name = some c →
      s.symbols.find? name = some c ∨ ∃ d ∈ ds, d.binary = name ∧ c = d.symbol

theorem find?_of_isPrefix {t u : SymbolTable} (h : t <+: u) {name : String} {c : ClassSymbol}
    (hc : t.find? name = some c) : u.find? name = some c := by
  obtain ⟨more, rfl⟩ := h
  rw [Table.find?_append, hc]
  rfl

namespace Enters

theorem refl (s : Session σ) : s.Enters s [] [] where
  toExtends := .refl s
  known := List.prefix_refl _
  same := rfl
  todo _ := (List.append_nil _).symm
  found := by simp
  fresh := by simp
  origin _ _ _ h := .inl h

theorem trans (h : s.Enters t ds tops) (h' : t.Enters u ds' tops') :
    s.Enters u (ds ++ ds') (tops ++ tops') := by
  have hclean (hu : u.log.errors = s.log.errors) :
      t.log.errors = s.log.errors ∧ u.log.errors = t.log.errors := by
    have hst := h.errors_le
    have htu := h'.errors_le
    omega
  refine ⟨h.toExtends.trans h'.toExtends, h.known.trans h'.known, h'.same.trans h.same,
    fun hu => ?_, fun hu d hd => ?_, fun hu d hd => ?_, fun hu _ _ hc => ?_⟩
  · rw [h'.todo (hclean hu).2, h.todo (hclean hu).1, List.append_assoc]
  · rcases List.mem_append.mp hd with hd | hd
    · exact find?_of_isPrefix h'.known (h.found (hclean hu).1 d hd)
    · exact h'.found (hclean hu).2 d hd
  · rcases List.mem_append.mp hd with hd | hd
    · exact h.fresh (hclean hu).1 d hd
    · exact Bool.eq_false_iff.mpr fun hs =>
        Bool.eq_false_iff.mp (h'.fresh (hclean hu).2 d hd) (h.toExtends.has hs)
  · rcases h'.origin (hclean hu).2 hc with hc | ⟨d, hd, hc⟩
    · rcases h.origin (hclean hu).1 hc with hc | ⟨d, hd, hc⟩
      · exact .inl hc
      · exact .inr ⟨d, List.mem_append_left _ hd, hc⟩
    · exact .inr ⟨d, List.mem_append_right _ hd, hc⟩

/-- The order in which classes are entered does not count. -/
theorem of_subset (h : s.Enters t ds tops) (hsub : ds' ⊆ ds) (hsup : ds ⊆ ds') :
    s.Enters t ds' tops :=
  { h with
    found := fun ht d hd => h.found ht d (hsub hd)
    fresh := fun ht d hd => h.fresh ht d (hsub hd)
    origin := fun ht _ _ hc => (h.origin ht hc).imp_right fun ⟨d, hd, hc⟩ => ⟨d, hsup hd, hc⟩ }

/-- After an error nothing is left to be shown. -/
theorem of_errors (h : s.Extends t) (hknown : s.symbols <+: t.symbols)
    (hsame : t.sources = s.sources) (herrors : s.log.errors < t.log.errors) :
    s.Enters t ds tops where
  toExtends := h
  known := hknown
  same := hsame
  todo ht := absurd ht (Nat.ne_of_gt herrors)
  found ht := absurd ht (Nat.ne_of_gt herrors)
  fresh ht := absurd ht (Nat.ne_of_gt herrors)
  origin ht := absurd ht (Nat.ne_of_gt herrors)

end Enters

end Session

namespace SessionM

variable {σ : Type} {s t : Session σ}

open Session

theorem run_get_bind {α : Type} (s : Session σ) (f : Session σ → SessionM σ α) :
    (MonadState.get >>= f).run.run s = (f s).run.run s :=
  rfl

/-- The session with an error reported. -/
theorem run_problem (s : Session σ) (source : String) (pos : Pos) (p : Problem) :
    ∃ t, (problem source pos p).run.run s = (.ok (), t) ∧ s.Extends t ∧
      t.symbols = s.symbols ∧ t.sources = s.sources ∧ s.log.errors < t.log.errors := by
  refine ⟨_, rfl, { Extends.refl s with log := ⟨[_], rfl⟩ }, rfl, rfl, ?_⟩
  simp [Log.report]

/-- A problem is an error, so it may stand for whatever should have been entered. -/
theorem enters_problem (s : Session σ) (source : String) (pos : Pos) (p : Problem)
    (ds : List DeclaredClass) (tops : List (Nat × Nat)) :
    ∃ t, (problem source pos p).run.run s = (.ok (), t) ∧ s.Enters t ds tops ∧
      s.log.errors < t.log.errors := by
  obtain ⟨t, hrun, hext, hsymbols, hsources, herrors⟩ := run_problem s source pos p
  exact ⟨t, hrun, .of_errors hext (hsymbols ▸ List.prefix_refl _) hsources herrors, herrors⟩

/-- Enter a symbol. If it is that of a declared class, the class has been entered. -/
theorem enters_enterSymbol (s : Session σ) (u : Entering) (pos : Pos) (c : ClassSymbol) :
    ∃ t, (enterSymbol u pos c).run.run s = (.ok (), t) ∧ s.Extends t ∧
      s.symbols <+: t.symbols ∧ t.sources = s.sources ∧
      ∀ d : DeclaredClass, c = d.symbol → s.Enters t [d] [] := by
  unfold enterSymbol
  rw [run_get_bind]
  cases hins : s.symbols.insert? c with
  | none =>
      obtain ⟨t, hrun, henters, herrors⟩ :=
        enters_problem s u.source pos (.duplicateClass (qualifiedName c.binary)) [] []
      exact ⟨t, hrun, henters.toExtends, henters.known, henters.same, fun _ _ =>
        .of_errors henters.toExtends henters.known henters.same herrors⟩
  | some symbols =>
      unfold SymbolTable.insert? at hins
      split at hins
      · cases hins
      · next hnew =>
          cases hins
          have hext : s.Extends { s with symbols := s.symbols ++ [(c.binary, c)] } :=
            .of_isPrefix (List.prefix_append _ _)
          refine ⟨_, rfl, hext, List.prefix_append _ _, rfl, ?_⟩
          rintro d rfl
          refine ⟨hext, List.prefix_append _ _, rfl, fun _ => (List.append_nil _).symm,
            fun _ d' hd' => ?_, fun _ d' hd' => ?_, fun _ {name c} hc => ?_⟩
          · obtain rfl := List.mem_singleton.mp hd'
            have hnone := Table.has_eq_false.mp (Bool.eq_false_iff.mpr hnew)
            rw [Table.find?_append, show d'.binary = d'.symbol.binary from rfl, hnone]
            simp [Table.find?_cons]
          · obtain rfl := List.mem_singleton.mp hd'
            exact Bool.eq_false_iff.mpr hnew
          · rw [Table.find?_append] at hc
            cases hs : s.symbols.find? name with
            | some c' =>
                rw [hs] at hc
                exact .inl hc
            | none =>
                rw [hs, Option.none_or, Table.find?_cons] at hc
                split at hc
                · next hname =>
                    cases hc
                    exact .inr ⟨d, List.mem_singleton_self d, hname.symm, rfl⟩
                · cases hc

mutual

theorem enters_enterClass : ∀ (c : ClassDecl) (s : Session σ) (u : Entering) (binary : String)
    (outer : Option String) (place : List Nat),
    ∃ t, (enterClass u binary outer place c).run.run s = (.ok (), t) ∧
      s.Enters t (c.declared u.unit u.package outer place binary) []
  | ⟨name, modifiers, superclass, members, pos⟩, s, u, binary, outer, place => by
      obtain ⟨t, types, hrun, henters, htypes⟩ :=
        enters_enterMembers members s u binary name.name place 0 []
      obtain ⟨t', hrun', hext, hknown, hsame, hdeclared⟩ := enters_enterSymbol t u pos
        { binary, package := u.package, simple := name.name, outer, superclass := none,
          members := types, fields := [], methods := [],
          deprecated := (modifiers.annotation? "Deprecated").isSome,
          origin := .source u.unit place, completed := false }
      refine ⟨t', by rw [enterClass, run_bind_ok hrun, hrun'], ?_⟩
      by_cases ht : t.log.errors = s.log.errors
      · have hsymbol := hdeclared ⟨u.unit, u.package, place, outer, binary,
          ⟨name, modifiers, superclass, members, pos⟩⟩ (by
            simp only [DeclaredClass.symbol, htypes ht, List.nil_append,
              ← DeclaredClass.memberTypes_eq])
        refine (henters.trans hsymbol).of_subset ?_ ?_ <;> simp [ClassDecl.declared]
      · exact .of_errors (henters.toExtends.trans hext) (henters.known.trans hknown)
          (hsame.trans henters.same)
          (Nat.lt_of_lt_of_le (Nat.lt_of_le_of_ne henters.errors_le (Ne.symm ht)) hext.errors_le)

theorem enters_enterMembers : ∀ (members : List Member) (s : Session σ) (u : Entering)
    (binary simple : String) (place : List Nat) (i : Nat) (types : Table String),
    ∃ t types', (enterMembers u binary simple place i types members).run.run s = (.ok types', t) ∧
      s.Enters t (Member.declared u.unit u.package place binary i members) [] ∧
      (t.log.errors = s.log.errors → types' = types ++ Member.memberTypes binary members)
  | [], s, _, _, _, _, _, types => ⟨s, types, rfl, .refl s, fun _ => (List.append_nil _).symm⟩
  | .field _ :: rest, s, u, binary, simple, place, i, types =>
      enters_enterMembers rest s u binary simple place (i + 1) types
  | .method _ :: rest, s, u, binary, simple, place, i, types =>
      enters_enterMembers rest s u binary simple place (i + 1) types
  | .type decl :: rest, s, u, binary, simple, place, i, types => by
      unfold enterMembers
      dsimp only
      split
      · obtain ⟨t, hrun, henters, herrors⟩ := enters_problem s u.source decl.pos
          (.memberClassTaken decl.name.name (qualifiedName binary)) [] []
        obtain ⟨t', types', hrun', henters', -⟩ :=
          enters_enterMembers rest t u binary simple place (i + 1) types
        have hlt := Nat.lt_of_lt_of_le herrors henters'.errors_le
        refine ⟨t', types', by rw [run_bind_ok hrun, hrun'], ?_,
          fun ht => absurd ht (Nat.ne_of_gt hlt)⟩
        have hboth := henters.trans henters'
        exact .of_errors hboth.toExtends hboth.known hboth.same hlt
      · next htaken =>
          obtain ⟨t, hrun, henters⟩ := enters_enterClass decl s u
            (binary ++ "$" ++ decl.name.name) (some binary) (place ++ [i])
          obtain ⟨t', types', hrun', henters', htypes⟩ :=
            enters_enterMembers rest t u binary simple place (i + 1)
              (types.put decl.name.name (binary ++ "$" ++ decl.name.name))
          refine ⟨t', types', by rw [run_bind_ok hrun, hrun'], henters.trans henters',
            fun ht => ?_⟩
          have hfree : types.has decl.name.name = false := by
            simp only [Bool.or_eq_true, not_or, Bool.not_eq_true] at htaken
            exact htaken.1
          have hsame : t'.log.errors = t.log.errors := by
            have hst := henters.errors_le
            have htt' := henters'.errors_le
            omega
          rw [htypes hsame, Table.put_of_has_eq_false hfree, List.append_assoc]
          rfl

end

/-- Enter the top-level classes of a unit. -/
theorem enters_enterTypes (u : Entering) (tree : UnitTree) (hpackage : u.package = tree.packageName?) :
    ∀ (decls : List ClassDecl) (s : Session σ) (i : Nat),
      ∃ t, (enterTypes u tree i decls).run.run s = (.ok (), t) ∧
        s.Enters t (tree.declaredFrom u.unit i decls)
          ((List.range' i decls.length).map (u.unit, ·))
  | [], s, i => ⟨s, rfl, .refl s⟩
  | decl :: rest, s, i => by
      unfold enterTypes
      dsimp only
      rw [run_get_bind]
      split
      · obtain ⟨t, hrun, henters, herrors⟩ :=
          enters_problem s u.source decl.pos (.duplicateClass (tree.binaryName decl)) [] []
        obtain ⟨t', hrun', henters'⟩ := enters_enterTypes u tree hpackage rest t (i + 1)
        have hboth := henters.trans henters'
        exact ⟨t', by rw [run_bind_ok hrun, hrun'], .of_errors hboth.toExtends hboth.known
          hboth.same (Nat.lt_of_lt_of_le herrors henters'.errors_le)⟩
      · obtain ⟨t, hrun, henters⟩ :=
          enters_enterClass decl s u (tree.binaryName decl) none [i]
        have hqueue : t.Enters { t with todo := t.todo ++ [(u.unit, i)] } [] [(u.unit, i)] :=
          { Enters.refl t with todo := fun _ => rfl }
        obtain ⟨t', hrun', henters'⟩ := enters_enterTypes u tree hpackage rest
          { t with todo := t.todo ++ [(u.unit, i)] } (i + 1)
        refine ⟨t', ?_, ?_⟩
        · rw [run_bind_ok hrun, run_bind_ok (run_modify t _), hrun']
        · rw [hpackage] at henters
          have hall := (henters.trans hqueue).trans henters'
          rwa [List.append_nil] at hall

/-- What entering the classes of a unit makes of a sound session. -/
theorem advances_of_enters {number : Nat} {e : SourceEntry}
    (hst : s.Extends t) (hknown : s.symbols <+: t.symbols) (hnumber : number = s.sources.length)
    (hsources : t.sources = s.sources ++ [e])
    (htodo : t.todo = s.todo ++ (List.range e.tree.types.length).map (number, ·))
    (hfound : ∀ d ∈ e.tree.declared number, t.symbols.find? d.binary = some d.symbol)
    (horigin : ∀ {name : String} {c : ClassSymbol}, t.symbols.find? name = some c →
      s.symbols.find? name = some c ∨
        ∃ d ∈ e.tree.declared number, d.binary = name ∧ c = d.symbol)
    (hs : s.Sound) : s.Advances t := by
  have hdeclares : ∀ d ∈ e.tree.declared number, t.Declares d := fun d hd => by
    have hunit := (UnitTree.at?_of_mem_declared hd).2
    refine ⟨e, ?_, hunit ▸ hd⟩
    rw [hunit, hsources, hnumber]
    exact List.getElem?_concat_length
  refine ⟨⟨?_, ?_, ?_, ?_, ?_, ?_⟩, ?_, ?_⟩
  · rintro d ⟨e', he', hd⟩
    by_cases hunit : d.unit < s.sources.length
    · have he : s.sources[d.unit]? = some e' := by
        rwa [hsources, List.getElem?_append_left hunit] at he'
      obtain ⟨c, hc, hentered⟩ := hs.declared ⟨e', he, hd⟩
      exact ⟨c, find?_of_isPrefix hknown hc, hentered⟩
    · have hlast : d.unit = number ∧ e' = e := by
        have hlt := (List.getElem?_eq_some_iff.mp he').1
        rw [hsources, List.length_append, List.length_singleton] at hlt
        have heq : d.unit = s.sources.length := by omega
        rw [hsources, heq, List.getElem?_concat_length] at he'
        exact ⟨heq.trans hnumber.symm, (Option.some.inj he').symm⟩
      obtain ⟨hunit, rfl⟩ := hlast
      exact ⟨d.symbol, hfound d (hunit ▸ hd), rfl⟩
  · intro name c hc hsource
    rcases horigin hc with hc | ⟨d, hd, hname, rfl⟩
    · obtain ⟨d, hd, hname, hentered, hwritten⟩ := hs.origin hc hsource
      exact ⟨d, hd.of_extends hst, hname, hentered,
        fun h => (hwritten h).mono hst.has⟩
    · exact ⟨d, hdeclares d hd, hname, rfl, fun h => by cases h⟩
  · intro name c hc hbuiltin
    rcases horigin hc with hc | ⟨d, hd, hname, rfl⟩
    · exact hs.builtin hc hbuiltin
    · cases hbuiltin
  · intro name c hc
    rcases horigin hc with hc | ⟨d, hd, hname, rfl⟩
    · exact hs.named hc
    · exact hname
  · intro name c hc
    rcases horigin hc with hc | ⟨d, hd, hname, rfl⟩
    · exact hs.known hc
    · constructor <;> simp [DeclaredClass.symbol]
  · intro name c hc hsource
    rcases horigin hc with hc | ⟨d, hd, hname, rfl⟩
    · exact (hs.staged hc hsource).mono hst.has
    · exact ⟨fun _ => ⟨rfl, rfl⟩, nofun⟩
  · rintro name ⟨c, hc, hrest⟩
    rcases horigin hc with hc | ⟨d, hd, hname, rfl⟩
    · exact ⟨c, hc, hrest⟩
    · cases hrest.2.1
  · rw [htodo, hsources, List.drop_left, topClasses, topClasses, List.append_nil, hnumber]

/-- Enter a unit. -/
theorem run_enter (s : Session σ) (unit : CompilationUnit) (tree : UnitTree) :
    ∃ t, (enter unit tree).run.run s = (.ok (), t) ∧ s.Extends t ∧
      t.sources = s.sources ++ [⟨unit, tree⟩] ∧
      (s.Sound → t.log.errors = 0 → s.Advances t) := by
  have hadd : s.Extends { s with loaded := unit.uri :: s.loaded,
                                 sources := s.sources ++ [⟨unit, tree⟩] } :=
    { Extends.refl s with
      sources := List.prefix_append _ _
      uris := List.subset_cons_self _ _ }
  obtain ⟨state, log, hstarted, hlog⟩ :=
    run_started { s with loaded := unit.uri :: s.loaded, sources := s.sources ++ [⟨unit, tree⟩] }
      { phase := .enter, source := unit.name, unit := some tree }
  obtain ⟨t, htypes, henters⟩ :=
    enters_enterTypes ⟨s.sources.length, tree.source, tree.packageName?⟩ tree rfl tree.types
      { s with loaded := unit.uri :: s.loaded, sources := s.sources ++ [⟨unit, tree⟩],
               state, log } 0
  obtain ⟨state', log', hfinished, hlog'⟩ :=
    run_finished t { phase := .enter, source := unit.name, unit := some tree }
  have hst : s.Extends t := by
    refine (hadd.trans ?_).trans henters.toExtends
    exact { Extends.refl _ with log := hlog }
  have htu : t.Extends { t with state := state', log := log' } :=
    { Extends.refl t with log := hlog' }
  refine ⟨_, ?_, hst.trans htu, henters.same, fun hs herrors => ?_⟩
  · unfold enter
    rw [run_get_bind, run_bind_ok (run_modify s _), run_bind_ok hstarted, run_bind_ok htypes,
      hfinished]
  · have ht : t.log.errors = log.errors := by
      have hbefore : log.errors ≤ t.log.errors := henters.errors_le
      have hbehind : t.log.errors ≤ log'.errors := htu.errors_le
      have hnone : log'.errors = 0 := herrors
      omega
    refine advances_of_enters (hst.trans htu) henters.known rfl henters.same ?_
      (henters.found ht) (henters.origin ht) hs
    rw [List.range_eq_range']
    exact henters.todo ht

end SessionM

end ProbeLang
