import ProbeLang.Proofs.Session.Adding
import ProbeLang.Proofs.Session.Distinct
import ProbeLang.Proofs.Tree.Trails
import ProbeLang.Task

/-!
# The tree of entered classes

Entering units one after the other makes a tree of symbols, unless an error is reported: each
declaration has a symbol of its own under the name that its trail spells, which leads to the class
around it and to its member classes, and they lead back (`Session.Holds`). A name that two
declarations spell, or one that was known before, always makes an error.
-/

namespace ProbeLang

open SessionM

theorem declaredClasses_append (unit : Nat) : ∀ (es es' : List SourceEntry),
    declaredClasses unit (es ++ es') =
      declaredClasses unit es ++ declaredClasses (unit + es.length) es'
  | [], _ => rfl
  | e :: rest, es' => by
      rw [List.cons_append, declaredClasses, declaredClasses_append (unit + 1) rest es',
        declaredClasses, List.append_assoc, List.length_cons, Nat.add_assoc, Nat.add_comm 1]

namespace Session

variable {σ : Type} {s t u : Session σ} {es es' : List SourceEntry}

/-! ## Entering units -/

/-- Whether a session goes on from another with some units and the symbols of their classes, none of
which it knew, unless an error is reported. -/
structure TakesIn (s : Session σ) (es : List SourceEntry) (t : Session σ) : Prop
    extends s.Extends t where
  known : s.symbols <+: t.symbols
  entered : t.sources = s.sources ++ es
  found : t.log.errors = s.log.errors →
    ∀ d ∈ declaredClasses s.sources.length es, t.symbols.find? d.binary = some d.symbol
  fresh : t.log.errors = s.log.errors →
    ∀ d ∈ declaredClasses s.sources.length es, s.symbols.has d.binary = false

namespace TakesIn

theorem refl (s : Session σ) : s.TakesIn [] s where
  toExtends := .refl s
  known := List.prefix_refl _
  entered := (List.append_nil _).symm
  found _ _ h := absurd h List.not_mem_nil
  fresh _ _ h := absurd h List.not_mem_nil

theorem trans (h : s.TakesIn es t) (h' : t.TakesIn es' u) : s.TakesIn (es ++ es') u := by
  have hclean (hu : u.log.errors = s.log.errors) :
      t.log.errors = s.log.errors ∧ u.log.errors = t.log.errors := by
    have hst := h.errors_le
    have htu := h'.errors_le
    omega
  have hsplit : ∀ {d : DeclaredClass}, d ∈ declaredClasses s.sources.length (es ++ es') →
      d ∈ declaredClasses s.sources.length es ∨ d ∈ declaredClasses t.sources.length es' := by
    intro d hd
    rw [declaredClasses_append] at hd
    rwa [h.entered, List.length_append, ← List.mem_append]
  refine ⟨h.toExtends.trans h'.toExtends, h.known.trans h'.known, ?_, fun hu d hd => ?_,
    fun hu d hd => ?_⟩
  · rw [h'.entered, h.entered, List.append_assoc]
  · rcases hsplit hd with hd | hd
    · exact find?_of_isPrefix h'.known (h.found (hclean hu).1 d hd)
    · exact h'.found (hclean hu).2 d hd
  · rcases hsplit hd with hd | hd
    · exact h.fresh (hclean hu).1 d hd
    · exact Bool.eq_false_iff.mpr fun hs =>
        Bool.eq_false_iff.mp (h'.fresh (hclean hu).2 d hd) (h.toExtends.has hs)

end TakesIn

end Session

/-- Units with their trees, as they are entered. -/
def unitEntries (us : List (CompilationUnit × UnitTree)) : List SourceEntry :=
  us.map fun (unit, tree) => ⟨unit, tree⟩

namespace SessionM

open Session

variable {σ : Type}

/-- Entering a unit takes in the classes that it declares. -/
theorem takesIn_enter (s : Session σ) (unit : CompilationUnit) (tree : UnitTree) :
    ∃ t, (enter unit tree).run.run s = (.ok (), t) ∧ s.TakesIn [⟨unit, tree⟩] t := by
  have hstarted := told_told (opened s unit tree) (.started (enterEvent unit tree))
  obtain ⟨t, htypes, henters⟩ :=
    enters_enterTypes ⟨s.sources.length, tree.source, tree.packageName?⟩ tree rfl tree.types
      (told (opened s unit tree) (.started (enterEvent unit tree))) 0
  have hfinished := told_told t (.finished (enterEvent unit tree))
  have hopened := (extends_opened s unit tree).trans hstarted.toExtends
  have hdeclared : declaredClasses s.sources.length [⟨unit, tree⟩] =
      tree.declaredFrom s.sources.length 0 tree.types := List.append_nil _
  have hclean (hu : (told t (.finished (enterEvent unit tree))).log.errors = s.log.errors) :
      t.log.errors = (told (opened s unit tree) (.started (enterEvent unit tree))).log.errors := by
    have hbefore := hopened.errors_le
    have hentered := henters.errors_le
    have hbehind := hfinished.errors_le
    omega
  refine ⟨_, run_enter_eq htypes, (hopened.trans henters.toExtends).trans hfinished.toExtends, ?_,
    ?_, fun hu d hd => ?_, fun hu d hd => ?_⟩
  · have hknown := henters.known
    rw [hstarted.same] at hknown
    rw [hfinished.same]
    exact hknown
  · rw [hfinished.units, henters.same, hstarted.units, sources_opened]
  · rw [hfinished.same]
    exact henters.found (hclean hu) d (hdeclared ▸ hd)
  · have hfresh := henters.fresh (hclean hu) d (hdeclared ▸ hd)
    rw [hstarted.same] at hfresh
    exact hfresh

/-- Entering units takes in the classes of all of them. -/
theorem takesIn_enterAll : ∀ (us : List (CompilationUnit × UnitTree)) (s : Session σ),
    ∃ t, (enterAll us).run.run s = (.ok (), t) ∧
      s.TakesIn (unitEntries us) t
  | [], s => ⟨s, rfl, .refl s⟩
  | (unit, tree) :: rest, s => by
      obtain ⟨t, hrun, hst⟩ := takesIn_enter s unit tree
      obtain ⟨u, hrest, htu⟩ := takesIn_enterAll rest t
      exact ⟨u, (run_bind_ok hrun).trans hrest, hst.trans htu⟩

end SessionM

/-! ## The tree -/

theorem Member.find?_memberTypes {outer : String} : ∀ (members : List Member)
    {simple binary : String}, (Member.memberTypes outer members).find? simple = some binary ↔
      ∃ decl, Member.type decl ∈ members ∧ decl.name.name = simple ∧
        outer ++ "$" ++ decl.name.name = binary
  | [], _, _ => by simp [Member.memberTypes]
  | .field f :: rest, _, _ => by
      simpa [Member.memberTypes] using Member.find?_memberTypes rest
  | .method m :: rest, _, _ => by
      simpa [Member.memberTypes] using Member.find?_memberTypes rest
  | .type decl :: rest, simple, binary => by
      rw [Member.memberTypes, Table.find?_cons]
      by_cases hname : simple = decl.name.name
      · rw [if_pos hname]
        refine ⟨fun h => ⟨decl, List.mem_cons_self, hname.symm, Option.some.inj h⟩, ?_⟩
        rintro ⟨decl', -, hname', rfl⟩
        rw [hname', hname]
      · rw [if_neg hname, Member.find?_memberTypes rest]
        refine exists_congr fun decl' => ?_
        have hne : decl'.name.name = simple → decl' ≠ decl := by
          rintro rfl rfl
          exact hname rfl
        simp only [List.mem_cons, Member.type.injEq]
        refine and_congr_left fun h => ⟨.inr, fun hmem => hmem.resolve_left (hne h.1)⟩

/-- The member types of a declared class are those of its members that are classes. -/
theorem DeclaredClass.find?_memberTypes {d : DeclaredClass} {simple binary : String} :
    d.memberTypes.find? simple = some binary ↔
      ∃ m, Member.type m ∈ d.decl.members ∧ m.name.name = simple ∧
        d.binary ++ "$" ++ m.name.name = binary :=
  d.memberTypes_eq ▸ Member.find?_memberTypes d.decl.members

namespace Session

variable {σ : Type} {s t : Session σ} {es : List SourceEntry} {e : SourceEntry} {i : Nat}
  {place : List Nat} {trail : List ClassDecl}

/-- Whether a symbol is that of the last declaration of a trail, which stands at a place of a unit,
and is linked with the symbols of the classes around it and in it. -/
structure Holds (t : Session σ) (tree : UnitTree) (unit : Nat) (place : List Nat)
    (trail : List ClassDecl) (decl : ClassDecl) (c : ClassSymbol) : Prop where
  known : t.symbols.find? (tree.nameOf trail) = some c
  binary : c.binary = tree.nameOf trail
  package : c.package = tree.packageName?
  simple : c.simple = decl.name.name
  deprecated : c.deprecated = (decl.modifiers.annotation? "Deprecated").isSome
  origin : c.origin = .source unit place
  declared : (t.sources[unit]?.bind fun e => e.tree.at? place) = some decl
  /-- The class around it is the one whose name the rest of the trail spells. -/
  outer : c.outer = tree.outerOf trail
  enclosed : ∀ outer, c.outer = some outer → ∃ c', t.symbols.find? outer = some c' ∧
    c'.origin = .source unit place.dropLast
  /-- The member types are those that are declared. -/
  members : ∀ {simple binary : String}, c.members.find? simple = some binary ↔
    ∃ m, Member.type m ∈ decl.members ∧ m.name.name = simple ∧
      tree.nameOf (trail ++ [m]) = binary
  /-- The symbols of the member types lead back. -/
  back : ∀ {k : Nat} {m : ClassDecl}, decl.members[k]? = some (.type m) →
    ∃ c', t.symbols.find? (tree.nameOf (trail ++ [m])) = some c' ∧ c'.outer = some c.binary ∧
      c'.origin = .source unit (place ++ [k])

/-- Whether a place in some units spells a name that is known in a session, or one that another
place in them spells as well. -/
def Clashes (s : Session σ) (es : List SourceEntry) : Prop :=
  ∃ (i : Nat) (e : SourceEntry) (place : List Nat) (trail : List ClassDecl),
    es[i]? = some e ∧ e.tree.trail? place = some trail ∧
    (s.symbols.has (e.tree.nameOf trail) = true ∨
      ∃ (j : Nat) (e' : SourceEntry) (place' : List Nat) (trail' : List ClassDecl),
        es[j]? = some e' ∧ e'.tree.trail? place' = some trail' ∧ (j, place') ≠ (i, place) ∧
        e'.tree.nameOf trail' = e.tree.nameOf trail)

namespace TakesIn

variable (h : s.TakesIn es t)

include h

/-- The declarations of a unit that has been taken in, with the names that their trails spell. -/
theorem exists_declared (he : es[i]? = some e) (htrail : e.tree.trail? place = some trail) :
    ∃ decl, trail.getLast? = some decl ∧
      (⟨s.sources.length + i, e.tree.packageName?, place, e.tree.outerOf trail,
        e.tree.nameOf trail, decl⟩ : DeclaredClass) ∈ e.tree.declared (s.sources.length + i) ∧
      t.sources[s.sources.length + i]? = some e := by
  obtain ⟨decl, hlast, hd⟩ := UnitTree.mem_declared_of_trail (s.sources.length + i) htrail
  refine ⟨decl, hlast, hd, ?_⟩
  rw [h.entered, List.getElem?_append_right (Nat.le_add_right _ _), Nat.add_sub_cancel_left, he]

/-- Unless an error has been reported, all declarations are held. -/
theorem holds (hsame : t.log.errors = s.log.errors) (he : es[i]? = some e)
    (htrail : e.tree.trail? place = some trail) :
    ∃ decl c, trail.getLast? = some decl ∧
      t.Holds e.tree (s.sources.length + i) place trail decl c := by
  obtain ⟨decl, hlast, hd, hsource⟩ := h.exists_declared he htrail
  have hne : trail ≠ [] := by
    rintro rfl
    cases hlast
  have hfound : ∀ d ∈ e.tree.declared (s.sources.length + i),
      t.symbols.find? d.binary = some d.symbol ∧ d.unit = s.sources.length + i := fun d hd =>
    ⟨h.found hsame d (mem_declaredClasses.mpr ⟨i, e, he, (UnitTree.at?_of_mem_declared hd).2, hd⟩),
      (UnitTree.at?_of_mem_declared hd).2⟩
  refine ⟨decl, _, hlast, (hfound _ hd).1, rfl, rfl, rfl, rfl, rfl, ?_, rfl,
    fun outer houter => ?_, ?_, fun hk => ?_⟩
  · rw [hsource]
    exact (UnitTree.at?_of_mem_declared hd).1
  · rcases UnitTree.enclosed_of_mem_declared hd with ⟨k, -, heq⟩ | ⟨d', hd', k, -, heq⟩
    · cases (congrArg DeclaredClass.outer heq).symm.trans houter
    · have hbinary : d'.binary = outer :=
        Option.some.inj ((congrArg DeclaredClass.outer heq).symm.trans houter)
      have hplace : place = d'.place ++ [k] := congrArg DeclaredClass.place heq
      refine ⟨d'.symbol, hbinary ▸ (hfound d' hd').1, ?_⟩
      rw [hplace, List.dropLast_concat, ← (hfound d' hd').2]
      rfl
  · intro simple binary
    refine DeclaredClass.find?_memberTypes.trans ?_
    simp only [UnitTree.nameOf_concat e.tree hne]
  · have hmember := (hfound _ (UnitTree.nested_mem_declared hd hk)).1
    dsimp only at hmember
    rw [← UnitTree.nameOf_concat e.tree hne] at hmember
    exact ⟨_, hmember, rfl, rfl⟩

/-- A clash of names makes an error. -/
theorem errors_lt (hclash : s.Clashes es) : s.log.errors < t.log.errors := by
  refine Nat.lt_of_le_of_ne h.errors_le fun hsame => ?_
  obtain ⟨i, e, place, trail, he, htrail, hclash⟩ := hclash
  obtain ⟨decl, -, hd, -⟩ := h.exists_declared he htrail
  rcases hclash with hknown | ⟨j, e', place', trail', he', htrail', hne, hname⟩
  · have hfresh := h.fresh hsame.symm _ (mem_declaredClasses.mpr ⟨i, e, he, rfl, hd⟩)
    rw [hknown] at hfresh
    cases hfresh
  · obtain ⟨decl', -, hd', -⟩ := h.exists_declared he' htrail'
    have hfound := h.found hsame.symm _ (mem_declaredClasses.mpr ⟨i, e, he, rfl, hd⟩)
    have hfound' := h.found hsame.symm _ (mem_declaredClasses.mpr ⟨j, e', he', rfl, hd'⟩)
    rw [hname, hfound] at hfound'
    have horigin := congrArg ClassSymbol.origin (Option.some.inj hfound')
    simp only [DeclaredClass.symbol, Origin.source.injEq] at horigin
    exact hne (Prod.ext (Nat.add_left_cancel horigin.1).symm horigin.2.symm)

end TakesIn

end Session

/-! ## Entering any units -/

/-- Entering units, whatever they declare, ends in a session that holds each of their declarations
unless an error has been reported. One has been if two declarations get the same name or one gets a
name that was known before. -/
theorem SessionM.enterAll_holds {σ : Type} (s : Session σ)
    (us : List (CompilationUnit × UnitTree)) :
    ∃ t ds, (enterAll us).run.run s = (.ok (), t) ∧ t.log = s.log.reportAll ds ∧
      ((∀ d ∈ ds, d.severity ≠ .error) → ∀ {i : Nat} {e : SourceEntry},
        (unitEntries us)[i]? = some e → ∀ {place : List Nat} {trail : List ClassDecl},
          e.tree.trail? place = some trail → ∃ decl c, trail.getLast? = some decl ∧
            t.Holds e.tree (s.sources.length + i) place trail decl c) ∧
      (s.Clashes (unitEntries us) → ∃ d ∈ ds, d.severity = .error) := by
  obtain ⟨t, hrun, htakes⟩ := takesIn_enterAll us s
  obtain ⟨ds, hlog⟩ := htakes.log
  have hcount : t.log.errors = s.log.errors + ds.countP (·.severity = .error) := by
    rw [hlog, Log.errors_reportAll]
  refine ⟨t, ds, hrun, hlog, fun hclean _ _ he _ _ htrail => ?_, fun hclash => ?_⟩
  · refine htakes.holds ?_ he htrail
    have hnone : ds.countP (·.severity = .error) = 0 :=
      List.countP_eq_zero.mpr fun d hd => by simpa using hclean d hd
    rw [hcount, hnone, Nat.add_zero]
  · have hlt := htakes.errors_lt hclash
    have hpos : 0 < ds.countP (·.severity = .error) := by omega
    obtain ⟨d, hd, herror⟩ := List.countP_pos_iff.mp hpos
    exact ⟨d, hd, of_decide_eq_true herror⟩

/-- The unit of a text with its tree. -/
def parsedUnit (name text : String) : List (CompilationUnit × UnitTree) :=
  match UnitTree.parse name text with
  | .ok tree => [(⟨name, .source, name, .text text⟩, tree)]
  | .error _ => []

/-- Units with dollar signs in their names, all of which are different. -/
def dollarUnits : List (CompilationUnit × UnitTree) :=
  parsedUnit "A" "package p; class A { int n; class B$ { class C {} } class D {} }" ++
    parsedUnit "E" "class A$B$$C {}"

/-- Units in which a class has the name of a nested one. -/
def clashingUnits : List (CompilationUnit × UnitTree) :=
  parsedUnit "A" "class A { class B {} }" ++ parsedUnit "B" "class A$B {}"

/-- A session in which nothing has happened. -/
def idleSession : Session Unit where
  options := {}
  files := ⟨[], ""⟩
  store := .inMemory none
  listener := none
  state := ()

theorem enterAll_holds_dollars :
    (∀ d ∈ ((SessionM.enterAll dollarUnits).run.run idleSession).2.log.diagnostics,
      d.severity ≠ .error) ∧
    (∃ e trail decl c, (unitEntries dollarUnits)[0]? = some e ∧
      e.tree.trail? [0, 1, 0] = some trail ∧ e.tree.nameOf trail = "p.A$B$$C" ∧
      trail.getLast? = some decl ∧
      ((SessionM.enterAll dollarUnits).run.run idleSession).2.Holds e.tree 0 [0, 1, 0] trail decl
        c) ∧
    idleSession.Clashes (unitEntries clashingUnits) ∧
    ∃ d ∈ ((SessionM.enterAll clashingUnits).run.run idleSession).2.log.diagnostics,
      d.severity = .error := by
  have hclean : ∀ d ∈ ((SessionM.enterAll dollarUnits).run.run idleSession).2.log.diagnostics,
      d.severity ≠ .error := by decide +kernel
  have hname : ((unitEntries dollarUnits)[0]?.bind fun e =>
      (e.tree.trail? [0, 1, 0]).map e.tree.nameOf) = some "p.A$B$$C" := by decide +kernel
  have hclash : idleSession.Clashes (unitEntries clashingUnits) := by
    have hinner : ((unitEntries clashingUnits)[0]?.bind fun e =>
        (e.tree.trail? [0, 0]).map e.tree.nameOf) = some "A$B" := by decide +kernel
    have houter : ((unitEntries clashingUnits)[1]?.bind fun e =>
        (e.tree.trail? [0]).map e.tree.nameOf) = some "A$B" := by decide +kernel
    obtain ⟨e, he, h⟩ := Option.bind_eq_some_iff.mp hinner
    obtain ⟨trail, htrail, hinner⟩ := Option.map_eq_some_iff.mp h
    obtain ⟨e', he', h⟩ := Option.bind_eq_some_iff.mp houter
    obtain ⟨trail', htrail', houter⟩ := Option.map_eq_some_iff.mp h
    exact ⟨0, e, [0, 0], trail, he, htrail, .inr ⟨1, e', [0], trail', he', htrail', by decide,
      houter.trans hinner.symm⟩⟩
  obtain ⟨e, he, h⟩ := Option.bind_eq_some_iff.mp hname
  obtain ⟨trail, htrail, hname⟩ := Option.map_eq_some_iff.mp h
  obtain ⟨t, ds, hrun, hlog, hholds, -⟩ := SessionM.enterAll_holds idleSession dollarUnits
  obtain ⟨t', ds', hrun', hlog', -, hreports⟩ := SessionM.enterAll_holds idleSession clashingUnits
  have hdiagnostics : t.log.diagnostics = ds := by rw [hlog, Log.diagnostics_reportAll]; rfl
  have hdiagnostics' : t'.log.diagnostics = ds' := by rw [hlog', Log.diagnostics_reportAll]; rfl
  rw [hrun] at hclean ⊢
  rw [hrun']
  obtain ⟨decl, c, hlast, hc⟩ := hholds (hdiagnostics ▸ hclean) he htrail
  refine ⟨hclean, ⟨e, trail, decl, c, he, htrail, hname, hlast, hc⟩, hclash, ?_⟩
  rw [hdiagnostics']
  exact hreports hclash

end ProbeLang
