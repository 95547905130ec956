import ProbeLang.Proofs.Analysis.Completion
import ProbeLang.Proofs.Session.Adding
import ProbeLang.Proofs.Session.Enclosing

/-!
# All that names do to a session

Finding out what a name means changes a session in three ways only: it looks for classes, completes
them and reports diagnostics. So it obeys all relations between sessions that these obey
(`Lookups`), and a class that a name leads to is known, whether or not an error has been reported.
-/

namespace ProbeLang

open SessionM Session

variable {σ : Type} {s t : Session σ} {R : Session σ → Session σ → Prop}
  {T : TaskFault → Session σ → Session σ → Prop}

/-- Whether looking for classes obeys a relation between sessions, along which nothing is forgotten,
and one for the faults that are met. -/
structure Searches (R : Session σ → Session σ → Prop)
    (T : TaskFault → Session σ → Session σ → Prop) : Prop where
  ext : ∀ {s t : Session σ}, R s t → s.Extends t
  quiet : ∀ {s t : Session σ}, s.Quiet t → R s t
  find : ∀ (name : String) {s : Session σ}, Moves R T s (findClass name) (Finds name)

/-- Whether looking for classes and each step of completing them obeys two relations. -/
structure Lookups (R : Session σ → Session σ → Prop)
    (T : TaskFault → Session σ → Session σ → Prop) : Prop extends Searches R T where
  mark : ∀ {s : Session σ} {cls : String}, s.FromSource cls → R s (markCompleted s cls)
  complete : ∀ {s : Session σ} {cls : String}, s.FromSource cls → ∀ (superclass : String)
    (fields : List FieldSig) (methods : List MethodSig),
      R s (s.completeWith cls superclass fields methods)
  endless : ∀ {s : Session σ} {cls : String}, s.FromSource cls → s.symbols.Endless cls →
    T .endless s s

/-- Whether what a scope does obeys two relations. -/
structure NameScope.Within (ns : NameScope σ) (R : Session σ → Session σ → Prop)
    (T : TaskFault → Session σ → Session σ → Prop) : Prop extends Searches R T where
  chain : ∀ (cls : String) {s : Session σ}, Moves R T s (ns.chain cls) fun _ _ => True

/-! ## Known classes -/

/-- Whether a class is known, under its name or as the class of a symbol. -/
def Session.Knows (s : Session σ) (cls : String) : Prop :=
  s.symbols.has cls = true ∨ ∃ name c, s.symbols.find? name = some c ∧ c.binary = cls

theorem Session.Knows.of_extends {cls : String} (h : s.Knows cls) (hst : s.Extends t) :
    t.Knows cls := by
  rcases h with h | ⟨name, c, hc, hbinary⟩
  · exact .inl (hst.has h)
  · obtain ⟨c', hc', hentered⟩ := hst.find? hc
    exact .inr ⟨name, c', hc', (congrArg ClassSymbol.binary hentered :).trans hbinary⟩

/-- Whether a class that a name leads to, if any, is known. -/
def Session.Answers (found : Option String) (s : Session σ) : Prop :=
  ∀ cls, found = some cls → s.Knows cls

theorem Session.answers_none : Answers none s := by
  intro cls h
  cases h

theorem Session.answers_some {cls : String} (h : s.Knows cls) : Answers (some cls) s := by
  intro cls' hcls
  cases hcls
  exact h

namespace NameScope

variable {ns : NameScope σ}

namespace Within

theorem of_quiet {α : Type} {m : SessionM σ α} {Q : α → Session σ → Prop} (hns : ns.Within R T)
    (h : Moves Quiet T s m Q) : Moves R T s m Q :=
  h.rel hns.toSearches.quiet

theorem knows (hns : ns.Within R T) (name : String) :
    Moves R T s (findClass name) fun found t => found = true → t.Knows name :=
  (hns.find name).mono fun _ _ _ h hfound => .inl (h hfound)

theorem problem (hns : ns.Within R T) (source : String) (pos : Pos) (p : Problem) :
    Moves R T s (SessionM.problem source pos p) fun _ _ => True :=
  hns.of_quiet (quiet_problem source pos p)

end Within

variable [IsPreorder (Session σ) R]

/-! ## Names -/

theorem moves_memberTypeOf (hns : ns.Within R T) (simple : String) (classes : List String) :
    Moves R T s (memberTypeOf simple classes) Answers := by
  refine Moves.findSomeM? (Q := fun cls t => t.Knows cls) classes fun c _ t => .get ?_
  split
  · exact .pure answers_none
  · refine (hns.knows _).bind fun _ _ _ hfound => ?_
    split
    · next h => exact .pure (answers_some (hfound h))
    · exact .pure answers_none

theorem moves_memberType (hns : ns.Within R T) (cls simple : String) :
    Moves R T s (ns.memberType cls simple) Answers :=
  (hns.chain cls).bind fun _ _ _ _ => moves_memberTypeOf hns simple _

theorem moves_lookupQualified (hns : ns.Within R T) : ∀ (segments : List String) {s : Session σ},
    Moves R T s (ns.lookupQualified segments) Answers
  | [], _ => .pure answers_none
  | last :: above, s => by
      unfold lookupQualified
      refine (hns.knows _).bind fun _ _ _ hfound => ?_
      split
      · next h => exact .pure (answers_some (hfound h))
      · refine (moves_lookupQualified hns above).bind fun outer _ _ _ => ?_
        cases outer with
        | none => exact .pure answers_none
        | some outer => exact moves_memberType hns outer last

theorem moves_lookupIn (hns : ns.Within R T) (package : Option String) (simple : String) :
    Moves R T s (lookupIn package simple) Answers := by
  unfold lookupIn
  refine (hns.knows _).bind fun found _ _ hfound => ?_
  cases found with
  | true => exact .pure (answers_some (hfound rfl))
  | false => exact .pure answers_none

theorem moves_builtin (simple : String) :
    Moves R T s (do return ((← get).symbols.builtin? simple).map ClassSymbol.binary) Answers := by
  refine .get (.pure fun cls hcls => ?_)
  obtain ⟨c, hc, rfl⟩ := Option.map_eq_some_iff.mp hcls
  obtain ⟨hfind, -⟩ := Option.filter_eq_some_iff.mp hc
  exact .inr ⟨_, c, hfind, rfl⟩

theorem moves_resolveSimple (hns : ns.Within R T) (simple : String) :
    Moves R T s (ns.resolveSimple simple) Answers := by
  refine Moves.findSomeM? (Q := fun cls t => t.Knows cls) _ fun m hm t => ?_
  simp only [simpleLookups, List.mem_append, List.mem_map, List.mem_cons, List.not_mem_nil,
    or_false] at hm
  rcases hm with ((⟨cls, -, rfl⟩ | ⟨i, -, rfl⟩) | rfl | rfl) | ⟨i, -, rfl⟩
  · exact moves_memberType hns cls simple
  · exact moves_lookupQualified hns _
  · exact moves_lookupIn hns ns.package simple
  · exact moves_builtin simple
  · exact moves_lookupQualified hns _

theorem moves_nestedType (hns : ns.Within R T) : ∀ (simples : List String) (cls : String)
    {s : Session σ}, s.Knows cls → Moves R T s (ns.nestedType cls simples) Answers
  | [], _, _, hcls => .pure (answers_some hcls)
  | simple :: rest, cls, _, _ => by
      unfold nestedType
      refine (moves_memberType hns cls simple).bind fun nested _ _ hnested => ?_
      cases nested with
      | none => exact .pure answers_none
      | some nested => exact moves_nestedType hns rest nested (hnested nested rfl)

theorem moves_packagedType (hns : ns.Within R T) : ∀ (rest front : List String) {s : Session σ},
    Moves R T s (packagedType front rest) fun found t => Answers (found.map Prod.fst) t
  | [], _, _ => .pure answers_none
  | segment :: rest, front, _ => by
      unfold packagedType
      refine (hns.knows _).bind fun _ _ _ hfound => ?_
      split
      · next h => exact .pure (answers_some (hfound h))
      · exact moves_packagedType hns rest (segment :: front)

theorem moves_resolvePath (hns : ns.Within R T) (segments : List String) :
    Moves R T s (ns.resolvePath segments) Answers := by
  cases segments with
  | nil => exact .pure answers_none
  | cons first rest =>
      refine (moves_resolveSimple hns first).bind fun found _ _ hfound => ?_
      cases found with
      | some cls => exact moves_nestedType hns rest cls (hfound cls rfl)
      | none =>
          refine (moves_packagedType hns rest [first]).bind fun found _ _ hfound => ?_
          cases found with
          | some found => exact moves_nestedType hns found.2 found.1 (hfound found.1 rfl)
          | none => exact .pure answers_none

theorem quiet_checkDeprecated (cls : String) (pos : Pos) :
    Moves Quiet T s (ns.checkDeprecated cls pos) fun _ _ => True := by
  refine .get ?_
  split
  · split
    · split
      · exact quiet_advise _ _ _
      · split
        · exact .of_run_ok rfl ⟨⟨{ Extends.refl s with }, rfl, rfl, rfl,
            .of_log rfl rfl rfl ⟨[], rfl⟩⟩, rfl⟩ trivial
        · exact .pure trivial
    · exact .pure trivial
  · exact .pure trivial

/-! ## Types -/

/-- Whether a type, if it is that of a class, is that of a known one. -/
def Refers (ty : Ty) (s : Session σ) : Prop :=
  ∀ cls, ty = .cls cls → s.Knows cls

theorem refers_of_ne {ty : Ty} (h : ∀ cls, ty ≠ .cls cls) : Refers ty s :=
  fun cls hcls => absurd hcls (h cls)

theorem moves_resolveBase (hns : ns.Within R T) (base : TypeName) :
    Moves R T s (ns.resolveBase base) Refers := by
  cases base with
  | named path =>
      refine (moves_resolvePath hns path.segments).bind fun found _ _ hfound => ?_
      cases found with
      | some cls =>
          refine (hns.of_quiet (quiet_checkDeprecated cls path.pos)).bind fun _ _ htu _ => ?_
          refine .pure fun cls' hcls => ?_
          cases hcls
          exact (hfound cls rfl).of_extends (hns.ext htu)
      | none =>
          refine (hns.problem _ _ _).bind fun _ _ _ _ => .pure ?_
          exact refers_of_ne nofun
  | void | int | long | boolean => exact .pure (refers_of_ne nofun)

theorem moves_resolveType (hns : ns.Within R T) (type : TypeRef) :
    Moves R T s (ns.resolveType type) Refers := by
  unfold resolveType
  refine (moves_resolveBase hns type.base).bind fun ty _ _ hty => ?_
  split
  · exact .pure (refers_of_ne fun _ => Ty.noConfusion)
  · refine .pure ?_
    cases type.dims with
    | zero => exact hty
    | succ dims => exact refers_of_ne fun _ => Ty.noConfusion

theorem moves_assignable (hns : ns.Within R T) (sub sup : Ty) :
    Moves R T s (ns.assignable sub sup) fun _ _ => True := by
  fun_induction assignable ns sub sup generalizing s with
  | case8 a b => exact (hns.chain a).bind fun _ _ _ _ => .pure trivial
  | case10 a b _ _ ih => exact ih
  | _ => exact .pure trivial

theorem moves_requireAssignable (hns : ns.Within R T) (pos : Pos) (sub sup : Ty) :
    Moves R T s (ns.requireAssignable pos sub sup) fun _ _ => True := by
  unfold requireAssignable
  refine (moves_assignable hns sub sup).bind fun _ _ _ _ => ?_
  split
  · exact hns.problem _ _ _
  · exact .pure trivial

/-! ## Completion -/

theorem moves_superclassOf (hns : ns.Within R T) (cls : String) (sup : Option TypeRef) :
    Moves R T s (ns.superclassOf cls sup) fun _ _ => True := by
  cases sup with
  | none => exact .pure trivial
  | some type =>
      refine (moves_resolveType hns type).bind fun ty _ _ _ => ?_
      split
      · refine (hns.chain _).bind fun _ _ _ _ => ?_
        split
        · exact (hns.problem _ _ _).bind fun _ _ _ _ => .pure trivial
        · exact .pure trivial
      · exact .pure trivial
      · exact (hns.problem _ _ _).bind fun _ _ _ _ => .pure trivial

theorem moves_fieldSigs (hns : ns.Within R T) (cls : String) : ∀ (fs : List FieldDecl)
    (done : List FieldSig) {s : Session σ}, Moves R T s (ns.fieldSigs cls done fs) fun _ _ => True
  | [], _, _ => .pure trivial
  | f :: rest, done, s => by
      unfold fieldSigs
      refine (moves_resolveType hns f.type).bind fun ty _ _ _ => ?_
      dsimp only
      split
      · exact (hns.problem _ _ _).bind fun _ _ _ _ => moves_fieldSigs hns cls rest _
      · exact moves_fieldSigs hns cls rest _

theorem moves_methodSigs (hns : ns.Within R T) (cls : String) : ∀ (ms : List MethodDecl)
    (done : List MethodSig) {s : Session σ}, Moves R T s (ns.methodSigs cls done ms) fun _ _ => True
  | [], _, _ => .pure trivial
  | m :: rest, done, s => by
      unfold methodSigs
      refine (moves_resolveType hns m.ret).bind fun ret _ _ _ => ?_
      refine (Moves.mapM m.params fun p _ _ => (moves_resolveType hns p.type).weaken).bind
        fun params _ _ _ => ?_
      dsimp only
      split
      · exact (hns.problem _ _ _).bind fun _ _ _ _ => moves_methodSigs hns cls rest _
      · exact moves_methodSigs hns cls rest _

theorem moves_completeMembers (h : Lookups R T) (hns : ns.Within R T) {cls : String}
    (hcls : s.FromSource cls) (decl : ClassDecl) :
    Moves R T s (ns.completeMembers cls decl) fun _ _ => True := by
  unfold completeMembers
  refine (moves_superclassOf hns cls decl.superclass).bind fun superclass t hst _ => ?_
  refine (moves_fieldSigs hns cls decl.fields []).bind fun fields u htu _ => ?_
  refine (moves_methodSigs hns cls decl.methods []).bind fun methods v huv _ => ?_
  have hsource := hcls.of_extends (hns.ext (trans_of R hst (trans_of R htu huv)))
  exact .of_run_ok (run_modify v _) (h.complete hsource superclass fields methods) trivial

end NameScope

namespace SessionM

/-- What is done about a class from source once it has been marked. -/
def completeMarked (chain : String → SessionM σ (List String)) (cls : String) (unit : Nat)
    (place : List Nat) : SessionM σ Unit := do
  let s ← get
  let some classes := SymbolTable.enclosing? s.symbols (s.symbols.length + 1) cls | throw .endless
  let some entry := s.sources[unit]? | return ()
  let some decl := entry.tree.at? place | return ()
  (NameScope.ofTree chain entry.tree classes).completeMembers cls decl

/-- Completing a class leaves a session as it is if the class has been completed or is not from source.
Otherwise it marks the class and goes on from there. -/
theorem complete_cases (cls : String) (s : Session σ) :
    ((∀ c, s.symbols.find? cls = some c → c.isSource = true → c.completed = true) ∧
      ∀ chain, (complete chain cls).run.run s = (.ok (), s)) ∨
      ∃ c, s.symbols.find? cls = some c ∧ c.isSource = true ∧ c.completed = false ∧
        ∃ unit place, ∀ chain, (complete chain cls).run.run s =
          (completeMarked chain cls unit place).run.run (markCompleted s cls) := by
  by_cases h : ∃ c unit place, s.symbols.find? cls = some c ∧ c.completed = false ∧
      c.origin = .source unit place
  · obtain ⟨c, unit, place, hc, hcompleted, horigin⟩ := h
    refine .inr ⟨c, hc, by rw [ClassSymbol.isSource, horigin], hcompleted, unit, place,
      fun chain => ?_⟩
    obtain ⟨⟩ := c
    dsimp only at hcompleted horigin
    subst hcompleted horigin
    unfold complete
    rw [run_get_bind, hc]
    rfl
  · refine .inl ⟨fun c hc hsource => ?_, fun chain => ?_⟩
    · obtain ⟨unit, place, horigin⟩ := ClassSymbol.isSource_eq_true.mp hsource
      exact Bool.of_not_eq_false fun hopen => h ⟨c, unit, place, hc, hopen, horigin⟩
    · unfold complete
      rw [run_get_bind]
      split
      · next hfind => exact absurd ⟨_, _, _, hfind, rfl, rfl⟩ h
      · rfl

variable [IsPreorder (Session σ) R]

theorem moves_completeMarked {chain : String → SessionM σ (List String)} (h : Lookups R T)
    (hchain : ∀ (cls : String) {s : Session σ}, Moves R T s (chain cls) fun _ _ => True)
    {cls : String} (hcls : s.FromSource cls) (unit : Nat) (place : List Nat) :
    Moves R T s (completeMarked chain cls unit place) fun _ _ => True := by
  refine .get ?_
  split
  · split
    · split
      · exact NameScope.moves_completeMembers h ⟨h.toSearches, hchain⟩ hcls _
      · exact .pure trivial
    · exact .pure trivial
  · next hnone =>
      refine .throw (h.endless hcls (SymbolTable.enclosing?_eq_none.mp ?_))
      exact Option.eq_none_iff_forall_ne_some.mpr hnone

theorem moves_complete {chain : String → SessionM σ (List String)} (h : Lookups R T)
    (hchain : ∀ (cls : String) {s : Session σ}, Moves R T s (chain cls) fun _ _ => True)
    (cls : String) : Moves R T s (complete chain cls) fun _ _ => True := by
  rcases complete_cases cls s with ⟨-, hrun⟩ | ⟨c, hc, hsource, -, unit, place, hrun⟩
  · exact .of_run_ok (hrun chain) (refl_of R s) trivial
  · have hmark := h.mark ⟨c, hc, hsource⟩
    have hmarked := FromSource.of_extends ⟨c, hc, hsource⟩ (h.ext hmark)
    exact .after (hrun chain) hmark (moves_completeMarked h hchain hmarked unit place)

theorem moves_chainBehind {complete : String → SessionM σ Unit} (h : Lookups R T)
    (hcomplete : ∀ (cls : String) {s : Session σ}, Moves R T s (complete cls) fun _ _ => True) :
    ∀ (fuel : Nat) (done : List String) (cls : String) {s : Session σ},
      Moves R T s (chainBehind complete fuel done cls) fun _ _ => True
  | 0, _, _, _ => .pure trivial
  | fuel + 1, done, cls, _ => by
      unfold chainBehind
      split
      · exact .pure trivial
      · refine (h.find cls).bind fun _ _ _ _ => ?_
        split
        · refine (hcomplete cls).bind fun _ t _ _ => .get ?_
          split
          · exact moves_chainBehind h hcomplete fuel _ _
          · exact .pure trivial
        · exact .pure trivial

/-- Loading a class and its superclasses obeys what looking for classes and completing them obey. -/
theorem moves_loadChain (h : Lookups R T) (bound : Nat) : ∀ (depth : Nat) (cls : String)
    {s : Session σ}, Moves R T s (loadChain bound depth cls) fun _ _ => True
  | 0, _, _ => .pure trivial
  | depth + 1, cls, _ =>
      moves_chainBehind h (fun cls {_} => moves_complete h (moves_loadChain h bound depth) cls)
        bound [] cls

end SessionM

/-- The scope of a unit obeys what looking for classes and completing them obey. -/
theorem NameScope.Within.ofTree [IsPreorder (Session σ) R] (h : Lookups R T) (bound : Nat)
    (tree : UnitTree) (classes : List String) :
    (NameScope.ofTree (σ := σ) (loadChain bound bound) tree classes).Within R T :=
  ⟨h.toSearches, moves_loadChain h bound bound⟩

end ProbeLang
