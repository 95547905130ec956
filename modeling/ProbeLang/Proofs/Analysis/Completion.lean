import ProbeLang.Proofs.Analysis.Names
import ProbeLang.Analysis.Completion

/-!
# Completed classes agree with their declarations

Completing a class gives it the signatures of the members that it declares, with the types that are
written. A class that is marked as completed has got them as soon as its completion is over, so
between the completions there is none without.
-/

namespace ProbeLang

open SessionM Session

variable {σ : Type} {s t : Session σ} {P : Prop}

namespace NameScope

variable {ns : NameScope σ}

theorem keeps_superclassOf (hns : ns.Steady) (cls : String) (sup : Option TypeRef) :
    Keeps s P (ns.superclassOf cls sup) fun sup t =>
      sup = objectName ∨ t.symbols.has sup = true := by
  cases sup with
  | none => exact .pure fun _ _ => .inl rfl
  | some t =>
      refine (keeps_resolveType hns t).bind fun ty _ _ => ?_
      split
      · refine (hns _).bind_grows fun _ u hst => ?_
        split
        · exact .problem_bind fun _ => .pure fun _ _ => .inl rfl
        · exact .pure fun h _ => .inr (hst.has h.1.2.has_cls)
      · exact .pure fun _ _ => .inl rfl
      · exact .problem_bind fun _ => .pure fun _ _ => .inl rfl

theorem keeps_fieldSigs (hns : ns.Steady) (cls : String) : ∀ (fs : List FieldDecl)
    (done : List FieldSig) (before : List FieldDecl) {s : Session σ} {P : Prop},
    (P → List.Forall₂ (FieldSig.Written s.symbols) done.reverse before) →
    Keeps s P (ns.fieldSigs cls done fs) fun sigs t =>
      List.Forall₂ (FieldSig.Written t.symbols) sigs (before ++ fs)
  | [], done, before, _, _, hdone => .pure fun h _ => by
      rw [List.append_nil]
      exact hdone h
  | f :: rest, done, before, s, P, hdone => by
      unfold fieldSigs
      refine (keeps_resolveType hns f.type).bind_grows fun ty t hst => ?_
      dsimp only
      rw [List.append_cons]
      split
      · exact .problem_bind fun _ => keeps_fieldSigs hns cls rest _ _ fun h => h.elim
      · refine keeps_fieldSigs hns cls rest _ _ fun h => ?_
        rw [List.reverse_cons]
        exact List.rel_append ((hdone h.1).imp fun _ _ hf => hf.mono hst.has)
          (.cons ⟨rfl, rfl, h.2⟩ .nil)

theorem keeps_methodSigs (hns : ns.Steady) (cls : String) : ∀ (ms : List MethodDecl)
    (done : List MethodSig) (before : List MethodDecl) {s : Session σ} {P : Prop},
    (P → List.Forall₂ (MethodSig.Written s.symbols) done.reverse before) →
    Keeps s P (ns.methodSigs cls done ms) fun sigs t =>
      List.Forall₂ (MethodSig.Written t.symbols) sigs (before ++ ms)
  | [], done, before, _, _, hdone => .pure fun h _ => by
      rw [List.append_nil]
      exact hdone h
  | m :: rest, done, before, s, P, hdone => by
      unfold methodSigs
      refine (keeps_resolveType hns m.ret).bind_grows fun ret t hst => ?_
      refine (Keeps.mapM (R := fun ty (p : Param) t => p.type.Denotes t.symbols ty)
        (fun huv hp => hp.mono huv.has) m.params
        fun p _ u => keeps_resolveType hns p.type).bind_grows fun params u htu => ?_
      dsimp only
      rw [List.append_cons]
      split
      · exact .problem_bind fun _ => keeps_methodSigs hns cls rest _ _ fun h => h.elim
      · refine keeps_methodSigs hns cls rest _ _ fun h => ?_
        rw [List.reverse_cons]
        refine List.rel_append ((hdone h.1.1).imp fun _ _ hm => ?_)
          (.cons ⟨rfl, rfl, h.1.2.mono htu.has, h.2⟩ .nil)
        exact hm.mono (hst.toExtends.trans htu.toExtends).has

end NameScope

/-! ## Completion -/

/-- A declaration is known by its place. -/
theorem Session.Declares.eq_of_origin {d d' : DeclaredClass} (h : s.Declares d)
    (h' : s.Declares d') (horigin : d.symbol.origin = d'.symbol.origin) : d.decl = d'.decl := by
  obtain ⟨hunit, hplace⟩ : d.unit = d'.unit ∧ d.place = d'.place := by
    simpa [DeclaredClass.symbol] using horigin
  obtain ⟨e, he, hd⟩ := h
  obtain ⟨e', he', hd'⟩ := h'
  rw [← hunit, he] at he'
  cases he'
  have hat := (UnitTree.at?_of_mem_declared hd).1
  rw [hplace, (UnitTree.at?_of_mem_declared hd').1] at hat
  exact (Option.some.inj hat).symm

/-- The session with a class completed. -/
def Session.completeWith (s : Session σ) (cls superclass : String) (fields : List FieldSig)
    (methods : List MethodSig) : Session σ :=
  { s with
    symbols := s.symbols.modify cls fun c =>
      { c with superclass := some superclass, fields := fields, methods := methods } }

theorem extends_completeWith {cls : String} (hcls : s.FromSource cls) (superclass : String)
    (fields : List FieldSig) (methods : List MethodSig) :
    s.Extends (s.completeWith cls superclass fields methods) :=
  .of_modify hcls (fun _ => rfl) (fun _ _ => rfl) fun _ h => h

theorem find?_completeWith {cls superclass : String} {fields : List FieldSig}
    {methods : List MethodSig} {name : String} {c : ClassSymbol}
    (h : (s.completeWith cls superclass fields methods).symbols.find? name = some c) :
    ∃ c', s.symbols.find? name = some c' ∧
      (name ≠ cls ∧ c = c' ∨
        name = cls ∧
          c = { c' with superclass := some superclass, fields := fields, methods := methods }) := by
  rw [Session.completeWith, Table.find?_modify] at h
  split at h
  · next hname =>
      obtain ⟨c', hc', hc⟩ := Option.map_eq_some_iff.mp h
      exact ⟨c', hc', .inr ⟨hname, hc.symm⟩⟩
  · next hname => exact ⟨c, h, .inl ⟨hname, rfl⟩⟩

/-- Completing a class with the signatures of its declaration keeps a session sound. -/
theorem advances_completeWith {cls superclass : String} {fields : List FieldSig}
    {methods : List MethodSig} {d : DeclaredClass} (hs : s.Sound) (hd : s.Declares d)
    (hcls : d.binary = cls) (hcompleted : ∀ c, s.symbols.find? cls = some c → c.completed = true)
    (hsuper : superclass = objectName ∨ s.symbols.has superclass = true)
    (hfields : List.Forall₂ (FieldSig.Written s.symbols) fields d.decl.fields)
    (hmethods : List.Forall₂ (MethodSig.Written s.symbols) methods d.decl.methods) :
    s.Advances (s.completeWith cls superclass fields methods) where
  sound := by
    have hsource : s.FromSource cls := by
      obtain ⟨c, hc, hentered⟩ := hs.declared hd
      exact ⟨c, hcls ▸ hc, by rw [← c.isSource_entered, hentered]; rfl⟩
    have hext := extends_completeWith hsource superclass fields methods
    have hmade {c : ClassSymbol} (hc : s.symbols.find? cls = some c) :
        ClassSymbol.Written s.symbols
          { c with superclass := some superclass, fields := fields, methods := methods } d.decl :=
      ⟨hcompleted c hc, hfields, hmethods⟩
    refine ⟨fun {d'} hd' => ?_, fun hc hsource => ?_, fun hc hbuiltin => ?_, fun hc => ?_,
      fun hc => ?_, fun hc hsource => ?_⟩
    · obtain ⟨c, hc, hentered⟩ := hs.declared hd'
      obtain ⟨c', hc', hentered'⟩ := hext.find? hc
      exact ⟨c', hc', hentered'.trans hentered⟩
    · obtain ⟨c', hc', ⟨hname, rfl⟩ | ⟨rfl, rfl⟩⟩ := find?_completeWith hc
      · obtain ⟨d', hd', hbinary, hentered, hwritten⟩ := hs.origin hc' hsource
        exact ⟨d', hd', hbinary, hentered, fun h => (hwritten h).mono hext.has⟩
      · obtain ⟨d', hd', hbinary, hentered, -⟩ := hs.origin hc' hsource
        obtain ⟨c'', hc'', hentered'⟩ := hs.declared hd
        rw [hcls, hc'] at hc''
        cases hc''
        have hdecl : d'.decl = d.decl := by
          refine hd'.eq_of_origin hd ?_
          rw [← hentered, hentered']
        exact ⟨d', hd', hbinary, hentered, fun _ => hdecl ▸ (hmade hc').mono hext.has⟩
    · obtain ⟨c', hc', ⟨-, rfl⟩ | ⟨rfl, rfl⟩⟩ := find?_completeWith hc
      · exact hs.builtin hc' hbuiltin
      · obtain ⟨c'', hc'', hentered⟩ := hs.declared hd
        rw [hcls, hc'] at hc''
        cases hc''
        have horigin := congrArg ClassSymbol.origin hentered
        rw [show c'.entered.origin = .builtin from hbuiltin] at horigin
        cases horigin
    · obtain ⟨c', hc', ⟨-, rfl⟩ | ⟨rfl, rfl⟩⟩ := find?_completeWith hc
      · exact hs.named hc'
      · exact (hs.named hc' :)
    · obtain ⟨c', hc', ⟨-, rfl⟩ | ⟨rfl, rfl⟩⟩ := find?_completeWith hc
      · exact hs.known hc'
      · exact (hmade hc').known
    · obtain ⟨c', hc', ⟨-, rfl⟩ | ⟨rfl, rfl⟩⟩ := find?_completeWith hc
      · exact (hs.staged hc' hsource).mono hext.has
      · refine ⟨nofun, fun sup hsup => ?_⟩
        cases hsup
        exact hsuper.imp_right hext.has
  settled := by
    rintro name ⟨c, hc, hsource, hcompleted, hsuper⟩
    obtain ⟨c', hc', ⟨-, rfl⟩ | ⟨rfl, rfl⟩⟩ := find?_completeWith hc
    · exact ⟨c, hc', hsource, hcompleted, hsuper⟩
    · cases hsuper
  todo := by
    rw [Session.completeWith, List.drop_length, topClasses, List.append_nil]

theorem NameScope.keeps_completeMembers {ns : NameScope σ} (hns : ns.Steady) {cls : String}
    {decl : ClassDecl} (hcls : s.FromSource cls) (hd : P → ∃ d, s.Declares d ∧ d.binary = cls ∧ d.decl = decl)
    (hcompleted : P → ∃ c, s.symbols.find? cls = some c ∧ c.completed = true) :
    Keeps s P (ns.completeMembers cls decl) fun _ t =>
      ∀ c, t.symbols.find? cls = some c → c.superclass.isSome = true := by
  unfold completeMembers
  refine (keeps_superclassOf hns cls decl.superclass).bind_grows fun superclass t hst => ?_
  refine (keeps_fieldSigs hns cls decl.fields [] [] fun _ => .nil).bind_grows
    fun fields u htu => ?_
  refine (keeps_methodSigs hns cls decl.methods [] [] fun _ => .nil).bind_grows
    fun methods v huv => ?_
  have hsv := (hst.toExtends.trans htu.toExtends).trans huv.toExtends
  have hext := extends_completeWith (hcls.of_extends hsv) superclass fields methods
  refine .of_run (t := v.completeWith cls superclass fields methods) (run_modify v _)
    (.of_extends hext rfl) fun _ hP hv _ => ?_
  obtain ⟨⟨⟨hP, hsuper⟩, hfields⟩, hmethods⟩ := hP
  obtain ⟨d, hdeclares, hcls, rfl⟩ := hd hP
  have hmarked : ∀ c, v.symbols.find? d.binary = some c → c.completed = true := by
    intro c hc
    obtain ⟨c', hc', hcompleted'⟩ := hcompleted hP
    obtain ⟨c'', hc'', hcompleted''⟩ := hsv.completed (hcls ▸ hc') hcompleted'
    rw [hc] at hc''
    cases hc''
    exact hcompleted''
  refine ⟨advances_completeWith hv (hdeclares.of_extends hsv) hcls (hcls ▸ hmarked)
    (hsuper.imp_right (htu.toExtends.trans huv.toExtends).has) (hfields.imp fun _ _ hf => hf.mono huv.has) hmethods, fun c hc => ?_⟩
  obtain ⟨c', hc', ⟨hne, -⟩ | ⟨-, rfl⟩⟩ := find?_completeWith hc
  · exact absurd rfl hne
  · rfl

namespace SessionM

/-- A class as it is marked before it is completed. -/
def markCompleted (s : Session σ) (cls : String) : Session σ :=
  { s with symbols := s.symbols.modify cls fun c => { c with completed := true } }

theorem extends_markCompleted {cls : String} (hcls : s.FromSource cls) :
    s.Extends (markCompleted s cls) :=
  .of_modify hcls (fun _ => rfl) (fun _ h => h) fun _ _ => rfl

theorem find?_markCompleted {cls name : String} {c : ClassSymbol}
    (h : (markCompleted s cls).symbols.find? name = some c) :
    ∃ c', s.symbols.find? name = some c' ∧
      (c = c' ∨ name = cls ∧ c = { c' with completed := true }) := by
  rw [markCompleted, Table.find?_modify] at h
  split at h
  · next hname =>
      obtain ⟨c', hc', hc⟩ := Option.map_eq_some_iff.mp h
      exact ⟨c', hc', .inr ⟨hname, hc.symm⟩⟩
  · exact ⟨c, h, .inl rfl⟩

theorem find?_marked {cls : String} {c : ClassSymbol} (h : s.symbols.find? cls = some c) :
    (markCompleted s cls).symbols.find? cls = some { c with completed := true } := by
  rw [markCompleted, Table.find?_modify, if_pos rfl, h, Option.map_some]

theorem sound_markCompleted (hs : s.Sound) {cls : String} (hcls : s.FromSource cls) :
    (markCompleted s cls).Sound where
  declared hd := by
    obtain ⟨c, hc, hentered⟩ := hs.declared hd
    obtain ⟨c', hc', hentered'⟩ := (extends_markCompleted hcls).find? hc
    exact ⟨c', hc', hentered'.trans hentered⟩
  origin hc hsource := by
    obtain ⟨c', hc', rfl | ⟨-, rfl⟩⟩ := find?_markCompleted hc
    · obtain ⟨d, hd, hname, hentered, hwritten⟩ := hs.origin hc' hsource
      exact ⟨d, hd, hname, hentered,
        fun h => (hwritten h).mono (extends_markCompleted hcls).has⟩
    · obtain ⟨d, hd, hname, hentered, hwritten⟩ := hs.origin hc' hsource
      refine ⟨d, hd, hname, hentered, fun h => ?_⟩
      have hmarked := (hwritten h).mono (extends_markCompleted hcls).has
      exact ⟨rfl, hmarked.fields, hmarked.methods⟩
  builtin hc hbuiltin := by
    obtain ⟨c', hc', rfl | ⟨rfl, rfl⟩⟩ := find?_markCompleted hc
    · exact hs.builtin hc' hbuiltin
    · have hfound := hs.builtin hc' hbuiltin
      rw [hfound, ← (SymbolTable.builtin_of_find? hfound).completed]
  named hc := by
    obtain ⟨c', hc', rfl | ⟨-, rfl⟩⟩ := find?_markCompleted hc
    · exact hs.named hc'
    · exact (hs.named hc' :)
  known hc := by
    obtain ⟨c', hc', rfl | ⟨-, rfl⟩⟩ := find?_markCompleted hc
    · exact hs.known hc'
    · have hknown := hs.known hc'
      exact ⟨hknown.fields, hknown.params, hknown.methods⟩
  staged hc hsource := by
    obtain ⟨c', hc', rfl | ⟨-, rfl⟩⟩ := find?_markCompleted hc
    · exact (hs.staged hc' hsource).mono (extends_markCompleted hcls).has
    · have hstaged := (hs.staged hc' hsource).mono (extends_markCompleted hcls).has
      exact ⟨hstaged.members, hstaged.superclass⟩

/-- A class that is marked and then given its signatures is settled. -/
theorem keeps_marked {m : SessionM σ Unit} {cls : String} (hcls : s.FromSource cls)
    (hm : Keeps (markCompleted s cls) (P ∧ s.Sound) m fun _ t =>
      ∀ c, t.symbols.find? cls = some c → c.superclass.isSome = true) :
    Keeps s P (set (markCompleted s cls) >>= fun _ => m) fun _ t =>
      ∀ c, t.symbols.find? cls = some c → c.superclass.isSome = true := by
  have hmark : s.Grows (markCompleted s cls) := .of_extends (extends_markCompleted hcls) rfl
  refine .of_run (r := (m.run.run (markCompleted s cls)).1) rfl (hmark.trans hm.grows)
    fun hr hP hs herrors => ?_
  obtain ⟨hadvances, hsettled⟩ := hm.advances hr ⟨hP, hs⟩ (sound_markCompleted hs hcls) herrors
  refine ⟨⟨hadvances.sound, fun hname => ?_, hadvances.todo⟩, hsettled⟩
  obtain ⟨c, hc, hrest⟩ := hadvances.settled hname
  obtain ⟨c', hc', rfl | ⟨rfl, rfl⟩⟩ := find?_markCompleted hc
  · exact ⟨c, hc', hrest⟩
  · obtain ⟨c'', hc'', -, -, hsuper⟩ := hname
    have hsome := hsettled c'' hc''
    rw [hsuper] at hsome
    cases hsome

/-- Completing a class leaves it with the signatures that it declares, unless it is just being
completed further out. -/
theorem keeps_complete {chain : String → SessionM σ (List String)}
    (hchain : ∀ (cls : String) {s : Session σ} {P : Prop},
      Keeps s P (chain cls) fun _ _ => True) (cls : String) :
    Keeps s P (complete chain cls) fun _ t =>
      ∀ c, t.symbols.find? cls = some c → c.isSource = true →
        c.completed = true ∨ c.superclass.isSome = true := by
  unfold complete
  refine .get ?_
  split
  · next binary package simple outer sup members fields methods deprecated unit place hfind =>
      have hdeclared (hs : s.Sound) : ∃ d, s.Declares d ∧ d.binary = cls ∧ d.unit = unit ∧
          d.place = place := by
        obtain ⟨d, hd, hbinary, hentered, -⟩ := hs.origin hfind rfl
        have horigin := congrArg ClassSymbol.origin hentered
        simp only [ClassSymbol.entered, DeclaredClass.symbol, Origin.source.injEq] at horigin
        exact ⟨d, hd, hbinary, horigin.1.symm, horigin.2.symm⟩
      have hcls : s.FromSource cls := ⟨_, hfind, rfl⟩
      refine (keeps_marked hcls ?_).mono id fun _ t _ hq c hc _ => .inr (hq c hc)
      split
      swap
      · exact .throw
      cases he : s.sources[unit]? with
      | none =>
          refine .pure fun hP _ => ?_
          obtain ⟨d, ⟨e, he', -⟩, -, rfl, -⟩ := hdeclared hP.2
          rw [he] at he'
          cases he'
      | some entry =>
          dsimp only
          cases hat : entry.tree.at? place with
          | none =>
              refine .pure fun hP _ => ?_
              obtain ⟨d, ⟨e, he', hd⟩, -, rfl, rfl⟩ := hdeclared hP.2
              rw [he] at he'
              cases he'
              rw [(UnitTree.at?_of_mem_declared hd).1] at hat
              cases hat
          | some decl =>
              have hns (classes : List String) :
                  (NameScope.ofTree chain entry.tree classes).Steady := fun cls => hchain cls
              refine NameScope.keeps_completeMembers (hns _)
                (hcls.of_extends (extends_markCompleted hcls)) (fun hP => ?_)
                fun _ => ⟨_, find?_marked hfind, rfl⟩
              obtain ⟨d, ⟨e, he', hd⟩, hbinary, rfl, rfl⟩ := hdeclared hP.2
              have hdeclares : s.Declares d := ⟨e, he', hd⟩
              rw [he] at he'
              cases he'
              rw [(UnitTree.at?_of_mem_declared hd).1] at hat
              exact ⟨d, hdeclares.of_extends (extends_markCompleted hcls), hbinary,
                Option.some.inj hat⟩
  · next hnot =>
      refine .pure fun _ _ c hc hsource => .inl ?_
      obtain ⟨binary, package, simple, outer, sup, members, fields, methods, deprecated, origin,
        completed⟩ := c
      cases completed with
      | true => rfl
      | false =>
          cases origin with
          | source unit place => exact (hnot _ _ _ _ _ _ _ _ _ _ _ hc).elim
          | classPath | builtin => cases hsource

theorem keeps_chainBehind {complete : String → SessionM σ Unit}
    (hcomplete : ∀ (cls : String) {s : Session σ} {P : Prop},
      Keeps s P (complete cls) fun _ _ => True) :
    ∀ (fuel : Nat) (done : List String) (cls : String) {s : Session σ} {P : Prop},
      Keeps s P (chainBehind complete fuel done cls) fun _ _ => True
  | 0, _, _, _, _ => .pure fun _ _ => trivial
  | fuel + 1, done, cls, _, _ => by
      unfold chainBehind
      split
      · exact .pure fun _ _ => trivial
      · refine (keeps_findClass cls).bind fun _ _ _ => ?_
        split
        · refine (hcomplete cls).bind fun _ t _ => .get ?_
          split
          · exact keeps_chainBehind hcomplete fuel _ _
          · exact .pure fun _ _ => trivial
        · exact .pure fun _ _ => trivial

/-- Loading a class and its superclasses keeps a session sound. -/
theorem keeps_loadChain (bound : Nat) : ∀ (depth : Nat) (cls : String) {s : Session σ} {P : Prop},
    Keeps s P (loadChain bound depth cls) fun _ _ => True
  | 0, _, _, _ => .pure fun _ _ => trivial
  | depth + 1, cls, _, _ =>
      keeps_chainBehind (fun cls {_ _} => (keeps_complete (keeps_loadChain bound depth) cls).weaken)
        bound [] cls

end SessionM

end ProbeLang
