import ProbeLang.Proofs.Analysis.Resolution
import ProbeLang.Proofs.Related

/-!
# Steps that do the same

A scope has a function that loads superclasses. If another one does the same wherever the scope may
use it, names mean the same with the one as with the other (`NameScope.Admits`), and classes are
completed in the same way. So the bounds of that function do not matter as long as they are large
enough.
-/

namespace ProbeLang

open SessionM Session

namespace SessionM

variable {σ α β : Type} {P P' : Session σ → Prop} {R : Session σ → Session σ → Prop}
  {T : TaskFault → Session σ → Session σ → Prop} {s t : Session σ} {m m' : SessionM σ α}
  {f f' : α → SessionM σ β} {Q : α → Session σ → Prop}

/-- Whether two steps do the same at a session, and keep a property of sessions up to an answer. -/
structure Coincide (P : Session σ → Prop) (s : Session σ) (m m' : SessionM σ α) : Prop where
  same : m.run.run s = m'.run.run s
  keeps : ∀ {a t}, m.run.run s = (.ok a, t) → P t

namespace Coincide

theorem of_moves (hP : ∀ {t}, R s t → P t) (h : Moves R T s m Q) : Coincide P s m m :=
  ⟨rfl, fun hrun => hP (h.answers hrun).1⟩

theorem mono (h : Coincide P s m m') (hP : ∀ {t}, P t → P' t) : Coincide P' s m m' :=
  ⟨h.same, fun hrun => hP (h.keeps hrun)⟩

theorem pure (hs : P s) (a : α) : Coincide P s (pure a) (pure a) := by
  refine ⟨rfl, fun hrun => ?_⟩
  cases hrun
  exact hs

theorem throw (e : TaskFault) : Coincide P s (throw e : SessionM σ α) (throw e) :=
  ⟨rfl, fun hrun => by cases hrun⟩

/-- Steps that go on with others where the same first part has led to. -/
theorem after {m₁ m₁' : SessionM σ α} (h : m.run.run s = m₁.run.run t)
    (h' : m'.run.run s = m₁'.run.run t) (hrest : Coincide P t m₁ m₁') : Coincide P s m m' :=
  ⟨(h.trans hrest.same).trans h'.symm, fun hrun => hrest.keeps (h ▸ hrun)⟩

theorem get {f f' : Session σ → SessionM σ β} (h : Coincide P s (f s) (f' s)) :
    Coincide P s (MonadState.get >>= f) (MonadState.get >>= f') :=
  ⟨h.same, h.keeps⟩

/-- Sequences of two steps. The second ones may use how the first ones have ended. -/
theorem bind (hm : Coincide P s m m')
    (hf : ∀ a t, m.run.run s = (.ok a, t) → P t → Coincide P' t (f a) (f' a)) :
    Coincide P' s (m >>= f) (m' >>= f') := by
  rcases hrun : m.run.run s with ⟨e | a, t⟩
  · rw [hm.same] at hrun
    refine ⟨?_, fun h => ?_⟩
    · rw [run_bind_error hrun, run_bind_error (hm.same ▸ hrun)]
    · rw [run_bind_error (hm.same ▸ hrun)] at h
      cases h
  · exact (hf a t hrun (hm.keeps hrun)).after (run_bind_ok hrun) (run_bind_ok (hm.same ▸ hrun))

/-- A first step that is the same in both sequences. -/
theorem bind_same (hP : ∀ {t}, R s t → P t) (hm : Moves R T s m Q)
    (hf : ∀ a t, P t → Coincide P t (f a) (f' a)) : Coincide P s (m >>= f) (m >>= f') :=
  (of_moves hP hm).bind fun a t _ ht => hf a t ht

theorem findSomeM? {ms ms' : List (SessionM σ (Option α))}
    (h : List.Forall₂ (fun m m' => ∀ {t}, P t → Coincide P t m m') ms ms') (hs : P s) :
    Coincide P s (ms.findSomeM? id) (ms'.findSomeM? id) := by
  induction h generalizing s with
  | nil => exact pure hs none
  | cons hm _ ih =>
      rw [List.findSomeM?_cons, List.findSomeM?_cons]
      refine (hm hs).bind fun r t _ ht => ?_
      cases r with
      | some a => exact pure ht _
      | none => exact ih ht

theorem mapM {f f' : β → SessionM σ α} (hf : ∀ b {t}, P t → Coincide P t (f b) (f' b)) :
    ∀ (bs : List β) {s : Session σ}, P s → Coincide P s (bs.mapM f) (bs.mapM f')
  | [], _, hs => pure hs []
  | b :: bs, s, hs => by
      rw [List.mapM_cons, List.mapM_cons]
      refine (hf b hs).bind fun _ _ _ ht => ?_
      exact (mapM hf bs ht).bind fun _ _ _ hu => pure hu _

end Coincide

end SessionM

/-! ## Scopes -/

namespace NameScope

variable {σ : Type} {s : Session σ} {R : Session σ → Session σ → Prop}
  {T : TaskFault → Session σ → Session σ → Prop} {P : Session σ → Prop} {ns : NameScope σ}
  {other : String → SessionM σ (List String)}

/-- The scope with another function that loads superclasses. -/
def withChain (ns : NameScope σ) (chain : String → SessionM σ (List String)) : NameScope σ :=
  { ns with chain }

/-- Whether another function that loads superclasses does the same in a scope, as far as a property
of sessions goes that what the scope does keeps. -/
structure Admits (ns : NameScope σ) (R : Session σ → Session σ → Prop)
    (T : TaskFault → Session σ → Session σ → Prop) (P : Session σ → Prop)
    (other : String → SessionM σ (List String)) : Prop extends ns.Within R T where
  keeps : ∀ {s t : Session σ}, P s → R s t → P t
  same : ∀ (cls : String) {s : Session σ}, P s → Coincide P s (ns.chain cls) (other cls)

variable [IsPreorder (Session σ) R] (hns : ns.Admits R T P other)

include hns

/-! ## Names -/

theorem coincide_memberType (cls simple : String) (hs : P s) :
    Coincide P s (ns.memberType cls simple) ((ns.withChain other).memberType cls simple) :=
  (hns.same cls hs).bind fun _ _ _ ht =>
    .of_moves (hns.keeps ht) (moves_memberTypeOf hns.toWithin simple _)

theorem coincide_lookupQualified : ∀ (segments : List String) {s : Session σ}, P s →
    Coincide P s (ns.lookupQualified segments) ((ns.withChain other).lookupQualified segments)
  | [], _, hs => .pure hs none
  | last :: above, s, hs => by
      unfold lookupQualified
      refine .bind_same (hns.keeps hs) (hns.knows _) fun found t ht => ?_
      split
      · exact .pure ht _
      · refine (coincide_lookupQualified above ht).bind fun outer u _ hu => ?_
        cases outer with
        | none => exact .pure hu none
        | some outer => exact coincide_memberType hns outer last hu

theorem coincide_resolveSimple (simple : String) (hs : P s) :
    Coincide P s (ns.resolveSimple simple) ((ns.withChain other).resolveSimple simple) := by
  have hmap {β : Type} {f f' : β → SessionM σ (Option String)}
      (hf : ∀ b {t}, P t → Coincide P t (f b) (f' b)) (bs : List β) :
      List.Forall₂ (fun m m' => ∀ {t}, P t → Coincide P t m m') (bs.map f) (bs.map f') := by
    rw [List.forall₂_map_left_iff, List.forall₂_map_right_iff]
    exact List.forall₂_same.mpr fun b _ => hf b
  refine .findSomeM? ?_ hs
  unfold simpleLookups
  refine List.rel_append (List.rel_append (List.rel_append ?_ ?_) (.cons ?_ (.cons ?_ .nil))) ?_
  · exact hmap (fun cls _ ht => coincide_memberType hns cls simple ht) _
  · exact hmap (fun i _ ht => coincide_lookupQualified hns _ ht) _
  · exact fun ht => .of_moves (hns.keeps ht) (moves_lookupIn hns.toWithin ns.package simple)
  · exact fun ht => .of_moves (hns.keeps ht) (moves_builtin (T := T) simple)
  · exact hmap (fun i _ ht => coincide_lookupQualified hns _ ht) _

theorem coincide_nestedType : ∀ (simples : List String) (cls : String) {s : Session σ}, P s →
    Coincide P s (ns.nestedType cls simples) ((ns.withChain other).nestedType cls simples)
  | [], cls, _, hs => .pure hs (some cls)
  | simple :: rest, cls, s, hs => by
      unfold nestedType
      refine (coincide_memberType hns cls simple hs).bind fun nested t _ ht => ?_
      cases nested with
      | none => exact .pure ht none
      | some nested => exact coincide_nestedType rest nested ht

theorem coincide_resolvePath (segments : List String) (hs : P s) :
    Coincide P s (ns.resolvePath segments) ((ns.withChain other).resolvePath segments) := by
  cases segments with
  | nil => exact .pure hs none
  | cons first rest =>
      refine (coincide_resolveSimple hns first hs).bind fun found t _ ht => ?_
      cases found with
      | some cls => exact coincide_nestedType hns rest cls ht
      | none =>
          refine .bind_same (hns.keeps ht) (moves_packagedType hns.toWithin rest [first])
            fun found u hu => ?_
          cases found with
          | some found => exact coincide_nestedType hns found.2 found.1 hu
          | none => exact .pure hu none

theorem coincide_resolveType (type : TypeRef) (hs : P s) :
    Coincide P s (ns.resolveType type) ((ns.withChain other).resolveType type) := by
  have hbase : Coincide P s (ns.resolveBase type.base)
      ((ns.withChain other).resolveBase type.base) := by
    cases type.base with
    | named path =>
        refine (coincide_resolvePath hns path.segments hs).bind fun found t _ ht => ?_
        cases found with
        | some cls =>
            refine .bind_same (hns.keeps ht) (hns.of_quiet (quiet_checkDeprecated cls path.pos))
              fun _ u hu => ?_
            exact .pure hu _
        | none =>
            refine .bind_same (hns.keeps ht) (hns.problem _ _ _) fun _ u hu => ?_
            exact .pure hu _
    | void | int | long | boolean => exact .pure hs _
  refine hbase.bind fun ty t _ ht => ?_
  split
  · exact .pure ht _
  · exact .pure ht _

/-! ## Completion -/

theorem coincide_superclassOf (cls : String) (sup : Option TypeRef) (hs : P s) :
    Coincide P s (ns.superclassOf cls sup) ((ns.withChain other).superclassOf cls sup) := by
  cases sup with
  | none => exact .pure hs _
  | some type =>
      refine (coincide_resolveType hns type hs).bind fun ty t _ ht => ?_
      split
      · refine (hns.same _ ht).bind fun sups u _ hu => ?_
        split
        · exact .bind_same (hns.keeps hu) (hns.problem _ _ _) fun _ v hv => .pure hv _
        · exact .pure hu _
      · exact .pure ht _
      · exact .bind_same (hns.keeps ht) (hns.problem _ _ _) fun _ u hu => .pure hu _

theorem coincide_fieldSigs (cls : String) : ∀ (fs : List FieldDecl) (done : List FieldSig)
    {s : Session σ}, P s →
      Coincide P s (ns.fieldSigs cls done fs) ((ns.withChain other).fieldSigs cls done fs)
  | [], done, _, hs => .pure hs done.reverse
  | f :: rest, done, s, hs => by
      unfold fieldSigs
      refine (coincide_resolveType hns f.type hs).bind fun ty t _ ht => ?_
      dsimp only
      split
      · exact .bind_same (hns.keeps ht) (hns.problem _ _ _) fun _ u hu =>
          coincide_fieldSigs cls rest _ hu
      · exact coincide_fieldSigs cls rest _ ht

theorem coincide_methodSigs (cls : String) : ∀ (ms : List MethodDecl) (done : List MethodSig)
    {s : Session σ}, P s →
      Coincide P s (ns.methodSigs cls done ms) ((ns.withChain other).methodSigs cls done ms)
  | [], done, _, hs => .pure hs done.reverse
  | m :: rest, done, s, hs => by
      unfold methodSigs
      refine (coincide_resolveType hns m.ret hs).bind fun ret t _ ht => ?_
      have hparams := Coincide.mapM (P := P) (fun p _ hp => coincide_resolveType hns p.type hp)
        m.params ht
      refine hparams.bind fun params u _ hu => ?_
      dsimp only
      split
      · exact .bind_same (hns.keeps hu) (hns.problem _ _ _) fun _ v hv =>
          coincide_methodSigs cls rest _ hv
      · exact coincide_methodSigs cls rest _ hu

/-- The signatures of a class from source are the same. -/
theorem coincide_completeMembers (h : Lookups R T) {cls : String} (hcls : s.FromSource cls)
    (decl : ClassDecl) (hs : P s) :
    Coincide P s (ns.completeMembers cls decl) ((ns.withChain other).completeMembers cls decl) := by
  have hsame : Coincide (fun _ => True) s (ns.completeMembers cls decl)
      ((ns.withChain other).completeMembers cls decl) := by
    refine (coincide_superclassOf hns cls decl.superclass hs).bind fun superclass t _ ht => ?_
    refine (coincide_fieldSigs hns cls decl.fields [] ht).bind fun fields u _ hu => ?_
    refine (coincide_methodSigs hns cls decl.methods [] hu).bind fun methods v _ _ => ?_
    exact ⟨rfl, fun _ => trivial⟩
  exact ⟨hsame.same, fun hrun =>
    hns.keeps hs ((moves_completeMembers h hns.toWithin hcls decl).answers hrun).1⟩

end NameScope

end ProbeLang
