import ProbeLang.Analysis.Class
import ProbeLang.Proofs.Analysis.Names
import ProbeLang.Proofs.Session.Supertypes

/-!
# Looking members up in different sessions

Where a class and its superclasses are loaded, loading them changes nothing. So two sessions that have
completed them and tell the same of them find the same fields and the same methods, and choose the
same method for a call (`BodyScope.callOn_agrees`), wherever their symbols come from.
-/

namespace ProbeLang

open SessionM

variable {σ τ α β : Type} {s : Session σ} {s' : Session τ}

/-- Whether a class is known and completed. -/
def Session.Completed (s : Session σ) (cls : String) : Prop :=
  ∃ c, s.symbols.find? cls = some c ∧ c.completed = true

theorem Session.Completed.has {cls : String} (h : s.Completed cls) : s.symbols.has cls = true := by
  obtain ⟨c, hc, -⟩ := h
  exact Table.has_eq_true.mpr ⟨c, hc⟩

/-- Whether a class has been looked for in vain. -/
structure Session.Missed (s : Session σ) (cls : String) : Prop where
  unknown : s.symbols.has cls = false
  missing : cls ∈ s.missing

/-- Whether a class and its superclasses are loaded: all of them are completed, but the last one may
be missing. -/
def Session.Loaded (s : Session σ) (cls : String) : Prop :=
  ∀ sup ∈ s.symbols.supertypes cls, s.Completed sup ∨ s.Missed sup

/-- Whether two sessions have completed a class with all its superclasses, and tell the same of
them. -/
structure Session.Share (s : Session σ) (s' : Session τ) (cls : String) : Prop where
  agrees : s.symbols.Agrees s'.symbols cls
  left : ∀ sup ∈ s.symbols.supertypes cls, s.Completed sup
  right : ∀ sup ∈ s.symbols.supertypes cls, s'.Completed sup

namespace SessionM

/-! ## Loading what is known -/

theorem run_findWith {find : String → SessionM σ Bool} {name : String}
    (h : s.symbols.has name = true) : (findWith find name).run.run s = (.ok true, s) := by
  unfold findWith
  rw [run_get_bind, if_pos h]
  rfl

theorem run_findClass {name : String} (h : s.symbols.has name = true) :
    (findClass name).run.run s = (.ok true, s) := by
  unfold findClass
  dsimp only
  split
  · exact run_findWith h
  · exact run_findWith h

theorem run_findWith_missed {find : String → SessionM σ Bool} {name : String}
    (h : s.Missed name) : (findWith find name).run.run s = (.ok false, s) := by
  unfold findWith
  rw [run_get_bind, if_neg (by rw [h.unknown]; exact Bool.false_ne_true),
    if_pos (List.contains_iff_mem.mpr h.missing)]
  rfl

/-- A class that has been looked for in vain is not looked for again. -/
theorem run_findClass_missed {name : String} (h : s.Missed name) :
    (findClass name).run.run s = (.ok false, s) := by
  unfold findClass
  dsimp only
  split
  · exact run_findWith_missed h
  · exact run_findWith_missed h

/-- A class that is completed is left as it is. -/
theorem run_complete {chain : String → SessionM σ (List String)} {cls : String} {c : ClassSymbol}
    (hc : s.symbols.find? cls = some c) (hcompleted : c.completed = true) :
    (complete chain cls).run.run s = (.ok (), s) := by
  unfold complete
  rw [run_get_bind, hc]
  split
  · next heq =>
      cases heq
      cases hcompleted
  · rfl

theorem run_chainBehind {chain : String → SessionM σ (List String)} :
    ∀ {fuel : Nat} {done : List String} {cls : String},
      (∀ sup ∈ s.symbols.chainFrom fuel done cls, s.Completed sup ∨ s.Missed sup) →
      (chainBehind (complete chain) fuel done cls).run.run s =
        (.ok (done.reverse ++ (s.symbols.chainFrom fuel done cls).filter s.symbols.has), s)
  | 0, done, cls, _ => by
      rw [SymbolTable.chainFrom, List.filter_nil, List.append_nil]
      rfl
  | fuel + 1, done, cls, h => by
      unfold SymbolTable.chainFrom at h
      unfold chainBehind SymbolTable.chainFrom
      by_cases hdone : done.contains cls = true
      · rw [if_pos hdone, if_pos hdone, List.filter_nil, List.append_nil]
        rfl
      · rw [if_neg hdone] at h ⊢
        rw [if_neg hdone]
        obtain ⟨⟨c, hc, hcompleted⟩ | hmissed, hrest⟩ := List.forall_mem_cons.mp h
        · have hhas : s.symbols.has cls = true := Table.has_eq_true.mpr ⟨c, hc⟩
          rw [run_bind_ok (run_findClass hhas), if_pos rfl, run_bind_ok (run_complete hc hcompleted),
            run_get_bind, List.filter_cons_of_pos hhas]
          cases hsuper : s.symbols.superclass? cls with
          | none =>
              rw [List.reverse_cons]
              rfl
          | some above =>
              rw [hsuper] at hrest
              dsimp only at hrest ⊢
              rw [run_chainBehind hrest, List.reverse_cons, List.append_assoc,
                List.singleton_append]
        · have hsuper : s.symbols.superclass? cls = none := by
            rw [SymbolTable.superclass?, Table.has_eq_false.mp hmissed.unknown, Option.bind_none]
          rw [run_bind_ok (run_findClass_missed hmissed), if_neg Bool.false_ne_true, hsuper,
            List.filter_cons_of_neg (by rw [hmissed.unknown]; exact Bool.false_ne_true),
            List.filter_nil, List.append_nil]
          rfl

/-- Loading a class that is loaded gives the superclasses that are known and changes nothing. -/
theorem run_loadChain {bound depth : Nat} {cls : String} (hbound : s.symbols.length < bound)
    (h : s.Loaded cls) : (loadChain bound (depth + 1) cls).run.run s =
      (.ok ((s.symbols.supertypes cls).filter s.symbols.has), s) := by
  have hchain : s.symbols.chainFrom bound [] cls = s.symbols.supertypes cls :=
    SymbolTable.chainFrom_eq_supertypes hbound
  unfold Session.Loaded at h
  rw [← hchain] at h ⊢
  exact run_chainBehind h

/-! ## Steps in two sessions -/

/-- Whether two steps give the same answer and leave their sessions as they are. -/
def Concur (s : Session σ) (m : SessionM σ α) (s' : Session τ) (m' : SessionM τ α) : Prop :=
  ∃ a, m.run.run s = (.ok a, s) ∧ m'.run.run s' = (.ok a, s')

namespace Concur

theorem pure (a : α) : Concur s (pure a) s' (pure a) :=
  ⟨a, rfl, rfl⟩

theorem bind {m : SessionM σ α} {m' : SessionM τ α} {f : α → SessionM σ β} {f' : α → SessionM τ β}
    (h : Concur s m s' m') (hf : ∀ a, Concur s (f a) s' (f' a)) :
    Concur s (m >>= f) s' (m' >>= f') := by
  obtain ⟨a, hm, hm'⟩ := h
  obtain ⟨b, hb, hb'⟩ := hf a
  exact ⟨b, (run_bind_ok hm).trans hb, (run_bind_ok hm').trans hb'⟩

theorem findSomeM? {γ : Type} {f : α → SessionM σ (Option γ)} {f' : α → SessionM τ (Option γ)}
    (h : ∀ a, Concur s (f a) s' (f' a)) : ∀ as : List α,
    Concur s (as.findSomeM? f) s' (as.findSomeM? f')
  | [] => pure none
  | a :: as => by
      rw [List.findSomeM?_cons, List.findSomeM?_cons]
      refine (h a).bind fun r => ?_
      cases r with
      | some c => exact pure (some c)
      | none => exact findSomeM? h as

end Concur

end SessionM

/-! ## Scopes -/

/-- Whether a scope loads superclasses with a bound that leaves room for all classes of a session. -/
def NameScope.Bounded (ns : NameScope σ) (s : Session σ) : Prop :=
  ∃ bound depth, ns.chain = loadChain bound (depth + 1) ∧ s.symbols.length < bound

/-- The class at the bottom of a type. -/
def Ty.class? : Ty → Option String
  | .cls name => some name
  | .array elem => elem.class?
  | _ => none

namespace NameScope

variable {ns : NameScope σ} {ns' : NameScope τ} {cls : String}

/-- Loading what is loaded gives the superclasses that are known and changes nothing. -/
theorem run_chain (hns : ns.Bounded s) (h : s.Loaded cls) : (ns.chain cls).run.run s =
    (.ok ((s.symbols.supertypes cls).filter s.symbols.has), s) := by
  obtain ⟨bound, depth, hchain, hbound⟩ := hns
  rw [hchain]
  exact run_loadChain hbound h

theorem concur_chain (hns : ns.Bounded s) (hns' : ns'.Bounded s') (h : s.Share s' cls) :
    Concur s (ns.chain cls) s' (ns'.chain cls) := by
  have hsame := h.agrees.supertypes_eq
  have hloaded : s.Loaded cls := fun sup hsup => .inl (h.left sup hsup)
  have hloaded' : s'.Loaded cls := fun sup hsup => .inl (h.right sup (hsame ▸ hsup))
  have hleft := run_chain hns hloaded
  have hright := run_chain hns' hloaded'
  rw [List.filter_eq_self.mpr fun sup hsup => (h.left sup hsup).has] at hleft
  rw [List.filter_eq_self.mpr fun sup hsup => (h.right sup (hsame ▸ hsup)).has, hsame] at hright
  exact ⟨_, hleft, hright⟩

/-- Both sessions agree on whether a value may stand for another. -/
theorem concur_assignable (hns : ns.Bounded s) (hns' : ns'.Bounded s') :
    ∀ (sub sup : Ty), (∀ cls, sub.class? = some cls → s.Share s' cls) →
      Concur s (ns.assignable sub sup) s' (ns'.assignable sub sup) := by
  intro sub sup
  fun_induction ns.assignable sub sup with
  | case1 ty =>
      intro _
      unfold assignable
      rw [if_pos rfl]
      exact .pure true
  | case8 a b hne =>
      intro h
      rw [assignable, if_neg hne]
      exact (concur_chain hns hns' (h a rfl)).bind fun sups => .pure _
  | case10 a b href hne ih =>
      intro h
      rw [assignable, if_neg hne, if_pos href]
      exact ih h
  | case11 a b href hne =>
      intro h
      rw [assignable, if_neg hne, if_neg href]
      exact .pure false
  | case3 | case4 | case12 =>
      intro _
      unfold assignable
      split <;> grind [Concur.pure]
  | _ =>
      intro _
      unfold assignable
      rw [if_neg ‹_›]
      exact .pure _

end NameScope

namespace BodyScope

variable {cx : BodyScope σ} {cx' : BodyScope τ} {cls : String} (hcx : cx.names.Bounded s)
  (hcx' : cx'.names.Bounded s')

include hcx hcx'

/-- Both sessions find the same field. -/
theorem concur_findField (h : s.Share s' cls) (name : String) :
    Concur s (cx.findField cls name) s' (cx'.findField cls name) := by
  refine (NameScope.concur_chain hcx hcx' h).bind fun _ => ?_
  exact ⟨_, rfl, by rw [← h.agrees.findField_eq]; rfl⟩

/-- Both sessions find the same methods. -/
theorem concur_findMethods (h : s.Share s' cls) (name : String) :
    Concur s (cx.findMethods cls name) s' (cx'.findMethods cls name) := by
  refine (NameScope.concur_chain hcx hcx' h).bind fun _ => ?_
  exact ⟨_, rfl, by rw [← h.agrees.findMethods_eq]; rfl⟩

theorem concur_applicable : ∀ (args params : List Ty),
    (∀ a ∈ args, ∀ cls, a.class? = some cls → s.Share s' cls) →
    Concur s (cx.applicable args params) s' (cx'.applicable args params)
  | [], [], _ => .pure true
  | [], _ :: _, _ => .pure false
  | _ :: _, [], _ => .pure false
  | a :: args, p :: params, h => by
      obtain ⟨ha, hargs⟩ := List.forall_mem_cons.mp h
      refine (NameScope.concur_assignable hcx hcx' a p ha).bind fun fits => ?_
      cases fits with
      | true => exact concur_applicable args params hargs
      | false => exact .pure false

/-- Both sessions select the same candidate for the arguments of a call. -/
theorem concur_select {args : List Ty}
    (hargs : ∀ a ∈ args, ∀ cls, a.class? = some cls → s.Share s' cls)
    (candidates : List (String × MethodSig)) :
    Concur s (cx.select args candidates) s' (cx'.select args candidates) := by
  refine .findSomeM? (fun candidate => ?_) candidates
  obtain ⟨owner, m⟩ := candidate
  dsimp only
  split
  · refine (concur_applicable hcx hcx' args _ hargs).bind fun fits => ?_
    cases fits with
    | true => exact .pure _
    | false => exact .pure none
  · exact .pure none

/-- A call of a method of a class means the same in both sessions. -/
theorem callOn_agrees {args : List Ty} (h : s.Share s' cls)
    (hargs : ∀ a ∈ args, ∀ cls, a.class? = some cls → s.Share s' cls) (name : Ident)
    (static : Bool) :
    ∃ called t t', (cx.callOn name args cls static).run.run s = (.ok called, t) ∧
      (cx'.callOn name args cls static).run.run s' = (.ok called, t') := by
  obtain ⟨candidates, hfind, hfind'⟩ := concur_findMethods hcx hcx' h name.name
  obtain ⟨selected, hselect, hselect'⟩ := concur_select hcx hcx' hargs candidates
  unfold callOn
  rw [run_bind_ok hfind, run_bind_ok hfind']
  split
  · exact ⟨_, _, _, rfl, rfl⟩
  · rw [run_bind_ok hselect, run_bind_ok hselect']
    cases selected with
    | none => exact ⟨_, _, _, rfl, rfl⟩
    | some selected =>
        dsimp only
        split
        · exact ⟨_, _, _, rfl, rfl⟩
        · exact ⟨_, _, _, rfl, rfl⟩

end BodyScope

end ProbeLang
