import ProbeLang.Proofs.Task.Ending

/-!
# Chains as they are loaded and as they are looked up

A chain of superclasses is loaded while it is walked: a class is completed before its superclass is
asked for, and completing it may load and complete others. What has been passed stays as it is from
then on, because a class that has been completed, or is being completed further out, is not changed by
anything that is done in between (`Session.Retains`). So the chain that has been loaded is found again
in the finished table, also where superclasses form a cycle (`SessionM.loadChain_supertypes`), and
members are looked up in the classes of that chain and in no others.

Behind the chain the table may name one class more, which could not be found. It is not known, with one
exception: a class whose own name has a dollar sign may be entered with the source that is looked
through for the class around it. If that class is not there, the search ends without a second look.
-/

namespace ProbeLang

open SessionM

/-- Whether a class is as it was entered from source. -/
def ClassSymbol.Bare (c : ClassSymbol) : Prop :=
  c.isSource = true ∧ c.entered = c

/-- Whether a class has been completed or is being completed. Classes that are not from source need
not be. -/
def ClassSymbol.Closed (c : ClassSymbol) : Prop :=
  c.isSource = true → c.completed = true

/-! ## Looking for classes -/

namespace Session

variable {σ : Type} {s t u : Session σ} {P : ClassSymbol → Prop} {name : String}

/-- Whether a session knows the classes of another as they are there, and others of which `P`
holds. -/
def Gains (P : ClassSymbol → Prop) (s t : Session σ) : Prop :=
  ∃ more : SymbolTable, t.symbols = s.symbols ++ more ∧ ∀ p ∈ more, P p.2

namespace Gains

theorem of_same (h : t.symbols = s.symbols) : Gains P s t :=
  ⟨[], by rw [h, List.append_nil], List.forall_mem_nil _⟩

theorem mono {P' : ClassSymbol → Prop} (h : Gains P s t) (hP : ∀ c, P c → P' c) :
    Gains P' s t := by
  obtain ⟨more, ht, hmore⟩ := h
  exact ⟨more, ht, fun p hp => hP _ (hmore p hp)⟩

theorem find? (h : Gains P s t) {c : ClassSymbol} (hc : s.symbols.find? name = some c) :
    t.symbols.find? name = some c := by
  obtain ⟨more, ht, -⟩ := h
  rw [ht, Table.find?_append, hc, Option.some_or]

/-- A class that was not known is one of the others. -/
theorem of_find? (h : Gains P s t) {c : ClassSymbol} (hnew : s.symbols.has name = false)
    (hc : t.symbols.find? name = some c) : P c := by
  obtain ⟨more, ht, hmore⟩ := h
  rw [ht, Table.find?_append, Table.has_eq_false.mp hnew, Option.none_or] at hc
  exact hmore _ (Table.mem_of_find? hc)

end Gains

instance : IsPreorder (Session σ) (Gains P) where
  refl _ := .of_same rfl
  trans _ _ _ := by
    rintro ⟨more, ht, hmore⟩ ⟨more', hu, hmore'⟩
    exact ⟨more ++ more', by rw [hu, ht, List.append_assoc],
      List.forall_mem_append.mpr ⟨hmore, hmore'⟩⟩

/-- Whether a class that has been looked for in vain is not known, or has only been entered with the
source in which the class around it should have been. -/
def Lacks (s : Session σ) (name : String) : Prop :=
  ∀ c, s.symbols.find? name = some c →
    c.Bare ∧ outermostName name ≠ name ∧ s.symbols.has (outermostName name) = false

theorem Lacks.of_has (h : s.symbols.has name = false) : s.Lacks name := by
  intro c hc
  rw [Table.has_eq_false.mp h] at hc
  cases hc

/-- Whether a search has made a class known, or has ended without it in a session of which `F`
holds. -/
def Yields (name : String) (F : Session σ → Prop) (found : Bool) (t : Session σ) : Prop :=
  (found = true → t.symbols.has name = true) ∧ (found = false → F t)

end Session

namespace SessionM

open Session

variable {σ α : Type} {s t : Session σ} {P : ClassSymbol → Prop} {name : String}

/-- Any fault. -/
abbrev AnyFault (_ : TaskFault) (_ _ : Session σ) : Prop := True

theorem yields_true {F : Session σ → Prop} (h : t.symbols.has name = true) :
    Yields name F true t :=
  ⟨fun _ => h, nofun⟩

theorem yields_false {F : Session σ → Prop} (h : F t) : Yields name F false t :=
  ⟨fun hyes => absurd hyes Bool.false_ne_true, fun _ => h⟩

theorem gains_known (name : String) :
    Moves (Gains P) AnyFault s (known name) fun found t => found = t.symbols.has name :=
  .get (.pure rfl)

theorem gains_input (l : Location) (name : String) (kind : UnitKind) :
    Moves (Gains P) AnyFault s (input l name kind) fun _ t => t.symbols = s.symbols :=
  ((silent_input (fun _ _ => trivial) l name kind).mono fun _ _ hst _ => hst.same).rel
    fun hst => .of_same hst.same

theorem gains_quiet {m : SessionM σ α} {Q : α → Session σ → Prop}
    (h : Moves Quiet AnyFault s m Q) :
    Moves (Gains P) AnyFault s m fun _ t => t.symbols = s.symbols :=
  (h.mono fun _ _ hst _ => hst.1.same).rel fun hst => .of_same hst.1.same

/-- Entering a unit adds classes as they are entered. -/
theorem gains_enter (s : Session σ) (unit : CompilationUnit) (tree : UnitTree) :
    ∃ t, (enter unit tree).run.run s = (.ok (), t) ∧ s.Gains ClassSymbol.Bare t := by
  obtain ⟨t, queue, htypes, hadds⟩ := adds_enterTypes (P := ClassSymbol.Bare)
    ⟨s.sources.length, tree.source, tree.packageName?⟩ tree rfl 0 tree.types
    (s := told (opened s unit tree) (.started (enterEvent unit tree)))
    fun d _ types => ⟨rfl, rfl⟩
  obtain ⟨more, ht, hmore⟩ := hadds.more
  refine ⟨_, run_enter_eq htypes, more, ?_, fun p hp => (hmore p hp).2⟩
  rw [(told_told t _).same, ht, (told_told _ _).same]
  rfl

/-- A class that is not found on the source path is not known. -/
theorem gains_loadSource (hs : s.symbols.has name = false) :
    Moves (Gains ClassSymbol.Bare) AnyFault s (loadSource name)
      fun found t => found = t.symbols.has name := by
  unfold loadSource
  refine (gains_input _ _ _).bind fun found t _ hsame => ?_
  have ht : t.symbols.has name = false := hsame ▸ hs
  cases found with
  | none => exact .pure ht.symm
  | some unit =>
      refine .get ?_
      split
      · exact gains_known name
      · rcases run_parse_cases t unit with
          ⟨e, u, hparse, htold⟩ | ⟨tree, u, hparse, htold, -⟩
        · exact .of_run_error (run_bind_error hparse) (.of_same htold.same) trivial
        · have hu : u.symbols.has name = false := htold.same.symm ▸ ht
          cases tree with
          | none => exact .after (run_bind_ok hparse) (.of_same htold.same) (.pure hu.symm)
          | some tree =>
              obtain ⟨v, henter, hgains⟩ := gains_enter u unit tree
              have htv := trans_of (Gains ClassSymbol.Bare) (.of_same htold.same) hgains
              refine .after ((run_bind_ok hparse).trans (run_bind_ok henter)) htv ?_
              refine (gains_known name).bind fun found w _ hfound => ?_
              split
              · next h => exact .pure (h ▸ hfound)
              · next h =>
                  refine (gains_quiet (quiet_problem _ _ _)).bind fun _ x _ hx => .pure ?_
                  rw [hx, ← hfound, Bool.not_eq_true _ |>.mp h]

/-- An artifact that is found makes its class known; otherwise the classes stay the same. -/
theorem gains_loadArtifact (name : String) :
    Moves (Gains fun _ => True) AnyFault s (loadArtifact name)
      (Yields name fun t => t.symbols = s.symbols) := by
  unfold loadArtifact
  refine (gains_input _ _ _).bind fun found t _ hsame => ?_
  cases found with
  | none => exact .pure (yields_false hsame)
  | some unit =>
      refine .get (Moves.bind (Q := fun _ u => u.symbols = t.symbols) ?_ fun bytes u _ htu => ?_)
      · exact ((silent_ofIo (fun _ _ => trivial) _).mono fun _ _ htu _ => htu.same).rel
          fun htu => .of_same htu.same
      have hu := htu.trans hsame
      split
      · refine (gains_quiet (quiet_report _)).bind fun _ v _ hv => .pure ?_
        exact yields_false (hv.trans hu)
      · split
        · next c _ hname =>
            refine .get ?_
            split
            · next symbols hins =>
                have hgains : Gains (fun _ => True) u { u with symbols } := by
                  obtain ⟨more, hmore, -⟩ := (Adds.insert hins (P := fun _ => True) trivial).more
                  exact ⟨more, hmore, fun _ _ => trivial⟩
                refine Moves.bind (Q := fun _ v => v.symbols.has name = true)
                  (.of_run_ok rfl hgains (hname ▸ has_insert hins)) fun _ _ _ h => ?_
                exact .pure (yields_true h)
            · exact .pure (yields_false hu)
        · refine (gains_quiet (quiet_report _)).bind fun _ v _ hv => .pure ?_
          exact yields_false (hv.trans hu)

section

variable {find : String → SessionM σ Bool} {F : Session σ → Prop}
  (hF : ∀ {t u : Session σ}, u.symbols = t.symbols → F t → F u)

include hF

theorem gains_load (hfind : Moves (Gains fun _ => True) AnyFault s (find name) (Yields name F)) :
    Moves (Gains fun _ => True) AnyFault s (load find name) (Yields name F) := by
  unfold load
  refine hfind.bind fun found t _ hfound => ?_
  split
  · next h => exact .pure (yields_true (hfound.1 h))
  · next h =>
      have ht : F t := hfound.2 (Bool.not_eq_true _ |>.mp h)
      refine (gains_loadArtifact name).bind fun found u _ hfound => ?_
      split
      · next h => exact .pure (yields_true (hfound.1 h))
      · next h =>
          have hu : F u := hF (hfound.2 (Bool.not_eq_true _ |>.mp h)) ht
          refine Moves.bind (Q := fun _ v => v.symbols = u.symbols)
            (.of_run_ok rfl (.of_same rfl) rfl) fun _ v _ hv => .pure ?_
          exact yields_false (hF hv hu)

theorem gains_findWith (hs : s.symbols.has name = false → F s)
    (hfind : s.symbols.has name = false →
      Moves (Gains fun _ => True) AnyFault s (find name) (Yields name F)) :
    Moves (Gains fun _ => True) AnyFault s (findWith find name) (Yields name F) := by
  unfold findWith
  refine .get ?_
  split
  · next h => exact .pure (yields_true h)
  · next h =>
      have hnew := Bool.not_eq_true _ |>.mp h
      split
      · exact .pure (yields_false (hs hnew))
      · exact gains_load hF (hfind hnew)

end

/-- A class that no other class is around is not known if it is not found, and what has become known
is from sources. -/
theorem gains_findTop (s : Session σ) (name : String) :
    Moves (Gains fun _ => True) AnyFault s (findWith loadSource name)
      (Yields name fun t => t.symbols.has name = false ∧ s.Gains ClassSymbol.Bare t) := by
  refine gains_findWith (fun hsame h => ?_) (fun h => ⟨h, .of_same rfl⟩) fun h => ?_
  · obtain ⟨hnot, more, ht, hmore⟩ := h
    exact ⟨by rwa [hsame], more, hsame.trans ht, hmore⟩
  · refine ((gains_loadSource h).mono fun found t hst hfound => ⟨fun hyes => ?_, fun hno => ?_⟩).rel
      fun hst => hst.mono fun _ _ => trivial
    · rw [← hfound, hyes]
    · exact ⟨by rw [← hfound, hno], hst⟩

/-- Looking for a class adds classes and changes none, and if it is not found it is not known, or
has only been entered. -/
theorem gains_findClass (name : String) :
    Moves (Gains fun _ => True) AnyFault s (findClass name) (Yields name (Lacks · name)) := by
  unfold findClass
  dsimp only
  have hlacks {t u : Session σ} (hsame : u.symbols = t.symbols) (h : t.Lacks name) :
      u.Lacks name := by
    unfold Lacks
    rwa [hsame]
  split
  · exact (gains_findTop s name).mono fun _ _ _ h => ⟨h.1, fun hno => .of_has (h.2 hno).1⟩
  · next hnested =>
      refine gains_findWith hlacks .of_has fun hnew => ?_
      refine (gains_findTop s (outermostName name)).bind fun found t _ hfound => ?_
      cases found with
      | true =>
          refine (gains_known name).mono fun found u _ hknown => ⟨fun hyes => ?_, fun hno => ?_⟩
          · rw [← hknown, hyes]
          · exact .of_has (by rw [← hknown, hno])
      | false =>
          obtain ⟨hlost, hgains⟩ := hfound.2 rfl
          exact .pure (yields_false fun c hc => ⟨hgains.of_find? hnew hc, hnested, hlost⟩)

end SessionM

/-! ## What loading leaves alone -/

namespace Session

variable {σ : Type} {s t u : Session σ}

/-- Whether a session goes on from another and has the classes that were closed there as they were, but
for some. -/
structure Retains (opened : List String) (s t : Session σ) : Prop extends s.Extends t where
  same : ∀ {name : String} {c : ClassSymbol}, name ∉ opened → s.symbols.find? name = some c →
    c.Closed → t.symbols.find? name = some c

instance {opened : List String} : IsPreorder (Session σ) (Retains opened) where
  refl s := ⟨.refl s, fun _ hc _ => hc⟩
  trans _ _ _ h h' := ⟨h.toExtends.trans h'.toExtends, fun hname hc hclosed =>
    h'.same hname (h.same hname hc hclosed) hclosed⟩

namespace Retains

variable {opened : List String} {cls : String}

theorem weaken (h : Retains [] s t) : Retains opened s t :=
  ⟨h.toExtends, fun _ => h.same List.not_mem_nil⟩

/-- A class that is marked is no longer the same, but the others are. -/
theorem mark (hcls : s.FromSource cls) : Retains [cls] s (markCompleted s cls) := by
  refine ⟨extends_markCompleted hcls, fun {name c} hname hc _ => ?_⟩
  rw [markCompleted, Table.find?_modify, if_neg (mt List.mem_singleton.mpr hname), hc]

theorem completeWith (hcls : s.FromSource cls) (superclass : String) (fields : List FieldSig)
    (methods : List MethodSig) :
    Retains [cls] s (s.completeWith cls superclass fields methods) := by
  refine ⟨extends_completeWith hcls superclass fields methods, fun {name c} hname hc _ => ?_⟩
  rw [Session.completeWith, Table.find?_modify, if_neg (mt List.mem_singleton.mpr hname), hc]

/-- A class that was not closed need not be left out. -/
theorem of_open (h : Retains [cls] s t) {c : ClassSymbol} (hc : s.symbols.find? cls = some c)
    (hopen : ¬ c.Closed) : Retains [] s t := by
  refine ⟨h.toExtends, fun {name c'} _ hc' hclosed => h.same (fun hname => ?_) hc' hclosed⟩
  rw [List.mem_singleton.mp hname, hc] at hc'
  cases hc'
  exact hopen hclosed

end Retains

end Session

namespace SessionM

open Session

variable {σ : Type} {s t : Session σ}

theorem searches_spares (opened : List String) :
    Searches (σ := σ) (Retains opened) AnyFault where
  ext h := h.toExtends
  quiet h := ⟨h.1.toExtends, fun _ hc _ => by rwa [h.1.same]⟩
  find name s := by
    refine ⟨fun hrun => ?_, fun _ => ⟨s, refl_of (Retains opened) s, trivial⟩⟩
    obtain ⟨hloading, hfinds⟩ := (loads_findClass name).answers hrun
    obtain ⟨hgains, -⟩ := (gains_findClass name).answers hrun
    exact ⟨⟨hloading.ext, fun _ hc _ => hgains.find? hc⟩, hfinds⟩

variable {chain : String → SessionM σ (List String)}
  (hchain : ∀ (cls : String) {s : Session σ}, Moves (Retains []) AnyFault s (chain cls) fun _ _ => True)

include hchain

/-- Completing a class changes no other one that was closed, whatever it loads on the way. -/
theorem retains_completeMarked {cls : String} (hcls : s.FromSource cls) (unit : Nat)
    (place : List Nat) :
    Moves (Retains [cls]) AnyFault s (completeMarked chain cls unit place) fun _ _ => True := by
  refine .get ?_
  split
  · next classes _ =>
      split
      · next entry _ =>
          split
          · next decl _ =>
              have hns : (NameScope.ofTree chain entry.tree classes).Within (Retains [cls]) AnyFault :=
                ⟨searches_spares [cls], fun cls' {s} => (hchain cls').rel Retains.weaken⟩
              refine (NameScope.moves_superclassOf hns cls decl.superclass).bind
                fun superclass t hst _ => ?_
              refine (NameScope.moves_fieldSigs hns cls decl.fields []).bind
                fun fields u htu _ => ?_
              refine (NameScope.moves_methodSigs hns cls decl.methods []).bind
                fun methods v huv _ => ?_
              have hsv := trans_of (Retains [cls]) hst (trans_of (Retains [cls]) htu huv)
              exact .of_run_ok (run_modify v _)
                (.completeWith (hcls.of_extends hsv.toExtends) superclass fields methods) trivial
          · exact .pure trivial
      · exact .pure trivial
  · exact .throw trivial

/-- Completing a class closes it and leaves all classes alone that were closed before. -/
theorem retains_complete (cls : String) :
    Moves (Retains []) AnyFault s (complete chain cls) fun _ t =>
      ∀ c, t.symbols.find? cls = some c → c.Closed := by
  rcases complete_cases cls s with ⟨hclosed, hrun⟩ | ⟨c, hc, hsource, hopen, unit, place, hrun⟩
  · exact .of_run_ok (hrun chain) (refl_of (Retains []) s) hclosed
  · have hcls : s.FromSource cls := ⟨c, hc, hsource⟩
    have hmark := Retains.mark hcls
    have hmarked := hcls.of_extends hmark.toExtends
    have hnot : ¬ c.Closed := fun h => Bool.false_ne_true (hopen.symm.trans (h hsource))
    have hrest : Moves (Retains [cls]) AnyFault (markCompleted s cls)
        (completeMarked chain cls unit place) fun _ t =>
          ∀ c, t.symbols.find? cls = some c → c.Closed := by
      refine (retains_completeMarked hchain hmarked unit place).mono fun _ t hst _ c' hc' _ => ?_
      obtain ⟨c'', hc'', hcompleted⟩ := hst.completed (find?_marked hc) rfl
      cases hc'.symm.trans hc''
      exact hcompleted
    exact (Moves.after (hrun chain) hmark hrest).rel fun hst => hst.of_open hc hnot

omit hchain

/-! ## The walk -/

end SessionM

namespace Session

variable {σ : Type} {s t : Session σ}

/-- Whether the classes that a walk has passed last, behind those in `done`, are those that the table
leads to from a class on, but for a last one that could not be found. -/
def Walks (t : Session σ) (fuel : Nat) (done : List String) (cls : String)
    (chain : List String) : Prop :=
  ∃ (rest : List String) (lost : Option String), chain = done.reverse ++ rest ∧
    t.symbols.chainFrom fuel done cls = rest ++ lost.toList ∧ (∀ name ∈ lost, t.Lacks name) ∧
    ∀ sup ∈ rest, ∃ c, t.symbols.find? sup = some c ∧ c.Closed

theorem Lacks.superclass?_eq {name : String} (h : t.Lacks name) :
    t.symbols.superclass? name = none := by
  cases hc : t.symbols.find? name with
  | none => rw [SymbolTable.superclass?, hc, Option.bind_none]
  | some c =>
      obtain ⟨⟨-, hentered⟩, -⟩ := h c hc
      rw [SymbolTable.superclass?, hc, Option.bind_some, ← hentered]
      rfl

end Session

namespace SessionM

open Session

variable {σ : Type} {s t : Session σ}

/-- A walk that completes each class before it goes on agrees with the table that it leaves. -/
theorem walks_chainBehind {complete : String → SessionM σ Unit}
    (hcomplete : ∀ (cls : String) {s : Session σ}, Moves (Retains []) AnyFault s (complete cls)
      fun _ t => ∀ c, t.symbols.find? cls = some c → c.Closed) :
    ∀ (fuel : Nat) (done : List String) (cls : String) {s : Session σ},
      Moves (Retains []) AnyFault s (chainBehind complete fuel done cls) fun chain t =>
        t.Walks fuel done cls chain
  | 0, done, _, _ => .pure ⟨[], none, (List.append_nil _).symm, rfl, nofun, List.forall_mem_nil _⟩
  | fuel + 1, done, cls, s => by
      unfold chainBehind
      split
      · next hdone =>
          refine .pure ⟨[], none, (List.append_nil _).symm, ?_, nofun, List.forall_mem_nil _⟩
          exact SymbolTable.chainFrom_of_contains hdone
      · next hdone =>
          have hfind : Moves (Retains []) AnyFault s (findClass cls)
              (Yields cls (Lacks · cls)) :=
            ⟨fun hrun => ⟨(((searches_spares []).find cls).answers hrun).1,
              ((gains_findClass cls).answers hrun).2⟩, ((searches_spares []).find cls).faults⟩
          refine hfind.bind fun found t _ hfound => ?_
          split
          · next hyes =>
              refine (hcomplete cls).bind fun _ u htu hclosed => .get ?_
              obtain ⟨c, hc⟩ := Table.has_eq_true.mp (htu.has (hfound.1 hyes))
              split
              · next above habove =>
                  -- from here on the class keeps its superclass
                  refine (walks_chainBehind hcomplete fuel (cls :: done) above).mono
                    fun chain v huv hwalks => ?_
                  obtain ⟨rest, lost, rfl, hrest, hlost, hknown⟩ := hwalks
                  have hv := huv.same List.not_mem_nil hc (hclosed c hc)
                  have hsame : v.symbols.superclass? cls = some above := by
                    rw [← habove, SymbolTable.superclass?, SymbolTable.superclass?, hv, hc]
                  refine ⟨cls :: rest, lost, ?_, ?_, hlost,
                    List.forall_mem_cons.mpr ⟨⟨c, hv, hclosed c hc⟩, hknown⟩⟩
                  · rw [List.reverse_cons, List.append_assoc, List.singleton_append]
                  · rw [SymbolTable.chainFrom_of_some hdone hsame]
                    exact congrArg (cls :: ·) hrest
              · next hnone =>
                  exact .pure ⟨[cls], none, List.reverse_cons,
                    SymbolTable.chainFrom_of_none hdone hnone, nofun,
                    List.forall_mem_singleton.mpr ⟨c, hc, hclosed c hc⟩⟩
          · next hno =>
              have hlacks : t.Lacks cls := hfound.2 (Bool.not_eq_true _ |>.mp hno)
              refine .pure ⟨[], some cls, (List.append_nil _).symm,
                SymbolTable.chainFrom_of_none hdone hlacks.superclass?_eq, ?_, List.forall_mem_nil _⟩
              rintro name ⟨⟩
              exact hlacks

theorem retains_loadChain (bound : Nat) : ∀ (depth : Nat) (cls : String) {s : Session σ},
    Moves (Retains []) AnyFault s (loadChain bound depth cls) fun _ _ => True
  | 0, _, _ => .pure trivial
  | depth + 1, cls, _ =>
      (walks_chainBehind (fun cls {_} => retains_complete (retains_loadChain bound depth) cls)
        bound [] cls).weaken

end SessionM

/-! ## Members -/

namespace SymbolTable

variable {t : SymbolTable} {owner name cls : String}

/-- The field of a name that a class itself has. -/
def ownField (t : SymbolTable) (name cls : String) : Option (String × FieldSig) := do
  let c ← t.find? cls
  let f ← c.fields.find? fun f => f.name == name
  return (cls, f)

/-- The methods of a name that a class itself has. -/
def ownMethods (t : SymbolTable) (name cls : String) : List (String × MethodSig) :=
  match t.find? cls with
  | none => []
  | some c => (c.methods.filter fun m => m.name == name).map fun m => (cls, m)

theorem findField_eq : t.findField owner name = (t.supertypes owner).findSome? (t.ownField name) :=
  rfl

theorem findMethods_eq :
    t.findMethods owner name = (t.supertypes owner).flatMap (t.ownMethods name) :=
  rfl

end SymbolTable

theorem Session.Lacks.own_eq {σ : Type} {t : Session σ} {cls : String} (h : t.Lacks cls)
    (name : String) : t.symbols.ownField name cls = none ∧ t.symbols.ownMethods name cls = [] := by
  cases hc : t.symbols.find? cls with
  | none => simp [SymbolTable.ownField, SymbolTable.ownMethods, hc]
  | some c =>
      obtain ⟨⟨-, hentered⟩, -⟩ := h c hc
      have hfields : c.fields = [] := by rw [← hentered]; rfl
      have hmethods : c.methods = [] := by rw [← hentered]; rfl
      simp [SymbolTable.ownField, SymbolTable.ownMethods, hc, hfields, hmethods]

namespace SessionM

open Session

variable {σ : Type} {s t : Session σ}

/-- When a chain has been loaded, in a session that knows and finds no classes but those of some names
and with a bound that leaves room for all of them, the table has the same chain, possibly with one
class more that could not be found. The classes of the chain differ from each other, and each has
been completed or is being completed further out. So members are looked up in these classes and in no
others, nearest first. -/
theorem loadChain_supertypes {names : List String} (hs : s.Placed)
    (hnames : s.symbols.names ++ s.findable ⊆ names) {bound : Nat} (hbound : names.length < bound)
    {depth : Nat} {cls : String} {chain : List String}
    (hrun : (loadChain bound (depth + 1) cls).run.run s = (.ok chain, t)) :
    (∃ lost : Option String, t.symbols.supertypes cls = chain ++ lost.toList ∧
      ∀ name ∈ lost, t.Lacks name) ∧
    chain.Nodup ∧
    (∀ sup ∈ chain, ∃ c, t.symbols.find? sup = some c ∧ (c.isSource = true → c.completed = true)) ∧
    ∀ name, t.symbols.findField cls name = chain.findSome? (t.symbols.ownField name) ∧
      t.symbols.findMethods cls name = chain.flatMap (t.symbols.ownMethods name) := by
  obtain ⟨-, rest, lost, rfl, hrest, hlost, hknown⟩ := (walks_chainBehind
    (fun cls {_} => retains_complete (retains_loadChain bound depth) cls) bound [] cls).answers hrun
  have hsupertypes : t.symbols.supertypes cls = chain ++ lost.toList := by
    obtain ⟨hloading, -⟩ := (moves_loadChain lookups_loading bound (depth + 1) cls).answers hrun
    obtain ⟨rs, hloads⟩ := hloading.loads hs
    rw [← hrest, SymbolTable.chainFrom_eq_of_subset (List.Subset.trans hloads.within hnames) hbound]
  refine ⟨⟨lost, hsupertypes, hlost⟩, ?_, hknown, fun name => ?_⟩
  · have hnodup := t.symbols.nodup_supertypes cls
    rw [hsupertypes] at hnodup
    exact (List.nodup_append.mp hnodup).1
  · rw [SymbolTable.findField_eq, SymbolTable.findMethods_eq, hsupertypes]
    cases lost with
    | none => rw [Option.toList_none, List.append_nil]; exact ⟨rfl, rfl⟩
    | some name' =>
        obtain ⟨hfield, hmethods⟩ := (hlost name' rfl).own_eq name
        rw [Option.toList_some, List.findSome?_append, List.flatMap_append]
        simp [hfield, hmethods]

end SessionM

/-- A class whose superclass has a dollar sign in its own name, and stands in the source in which the
class around it would be. -/
def strayFiles : FileTree :=
  let source := "class A$B { int f; }".toList.map fun c => c.toNat.toUInt8
  let artifact : ClassFile := { circleFile with name := "C", superclass := some "A$B", outer := none,
                                                nested := [] }
  ⟨[(["sp"], .dir), (["sp", "A.probe"], .file source), (["cp"], .dir),
    (["cp", "C.class"], .file (artifact.encode.toOption.getD []))], ""⟩

/-- A session that has been told where both are. -/
def straySession : Session Unit :=
  let t : CompilationTask Unit :=
    { options := { sourcePath := some ["sp"], classPath := some ["cp"] }, units := [] }
  (SessionM.setLocations.run.run (t.session strayFiles (.inMemory none) ())).2

/-- The session after the chain of the class has been loaded. -/
def strayLoaded : Session Unit :=
  ((SessionM.loadChain 9 9 "C").run.run straySession).2

-- Loading stops at the superclass, which has been entered by then; loading once more does not.
example : ((SessionM.loadChain 9 9 "C").run.run straySession).1 = .ok ["C"] ∧
    strayLoaded.symbols.supertypes "C" = ["C", "A$B"] ∧ strayLoaded.symbols.has "A$B" = true ∧
    ((SessionM.loadChain 9 9 "C").run.run strayLoaded).1 =
      .ok ["C", "A$B", "probe.lang.Object"] := by
  decide +kernel

end ProbeLang
