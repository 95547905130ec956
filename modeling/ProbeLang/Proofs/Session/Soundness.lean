import ProbeLang.Proofs.Fallible
import ProbeLang.Proofs.Session.Growth
import ProbeLang.Proofs.Session.Signatures

/-!
# Sound sessions

As long as no error is reported, the symbols of a session are those of the classes that its units
declare, one for one, and what is known of a completed class agrees with its declaration
(`Session.Sound`). A step that ends without an error keeps it so and queues the classes of the
units that it loads, each once (`Session.Advances`).

`SessionM.Keeps` puts both together with the growth of the session: growth holds of every end of a
step, the rest of an end without an error. An unknown type or a name without a meaning is always
reported, so an end without an error is one at which nothing is unknown.
-/

namespace ProbeLang

/-! ## Queues -/

/-- The top-level classes of units, the first of which has the given number. -/
def topClasses (unit : Nat) : List SourceEntry → List (Nat × Nat)
  | [] => []
  | e :: rest => (List.range e.tree.types.length).map (unit, ·) ++ topClasses (unit + 1) rest

theorem topClasses_append (unit : Nat) (es es' : List SourceEntry) :
    topClasses unit (es ++ es') = topClasses unit es ++ topClasses (unit + es.length) es' := by
  induction es generalizing unit with
  | nil => rfl
  | cons e es ih =>
      simp only [List.cons_append, topClasses, ih, List.append_assoc, List.length_cons]
      rw [Nat.add_right_comm, Nat.add_assoc]

namespace Session

variable {σ : Type} {s t u : Session σ}

/-! ## Sound sessions -/

/-- Whether a class is declared in one of the units of a session. -/
def Declares (s : Session σ) (d : DeclaredClass) : Prop :=
  ∃ e, s.sources[d.unit]? = some e ∧ d ∈ e.tree.declared d.unit

theorem Declares.of_extends {d : DeclaredClass} (h : s.Declares d) (hst : s.Extends t) :
    t.Declares d := by
  obtain ⟨e, he, hd⟩ := h
  exact ⟨e, hst.source he, hd⟩

/-- Whether the symbols of a session are those of its units, of artifacts and of the built-in
classes. -/
structure Sound (s : Session σ) : Prop where
  declared : ∀ {d : DeclaredClass}, s.Declares d →
    ∃ c, s.symbols.find? d.binary = some c ∧ c.entered = d.symbol
  origin : ∀ {name : String} {c : ClassSymbol}, s.symbols.find? name = some c →
    c.isSource = true → ∃ d, s.Declares d ∧ d.binary = name ∧ c.entered = d.symbol ∧
      (c.superclass.isSome = true → c.Written s.symbols d.decl)
  builtin : ∀ {name : String} {c : ClassSymbol}, s.symbols.find? name = some c →
    c.origin = .builtin → SymbolTable.builtins.find? name = some c
  named : ∀ {name : String} {c : ClassSymbol}, s.symbols.find? name = some c → c.binary = name
  known : ∀ {name : String} {c : ClassSymbol}, s.symbols.find? name = some c → c.Known
  staged : ∀ {name : String} {c : ClassSymbol}, s.symbols.find? name = some c →
    c.isSource = true → c.Staged s.symbols

/-- Whether a class of a name has been marked as completed, but has no signatures yet. -/
def Unsettled (s : Session σ) (name : String) : Prop :=
  ∃ c, s.symbols.find? name = some c ∧ c.isSource = true ∧ c.completed = true ∧
    c.superclass = none

/-- Whether a class has got the signatures of its members. -/
def Signed (s : Session σ) (name : String) : Prop :=
  ∃ c, s.symbols.find? name = some c ∧ c.superclass.isSome = true

theorem Signed.of_extends {name : String} (h : s.Signed name) (hst : s.Extends t) :
    t.Signed name := by
  obtain ⟨c, hc, hsuper⟩ := h
  exact hst.superclasses hc hsuper

/-- Whether no class is marked as completed without having its signatures. -/
def Settled (s : Session σ) : Prop :=
  ∀ name, ¬ s.Unsettled name

/-- Whether a session is sound and goes on from another without leaving anything undone. -/
structure Advances (s t : Session σ) : Prop where
  sound : t.Sound
  settled : ∀ {name : String}, t.Unsettled name → s.Unsettled name
  todo : t.todo = s.todo ++ topClasses s.sources.length (t.sources.drop s.sources.length)

theorem Sound.of_eq (h : s.Sound) (hsources : t.sources = s.sources)
    (hsymbols : t.symbols = s.symbols) : t.Sound := by
  obtain ⟨hdeclared, horigin, hbuiltin, hnamed, hknown, hstaged⟩ := h
  constructor
  · unfold Declares
    rwa [hsources, hsymbols]
  · unfold Declares
    rwa [hsources, hsymbols]
  · rwa [hsymbols]
  · rwa [hsymbols]
  · rwa [hsymbols]
  · rwa [hsymbols]

theorem Settled.of_advances (h : s.Settled) (hst : s.Advances t) : t.Settled :=
  fun name hname => h name (hst.settled hname)

namespace Advances

theorem of_eq (h : s.Sound) (hsources : t.sources = s.sources) (hsymbols : t.symbols = s.symbols)
    (htodo : t.todo = s.todo) : s.Advances t where
  sound := h.of_eq hsources hsymbols
  settled := by
    unfold Unsettled
    rw [hsymbols]
    exact id
  todo := by
    rw [hsources, List.drop_length, htodo, topClasses, List.append_nil]

theorem trans (hst : s.Extends t) (h : s.Advances t) (htu : t.Extends u) (h' : t.Advances u) :
    s.Advances u where
  sound := h'.sound
  settled hname := h.settled (h'.settled hname)
  todo := by
    obtain ⟨more, hmore⟩ := hst.sources
    obtain ⟨more', hmore'⟩ := htu.sources
    have hdrop : t.sources.drop s.sources.length = more := by rw [← hmore, List.drop_left]
    have hdrop' : u.sources.drop t.sources.length = more' := by rw [← hmore', List.drop_left]
    rw [h'.todo, h.todo, hdrop, hdrop', ← hmore', ← hmore, List.append_assoc s.sources,
      List.drop_left, topClasses_append, List.length_append, List.append_assoc]

end Advances

end Session

/-! ## Steps -/

namespace SessionM

variable {σ α β : Type} {s t : Session σ} {P P' : Prop} {m : SessionM σ α}
  {f : α → SessionM σ β} {Q Q' : α → Session σ → Prop} {R : β → Session σ → Prop}

theorem run_bind_ok {a : α} (h : m.run.run s = (.ok a, t)) :
    (m >>= f).run.run s = (f a).run.run t := by
  show (ExceptT.run (m >>= f)).run s = _
  rw [ExceptT.run_bind, StateT.run_bind]
  show (do let p ← m.run.run s; _ : Id _) = _
  rw [h]
  rfl

theorem run_bind_error {e : TaskFault} (h : m.run.run s = (.error e, t)) :
    (m >>= f).run.run s = (.error e, t) := by
  show (ExceptT.run (m >>= f)).run s = _
  rw [ExceptT.run_bind, StateT.run_bind]
  show (do let p ← m.run.run s; _ : Id _) = _
  rw [h]
  rfl

/-- A sequence of two steps ends well only if both do. -/
theorem of_run_bind {b : β} (h : (m >>= f).run.run s = (.ok b, t)) :
    ∃ a u, m.run.run s = (.ok a, u) ∧ (f a).run.run u = (.ok b, t) := by
  rcases hrun : m.run.run s with ⟨_ | a, u⟩
  · rw [run_bind_error hrun] at h
    cases h
  · rw [run_bind_ok hrun] at h
    exact ⟨a, u, rfl, h⟩

theorem of_isOk (h : (m.run.run s).1.isOk = true) :
    ∃ a, m.run.run s = (.ok a, (m.run.run s).2) := by
  obtain ⟨a, ha⟩ := eq_ok_of_isOk h
  exact ⟨a, Prod.ext ha rfl⟩

theorem run_modify (s : Session σ) (f : Session σ → Session σ) :
    (modify f : SessionM σ Unit).run.run s = (.ok (), f s) :=
  rfl

/-- All that a listener changes is its state and the log. -/
theorem run_started (s : Session σ) (e : TaskEvent) :
    ∃ state log, (started e).run.run s = (.ok (), { s with state := state, log := log }) ∧
      ∃ ds, log = s.log.reportAll ds := by
  rw [started, run_modify]
  cases hl : s.listener with
  | none =>
      refine ⟨s.state, s.log, ?_, [], rfl⟩
      show (Except.ok (), s) = _
      rw [← hl]
  | some l => exact ⟨_, _, rfl, l.started_reports e s.state s.log⟩

theorem run_finished (s : Session σ) (e : TaskEvent) :
    ∃ state log, (finished e).run.run s = (.ok (), { s with state := state, log := log }) ∧
      ∃ ds, log = s.log.reportAll ds := by
  rw [finished, run_modify]
  cases hl : s.listener with
  | none =>
      refine ⟨s.state, s.log, ?_, [], rfl⟩
      show (Except.ok (), s) = _
      rw [← hl]
  | some l => exact ⟨_, _, rfl, l.finished_reports e s.state s.log⟩

/-- Whether a step from a session lets it grow and, if it ends without an error, advance to one of
which `Q` holds. The last part may assume `P`. -/
structure Keeps (s : Session σ) (P : Prop) (m : SessionM σ α) (Q : α → Session σ → Prop) :
    Prop where
  grows : s.Grows (m.run.run s).2
  advances : ∀ {a}, (m.run.run s).1 = .ok a → P → s.Sound → (m.run.run s).2.log.errors = 0 →
    s.Advances (m.run.run s).2 ∧ Q a (m.run.run s).2

namespace Keeps

theorem grows_of_run {r : Except TaskFault α} (h : Keeps s P m Q) (hrun : m.run.run s = (r, t)) :
    s.Grows t := by
  have hgrows := h.grows
  rwa [hrun] at hgrows

theorem advances_of_run {a : α} (h : Keeps s P m Q) (hrun : m.run.run s = (.ok a, t)) (hP : P)
    (hs : s.Sound) (herrors : t.log.errors = 0) : s.Advances t ∧ Q a t := by
  have hadvances := h.advances (a := a)
  simp only [hrun, forall_const] at hadvances
  exact hadvances hP hs herrors

theorem of_run {r : Except TaskFault α} (h : m.run.run s = (r, t)) (hgrows : s.Grows t)
    (hadvances : ∀ {a}, r = .ok a → P → s.Sound → t.log.errors = 0 → s.Advances t ∧ Q a t) :
    Keeps s P m Q := by
  constructor
  · rwa [h]
  · rwa [h]

theorem mono (h : Keeps s P m Q) (hP : P' → P) (hQ : ∀ a t, P' → Q a t → Q' a t) :
    Keeps s P' m Q' where
  grows := h.grows
  advances hrun hP' hs herrors :=
    have ⟨hadvances, hq⟩ := h.advances hrun (hP hP') hs herrors
    ⟨hadvances, hQ _ _ hP' hq⟩

theorem weaken (h : Keeps s P m Q) : Keeps s P m fun _ _ => True :=
  h.mono id fun _ _ _ _ => trivial

theorem pre (h : Keeps s P m Q) (hP : P' → P) : Keeps s P' m Q :=
  h.mono hP fun _ _ _ => id

theorem pure {a : α} (h : P → s.Sound → Q a s) : Keeps s P (pure a) Q := by
  refine of_run (r := .ok a) (t := s) rfl (.refl s) fun hr hP hs _ => ?_
  cases hr
  exact ⟨.of_eq hs rfl rfl rfl, h hP hs⟩

/-- A sequence of two steps. The second may use how the first has ended. -/
theorem bind (hm : Keeps s P m Q)
    (hf : ∀ a t, m.run.run s = (.ok a, t) → Keeps t (P ∧ Q a t) (f a) R) :
    Keeps s P (m >>= f) R := by
  rcases hrun : m.run.run s with ⟨_ | a, t⟩
  · have hgrows := hm.grows
    rw [hrun] at hgrows
    exact of_run (run_bind_error hrun) hgrows fun hr => by cases hr
  · have hgrows := hm.grows
    have hadvances := hm.advances (a := a)
    simp only [hrun, forall_const] at hgrows hadvances
    have hrest := hf a t hrun
    refine of_run (run_bind_ok hrun) (hgrows.trans hrest.grows) fun hr hP hs herrors => ?_
    have hle := hrest.grows.errors_le
    have hclean := Nat.eq_zero_of_le_zero (Nat.le_trans hle (Nat.le_of_eq herrors))
    obtain ⟨hst, hq⟩ := hadvances hP hs hclean
    obtain ⟨htu, hr⟩ := hrest.advances hr ⟨hP, hq⟩ hst.sound herrors
    exact ⟨.trans hgrows.toExtends hst hrest.grows.toExtends htu, hr⟩

/-- A sequence of two steps, the second of which may use how far the session has grown. -/
theorem bind_grows (hm : Keeps s P m Q)
    (hf : ∀ a t, s.Grows t → Keeps t (P ∧ Q a t) (f a) R) : Keeps s P (m >>= f) R :=
  hm.bind fun a t hrun => hf a t (hm.grows_of_run hrun)

theorem get {f : Session σ → SessionM σ β} (h : Keeps s P (f s) R) :
    Keeps s P (MonadState.get >>= f) R :=
  ⟨h.grows, h.advances⟩

/-- What follows a step may use that the session has advanced. -/
theorem remember (h : Keeps s P m Q) :
    Keeps s P m fun a t => Q a t ∧ s.Advances t ∧ s.Extends t where
  grows := h.grows
  advances hrun hP hs herrors :=
    have ⟨hadvances, hq⟩ := h.advances hrun hP hs herrors
    ⟨hadvances, hq, hadvances, h.grows.toExtends⟩

/-- A step may use that the session is sound. -/
theorem with_sound (h : Keeps s (P ∧ s.Sound) m Q) : Keeps s P m Q where
  grows := h.grows
  advances hrun hP hs herrors := h.advances hrun ⟨hP, hs⟩ hs herrors

theorem throw {e : TaskFault} : Keeps s P (throw e) Q :=
  of_run rfl (.refl s) fun h => by cases h

/-- A step that changes nothing that counts. -/
theorem of_run_eq {a : α} (h : m.run.run s = (.ok a, t)) (hst : s.Extends t)
    (hsources : t.sources = s.sources) (hsymbols : t.symbols = s.symbols)
    (htodo : t.todo = s.todo) (hq : P → s.Sound → Q a t) : Keeps s P m Q := by
  refine of_run h (.of_extends hst hsources) fun hr hP hs _ => ?_
  cases hr
  exact ⟨.of_eq hs hsources hsymbols htodo, hq hP hs⟩

/-! ## Reports -/

/-- After an error has been reported nothing is left to be shown. -/
theorem report {d : Diagnostic} {Q : Unit → Session σ → Prop} (hd : d.severity = .error) :
    Keeps s P (report d) Q := by
  refine of_run (t := { s with log := s.log.report d }) rfl
    (.of_extends { Session.Extends.refl s with log := ⟨[d], rfl⟩ } rfl) fun _ _ _ herrors => ?_
  simp [Log.report, hd] at herrors

theorem problem {source : String} {pos : Pos} {p : Problem} {Q : Unit → Session σ → Prop} :
    Keeps s P (problem source pos p) Q :=
  report rfl

/-- What follows an error need only let the session grow. -/
theorem report_bind {d : Diagnostic} {f : Unit → SessionM σ β} (hd : d.severity = .error)
    (hf : ∀ t, Keeps t False (f ()) R) : Keeps s P (SessionM.report d >>= f) R :=
  bind (Q := fun _ _ => False) (report hd) fun _ t _ => (hf t).pre And.right

theorem problem_bind {source : String} {pos : Pos} {p : Problem} {f : Unit → SessionM σ β}
    (hf : ∀ t, Keeps t False (f ()) R) :
    Keeps s P (SessionM.problem source pos p >>= f) R :=
  report_bind rfl hf

theorem advise (source : String) (pos : Pos) (a : Advice) :
    Keeps s P (advise source pos a) fun _ _ => True :=
  of_run_eq rfl { Session.Extends.refl s with log := ⟨[_], rfl⟩ } rfl rfl rfl fun _ _ => trivial

theorem started (e : TaskEvent) : Keeps s P (started e) fun _ _ => True := by
  obtain ⟨state, log, hrun, hlog⟩ := run_started s e
  exact of_run_eq hrun { Session.Extends.refl s with log := hlog } rfl rfl rfl fun _ _ => trivial

theorem finished (e : TaskEvent) : Keeps s P (finished e) fun _ _ => True := by
  obtain ⟨state, log, hrun, hlog⟩ := run_finished s e
  exact of_run_eq hrun { Session.Extends.refl s with log := hlog } rfl rfl rfl fun _ _ => trivial

theorem ofIo (r : Except IoFault α) : Keeps s P (ofIo r) fun a _ => r = .ok a := by
  cases r with
  | error e => exact throw
  | ok a => exact pure fun _ _ => rfl

/-! ## Lists -/

theorem findSomeM? {γ : Type} {f : β → SessionM σ (Option γ)} {R : γ → Session σ → Prop} :
    ∀ (bs : List β) {s : Session σ} {P : Prop}, (∀ b ∈ bs, ∀ t, Keeps t P (f b) fun r u =>
      ∀ c, r = some c → R c u) → Keeps s P (bs.findSomeM? f) fun r u => ∀ c, r = some c → R c u
  | [], _, _, _ => pure fun _ _ _ h => by cases h
  | b :: rest, s, P, h => by
      rw [List.findSomeM?_cons]
      refine (h b List.mem_cons_self s).bind fun r t _ => ?_
      cases r with
      | some c => exact pure fun hP _ => hP.2
      | none =>
          exact findSomeM? rest fun b hb u =>
            (h b (List.mem_cons_of_mem _ hb) u).pre And.left

/-- What is found for the elements of a list one after the other, if it stays true. -/
theorem mapM {f : β → SessionM σ α} {R : α → β → Session σ → Prop}
    (hR : ∀ {a : α} {b : β} {s t : Session σ}, s.Extends t → R a b s → R a b t) :
    ∀ (bs : List β) {s : Session σ} {P : Prop},
      (∀ b ∈ bs, ∀ t, Keeps t P (f b) fun a u => R a b u) →
      Keeps s P (bs.mapM f) fun as t => List.Forall₂ (fun a b => R a b t) as bs
  | [], _, _, _ => pure fun _ _ => .nil
  | b :: rest, s, P, h => by
      rw [List.mapM_cons]
      refine (h b List.mem_cons_self s).bind fun a t _ => ?_
      refine (mapM (R := R) hR rest fun b hb u =>
        (h b (List.mem_cons_of_mem _ hb) u).pre And.left).bind_grows fun as u htu => ?_
      exact pure fun hP _ => .cons (hR htu.toExtends hP.1.2) hP.2

end Keeps

end SessionM

end ProbeLang
