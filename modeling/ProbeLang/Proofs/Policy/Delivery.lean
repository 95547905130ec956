import ProbeLang.Proofs.Compiler.Calls
import ProbeLang.Proofs.Session.Turns

/-!
# No listener is lost

A verifier that is set up takes the listener out of its place and puts itself behind it, so the
place is never taken when it is filled and setting verifiers up never fails. Whatever is told
afterwards reaches the listener that was there first, or all listeners of which it is made, and then
the verifiers in the order in which they were set up, each of them once.
-/

namespace ProbeLang

open SessionM

variable {σ : Type}

namespace Verifier

/-- A verifier listens behind what was there before it. -/
theorem gathers_listenAfter (v : Verifier) (registry : ClassRegistry σ) {l : TaskListener σ}
    {ls : List (TaskListener σ)} (h : l.Gathers ls) :
    (v.listenAfter registry (some l)).Gathers (ls ++ [v.listener registry]) :=
  .pair h (.one _)

end Verifier

namespace Session

variable {s u : Session σ} {ls : List (TaskListener σ)}

/-- Setting a verifier up adds it to the listeners. -/
theorem Listeners.withVerifier (h : s.Listeners ls) (v : Verifier) (registry : ClassRegistry σ)
    (state : σ) : Listeners { s with
      state
      listener := some (v.listenAfter registry s.listener) } (ls ++ [v.listener registry]) := by
  unfold Listeners at h
  show (v.listenAfter registry s.listener).Gathers _
  cases hold : s.listener with
  | none =>
      rw [hold] at h
      subst h
      exact .one _
  | some l =>
      rw [hold] at h
      exact v.gathers_listenAfter registry h

end Session

namespace SessionM

/-- Tell the listener of a session something. -/
def notify : Notice → SessionM σ Unit
  | .started e => started e
  | .finished e => finished e

theorem run_notify (n : Notice) (s : Session σ) : (notify n).run.run s = (.ok (), told s n) := by
  cases n with
  | started e => exact run_started_eq s e
  | finished e => exact run_finished_eq s e

/-- Telling something changes what the listeners work on and nothing else. -/
theorem told_eq (s : Session σ) (n : Notice) :
    told s n = { s with state := (told s n).state, log := (told s n).log } := by
  unfold told
  split <;> rfl

/-- Setting verifiers up adds them to the listeners, in their order. -/
theorem initPlugins_listeners : ∀ (vs : List (Verifier × ClassRegistry σ)) {s : Session σ}
    {ls : List (TaskListener σ)}, s.Listeners ls →
    ∃ t, (initPlugins (vs.map fun p => p.1.plugin p.2)).run.run s = (.ok (), t) ∧
      (∃ listener state, t = { s with listener, state }) ∧
      t.Listeners (ls ++ vs.map fun p => p.1.listener p.2)
  | [], s, ls, h => ⟨s, rfl, ⟨_, _, rfl⟩, by rwa [List.map_nil, List.append_nil]⟩
  | (v, registry) :: rest, s, ls, h => by
      obtain ⟨t, hrun, ⟨listener, state, rfl⟩, hlisteners⟩ :=
        initPlugins_listeners rest (h.withVerifier v registry (registry.put [] s.state))
      refine ⟨_, hrun, ⟨listener, state, rfl⟩, ?_⟩
      rwa [List.append_assoc] at hlisteners

/-- Verifiers can always be set up, whatever listeners there are. From then on everything that is
told reaches first the listeners that were there and then the verifiers, in the order in which they
were set up and each once, and a listener finds all that those in front of it have reported in the
log, errors and warnings counted. -/
theorem initPlugins_delivers (vs : List (Verifier × ClassRegistry σ)) {s : Session σ}
    {ls : List (TaskListener σ)} (h : s.Listeners ls) :
    ∃ t, (initPlugins (vs.map fun p => p.1.plugin p.2)).run.run s = (.ok (), t) ∧
      (∃ listener state, t = { s with listener, state }) ∧
      ∀ u : Session σ, u.listener = t.listener → ∀ n : Notice,
        ∃ (turns : List (Turn σ)) (state : σ) (log : Log),
          (notify n).run.run u = (.ok (), { u with state, log }) ∧
          turns.map Turn.listener = ls ++ vs.map (fun p => p.1.listener p.2) ∧
          Turns n turns u.state u.log state log ∧
          ∀ (front : List (Turn σ)) (turn : Turn σ) (behind : List (Turn σ)),
            turns = front ++ turn :: behind →
              let before := front.flatMap Turn.reported
              turn.found = u.log.reportAll before ∧
                turn.found.errors = u.log.errors + before.countP (·.severity = .error) ∧
                turn.found.warnings = u.log.warnings + before.countP (·.severity = .warning) := by
  obtain ⟨t, hrun, hsame, hlisteners⟩ := initPlugins_listeners vs h
  refine ⟨t, hrun, hsame, fun u hu n => ?_⟩
  have hu : u.Listeners (ls ++ vs.map fun p => p.1.listener p.2) := by
    unfold Session.Listeners at hlisteners ⊢
    rwa [hu]
  obtain ⟨turns, hturns, hnotice⟩ := hu.turns n
  refine ⟨turns, (told u n).state, (told u n).log, ?_, hturns, hnotice, ?_⟩
  · rw [run_notify, ← told_eq]
  · rintro front turn behind rfl
    have hfound := hnotice.found
    refine ⟨hfound, ?_, ?_⟩
    · rw [hfound, Log.errors_reportAll]
    · rw [hfound, Log.warnings_reportAll]

end SessionM

/-! ## A nest of four -/

/-- A listener that puts its name into a list whenever it is told something. -/
def diarist (name : String) : TaskListener (List String) where
  started _ diary log := (diary ++ [name], log)
  finished _ diary log := (diary ++ [name], log)

/-- Two verifiers that write the classes into the same list. -/
def diaryVerifiers : List (Verifier × ClassRegistry (List String)) :=
  [({ policy := .strict }, ⟨id, fun names _ => names⟩),
    ({ policy := .strict }, ⟨id, fun names _ => names⟩)]

/-- A session with a nest of two listeners. -/
def diarySession : Session (List String) where
  options := {}
  files := .empty
  store := .inMemory none
  listener := some (.all [diarist "first", .all [diarist "second"]])
  state := []

/-- The end of the analysis of a class with a field that is not static. -/
def diaryEvent : TaskEvent where
  phase := .analyze
  source := "Box"
  unit := (UnitTree.parse "Box" "class Box { int f; }").toOption
  type := some ⟨0, "Box", "Box"⟩

theorem initPlugins_delivers_diary :
    diarySession.Listeners [diarist "first", diarist "second"] ∧
      ∃ t, (initPlugins (diaryVerifiers.map fun p => p.1.plugin p.2)).run.run diarySession =
          (.ok (), t) ∧
        ∃ (turns : List (Turn (List String))) (log : Log),
          (notify (.finished diaryEvent)).run.run t =
            (.ok (), { t with state := ["first", "second", "Box", "Box"], log }) ∧
          log.errors = 2 ∧
          turns.map Turn.listener = [diarist "first", diarist "second"] ++
            diaryVerifiers.map (fun p => p.1.listener p.2) ∧
          ∀ front turn behind, turns = front ++ turn :: behind →
            turn.found.errors = (front.flatMap Turn.reported).countP (·.severity = .error) := by
  have hnest : (TaskListener.all [diarist "second"]).Gathers [diarist "second"] :=
    .single (.one _)
  have hlisteners : diarySession.Listeners [diarist "first", diarist "second"] :=
    .pair (.one _) hnest
  refine ⟨hlisteners, ?_⟩
  obtain ⟨t, hrun, -, hdelivers⟩ := initPlugins_delivers diaryVerifiers hlisteners
  have hset : (initPlugins (diaryVerifiers.map fun p => p.1.plugin p.2)).run.run diarySession =
    (.ok (), _) := rfl
  obtain ⟨turns, state, log, hnotify, hturns, -, hfound⟩ := hdelivers t rfl (.finished diaryEvent)
  cases hset.symm.trans hrun
  have hstate : state = ["first", "second", "Box", "Box"] ∧ log.errors = 2 := by
    have htold := (Prod.mk.inj hnotify).2.symm
    refine ⟨(congrArg Session.state htold).trans ?_,
      (congrArg (fun s => s.log.errors) htold).trans ?_⟩ <;> decide +kernel
  obtain ⟨rfl, herrors⟩ := hstate
  refine ⟨_, hrun, turns, log, hnotify, herrors, hturns, fun front turn behind hsplit => ?_⟩
  exact (hfound front turn behind hsplit).2.1.trans (Nat.zero_add _)

end ProbeLang
