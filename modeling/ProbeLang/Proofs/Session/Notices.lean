import ProbeLang.Proofs.Session.Growth

/-!
# What a listener is told

A listener is told that phases start and finish. Between two notices the task reports diagnostics of
its own, and does nothing else to what the listener works on: its state and the log. So a listener
that has been told some notices is left with what it makes of them, one after the other
(`TaskListener.Hears`), and one that writes all notices down has written just these
(`TaskListener.Records`).
-/

namespace ProbeLang

/-- What a listener is told. -/
inductive Notice
  | started (e : TaskEvent)
  | finished (e : TaskEvent)

namespace TaskListener

variable {σ : Type}

/-- Tell a listener. -/
def tell (l : TaskListener σ) : Notice → σ → Log → σ × Log
  | .started e => l.started e
  | .finished e => l.finished e

/-- Whether a listener that is told some notices leads from a state and a log to others, when
diagnostics may be reported at any point. -/
inductive Hears (l : TaskListener σ) : List Notice → σ → Log → σ → Log → Prop
  | done (state : σ) (log : Log) : Hears l [] state log state log
  | report (ds : List Diagnostic) {ns : List Notice} {state state' : σ} {log log' : Log} :
      Hears l ns state (log.reportAll ds) state' log' → Hears l ns state log state' log'
  | next (n : Notice) {ns : List Notice} {state state' : σ} {log log' : Log} :
      Hears l ns (l.tell n state log).1 (l.tell n state log).2 state' log' →
        Hears l (n :: ns) state log state' log'

theorem Hears.append {l : TaskListener σ} {ns ns' : List Notice} {state state' state'' : σ}
    {log log' log'' : Log} (h : l.Hears ns state log state' log')
    (h' : l.Hears ns' state' log' state'' log'') : l.Hears (ns ++ ns') state log state'' log'' := by
  induction h with
  | done => exact h'
  | report ds _ ih => exact .report ds (ih h')
  | next n _ ih => exact .next n (ih h')

/-- Whether a listener writes down, in a part of its state, all that it is told. -/
def Records {α : Type} (l : TaskListener σ) (note : Notice → α) (book : σ → List α) : Prop :=
  ∀ n state log, book (l.tell n state log).1 = book state ++ [note n]

/-- A listener that writes down what it is told has written down just the notices. -/
theorem Hears.recorded {α : Type} {l : TaskListener σ} {note : Notice → α} {book : σ → List α}
    (hl : l.Records note book) {ns : List Notice} {state state' : σ} {log log' : Log}
    (h : l.Hears ns state log state' log') : book state' = book state ++ ns.map note := by
  induction h with
  | done => exact (List.append_nil _).symm
  | report ds _ ih => exact ih
  | next n _ ih => rw [ih, hl, List.append_assoc, List.map_cons, List.singleton_append]

end TaskListener

namespace Session

variable {σ : Type} {s t u : Session σ} {ns ns' : List Notice}

/-- Whether the listener of a session has been told just the given notices when it has become
another. Without a listener nobody has been told anything. -/
structure Tells (s : Session σ) (ns : List Notice) (t : Session σ) : Prop where
  listener : t.listener = s.listener
  called : t.called = s.called
  heard : ∀ l, s.listener = some l → l.Hears ns s.state s.log t.state t.log
  unheard : s.listener = none → t.state = s.state

namespace Tells

theorem refl (s : Session σ) : s.Tells [] s :=
  ⟨rfl, rfl, fun _ _ => .done _ _, fun _ => rfl⟩

theorem trans (h : s.Tells ns t) (h' : t.Tells ns' u) : s.Tells (ns ++ ns') u where
  listener := h'.listener.trans h.listener
  called := h'.called.trans h.called
  heard l hl := (h.heard l hl).append (h'.heard l (h.listener.trans hl))
  unheard hl := (h'.unheard (h.listener.trans hl)).trans (h.unheard hl)

/-- A session in which only diagnostics have been reported. -/
theorem of_log (hlistener : t.listener = s.listener) (hcalled : t.called = s.called)
    (hstate : t.state = s.state) (hlog : ∃ ds, t.log = s.log.reportAll ds) : s.Tells [] t where
  listener := hlistener
  called := hcalled
  heard l _ := by
    obtain ⟨ds, hds⟩ := hlog
    rw [hstate, hds]
    exact .report ds (.done _ _)
  unheard _ := hstate

/-- What has been told to a listener that writes it down. -/
theorem recorded {α : Type} {l : TaskListener σ} {note : Notice → α} {book : σ → List α}
    (h : s.Tells ns t) (hs : s.listener = some l) (hl : l.Records note book) :
    book t.state = book s.state ++ ns.map note :=
  (h.heard l hs).recorded hl

end Tells

end Session

namespace SessionM

variable {σ : Type} (s : Session σ) (e : TaskEvent)

/-- The session once its listener has been told. -/
def told (s : Session σ) (n : Notice) : Session σ :=
  match s.listener with
  | none => s
  | some l => { s with state := (l.tell n s.state s.log).1, log := (l.tell n s.state s.log).2 }

theorem run_started_eq : (started e).run.run s = (.ok (), told s (.started e)) := rfl

theorem run_finished_eq : (finished e).run.run s = (.ok (), told s (.finished e)) := rfl

theorem tells_told (n : Notice) : s.Tells [n] (told s n) := by
  unfold told
  split
  · next hl =>
      refine ⟨rfl, rfl, fun l hl' => ?_, fun _ => rfl⟩
      rw [hl] at hl'
      cases hl'
  · next l hl =>
      refine ⟨rfl, rfl, fun l' hl' => ?_, fun hl' => ?_⟩
      · rw [hl] at hl'
        cases hl'
        exact .next n (.done _ _)
      · rw [hl] at hl'
        cases hl'

end SessionM

end ProbeLang
