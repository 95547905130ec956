import ProbeLang.Proofs.Session.Notices

/-!
# Listeners behind one another

A session has one place for a listener. Several of them share it by being put behind one another,
and what is told to such a nest is told to each of them in its turn. So a turn begins with the log
that the listeners in front have left, in which all that they have reported is counted
(`Turns.found`), and every listener of a nest has just one turn (`TaskListener.Gathers.turns`).
-/

namespace ProbeLang

variable {σ : Type}

/-! ## Turns -/

/-- The turn of a listener that is told something: the log that it finds and what it reports. -/
structure Turn (σ : Type) where
  listener : TaskListener σ
  found : Log
  reported : List Diagnostic

/-- Whether listeners that are told a notice one after the other lead from a state and a log to
others. -/
inductive Turns (n : Notice) : List (Turn σ) → σ → Log → σ → Log → Prop
  | done (state : σ) (log : Log) : Turns n [] state log state log
  | next (l : TaskListener σ) {ds : List Diagnostic} {turns : List (Turn σ)} {state state' : σ}
      {log log' : Log} (reports : (l.tell n state log).2 = log.reportAll ds)
      (rest : Turns n turns (l.tell n state log).1 (log.reportAll ds) state' log') :
      Turns n (⟨l, log, ds⟩ :: turns) state log state' log'

namespace Turns

variable {n : Notice} {turns turns' : List (Turn σ)} {state state' state'' : σ}
  {log log' log'' : Log}

theorem append (h : Turns n turns state log state' log')
    (h' : Turns n turns' state' log' state'' log'') :
    Turns n (turns ++ turns') state log state'' log'' := by
  induction h with
  | done => exact h'
  | next l reports _ ih => exact .next l reports (ih h')

/-- Nothing gets into the log but what the listeners report, in their order. -/
theorem log_eq (h : Turns n turns state log state' log') :
    log' = log.reportAll (turns.flatMap Turn.reported) := by
  induction h with
  | done => rfl
  | next l _ _ ih => rw [ih, List.flatMap_cons, Log.reportAll_append]

/-- A listener finds in the log what those in front of it have reported. -/
theorem found {front behind : List (Turn σ)} {turn : Turn σ}
    (h : Turns n (front ++ turn :: behind) state log state' log') :
    turn.found = log.reportAll (front.flatMap Turn.reported) := by
  induction front generalizing state log with
  | nil =>
      cases h
      rfl
  | cons first front ih =>
      cases h with
      | next l reports rest => rw [ih rest, List.flatMap_cons, Log.reportAll_append]

/-- What a listener reports is what it leaves behind in the log. -/
theorem reports (h : Turns n turns state log state' log') : ∀ turn ∈ turns, ∃ state : σ,
    (turn.listener.tell n state turn.found).2 = turn.found.reportAll turn.reported := by
  induction h with
  | done => exact List.forall_mem_nil _
  | next l reports _ ih => exact List.forall_mem_cons.mpr ⟨⟨_, reports⟩, ih⟩

end Turns

/-! ## Nests -/

namespace TaskListener

/-- Whether a listener is made of others, in their order: it is one of its own, or passes on what it
is told to a list of listeners, each of which may again be made of others. -/
inductive Gathers : TaskListener σ → List (TaskListener σ) → Prop
  | one (l : TaskListener σ) : Gathers l [l]
  | nil : Gathers (all []) []
  | push {ls parts parts' : List (TaskListener σ)} {l : TaskListener σ} :
      Gathers (all ls) parts → Gathers l parts' → Gathers (all (ls ++ [l])) (parts ++ parts')

namespace Gathers

variable {l l' : TaskListener σ} {parts parts' : List (TaskListener σ)}

theorem single (h : l.Gathers parts) : (all [l]).Gathers parts := by
  have hall : (all ([] ++ [l])).Gathers ([] ++ parts) := .push .nil h
  exact hall

theorem pair (h : l.Gathers parts) (h' : l'.Gathers parts') :
    (all [l, l']).Gathers (parts ++ parts') := by
  have hall : (all ([l] ++ [l'])).Gathers (parts ++ parts') := .push h.single h'
  exact hall

end Gathers

theorem tell_reports (l : TaskListener σ) (n : Notice) (state : σ) (log : Log) :
    ∃ ds, (l.tell n state log).2 = log.reportAll ds := by
  cases n with
  | started e => exact l.started_reports e state log
  | finished e => exact l.finished_reports e state log

theorem tell_andThen (l l' : TaskListener σ) (n : Notice) (state : σ) (log : Log) :
    (l.andThen l').tell n state log = l'.tell n (l.tell n state log).1 (l.tell n state log).2 := by
  cases n <;> rfl

theorem tell_silent (n : Notice) (state : σ) (log : Log) :
    (silent : TaskListener σ).tell n state log = (state, log) := by
  cases n <;> rfl

theorem all_concat (ls : List (TaskListener σ)) (l : TaskListener σ) :
    all (ls ++ [l]) = (all ls).andThen l :=
  List.foldl_append

/-- In a nest each listener has one turn. -/
theorem Gathers.turns {l : TaskListener σ} {ls : List (TaskListener σ)} (h : l.Gathers ls)
    (n : Notice) (state : σ) (log : Log) : ∃ turns : List (Turn σ), turns.map Turn.listener = ls ∧
      Turns n turns state log (l.tell n state log).1 (l.tell n state log).2 := by
  induction h generalizing state log with
  | one l =>
      obtain ⟨ds, hds⟩ := l.tell_reports n state log
      refine ⟨[⟨l, log, ds⟩], rfl, .next l hds ?_⟩
      rw [hds]
      exact .done _ _
  | nil =>
      refine ⟨[], rfl, ?_⟩
      show Turns n [] state log (silent.tell n state log).1 (silent.tell n state log).2
      rw [tell_silent]
      exact .done state log
  | push _ _ ih ih' =>
      obtain ⟨turns, hturns, hfirst⟩ := ih state log
      obtain ⟨turns', hturns', hlast⟩ := ih' _ _
      refine ⟨turns ++ turns', by rw [List.map_append, hturns, hturns'], ?_⟩
      rw [all_concat, tell_andThen]
      exact hfirst.append hlast

end TaskListener

/-- The listeners of a session: those of which its listener is made, and none without one. -/
def Session.Listeners (s : Session σ) (ls : List (TaskListener σ)) : Prop :=
  match s.listener with
  | none => ls = []
  | some l => l.Gathers ls

/-- Telling something gives each of the listeners of a session one turn. -/
theorem Session.Listeners.turns {s : Session σ} {ls : List (TaskListener σ)} (h : s.Listeners ls)
    (n : Notice) : ∃ turns : List (Turn σ), turns.map Turn.listener = ls ∧
      Turns n turns s.state s.log (SessionM.told s n).state (SessionM.told s n).log := by
  unfold Listeners at h
  unfold SessionM.told
  cases hl : s.listener with
  | none =>
      rw [hl] at h
      subst h
      exact ⟨[], rfl, .done _ _⟩
  | some l =>
      rw [hl] at h
      exact h.turns n s.state s.log

/-! ## Rounds -/

/-- A notice and the turns of the listeners that are told it. -/
structure Round (σ : Type) where
  notice : Notice
  turns : List (Turn σ)

/-- Whether rounds lead from a state and a log to others, when diagnostics may be reported between
any two of them. -/
inductive Rounds : List (Round σ) → σ → Log → σ → Log → Prop
  | done (state : σ) (log : Log) : Rounds [] state log state log
  | report (ds : List Diagnostic) {rounds : List (Round σ)} {state state' : σ} {log log' : Log} :
      Rounds rounds state (log.reportAll ds) state' log' → Rounds rounds state log state' log'
  | next {n : Notice} {turns : List (Turn σ)} {rounds : List (Round σ)}
      {state state' state'' : σ} {log log' log'' : Log} :
      Turns n turns state log state' log' → Rounds rounds state' log' state'' log'' →
        Rounds (⟨n, turns⟩ :: rounds) state log state'' log''

variable {ls : List (TaskListener σ)} {ns : List Notice} {state state' : σ} {log log' : Log}

theorem Rounds.turns {rounds : List (Round σ)} (h : Rounds rounds state log state' log') :
    ∀ round ∈ rounds, ∃ (state state' : σ) (log log' : Log),
      Turns round.notice round.turns state log state' log' := by
  induction h with
  | done => exact List.forall_mem_nil _
  | report ds _ ih => exact ih
  | next hturns _ ih => exact List.forall_mem_cons.mpr ⟨⟨_, _, _, _, hturns⟩, ih⟩

/-- Rounds of nobody leave everything as it is. -/
theorem rounds_of_nobody (ns : List Notice) (state : σ) (log : Log) :
    Rounds (ns.map fun n => ⟨n, []⟩) state log state log := by
  induction ns with
  | nil => exact .done state log
  | cons n ns ih => exact .next (.done state log) ih

/-- What a nest is told gives each of its listeners one turn in each round. -/
theorem TaskListener.Hears.rounds {l : TaskListener σ} (hl : l.Gathers ls)
    (h : l.Hears ns state log state' log') : ∃ rounds : List (Round σ),
      rounds.map Round.notice = ns ∧ (∀ round ∈ rounds, round.turns.map Turn.listener = ls) ∧
      Rounds rounds state log state' log' := by
  induction h with
  | done state log => exact ⟨[], rfl, List.forall_mem_nil _, .done state log⟩
  | report ds _ ih =>
      obtain ⟨rounds, hnotices, hlisteners, hrounds⟩ := ih
      exact ⟨rounds, hnotices, hlisteners, .report ds hrounds⟩
  | @next n _ state _ log _ _ ih =>
      obtain ⟨rounds, hnotices, hlisteners, hrounds⟩ := ih
      obtain ⟨turns, hturns, hnotice⟩ := hl.turns n state log
      exact ⟨⟨n, turns⟩ :: rounds, congrArg (n :: ·) hnotices,
        List.forall_mem_cons.mpr ⟨hturns, hlisteners⟩, .next hnotice hrounds⟩

/-- What a session tells gives each of its listeners one turn in each round. -/
theorem Session.Tells.rounds {s t : Session σ} (h : s.Tells ns t) (hs : s.Listeners ls)
    (hlog : ∃ ds, t.log = s.log.reportAll ds) : ∃ rounds : List (Round σ),
      rounds.map Round.notice = ns ∧ (∀ round ∈ rounds, round.turns.map Turn.listener = ls) ∧
      Rounds rounds s.state s.log t.state t.log := by
  unfold Listeners at hs
  cases hl : s.listener with
  | none =>
      rw [hl] at hs
      subst hs
      obtain ⟨ds, hds⟩ := hlog
      refine ⟨ns.map fun n => ⟨n, []⟩, ?_, List.forall_mem_map.mpr fun _ _ => rfl, ?_⟩
      · rw [List.map_map]
        exact List.map_id ns
      · rw [h.unheard hl, hds]
        exact .report ds (rounds_of_nobody ns s.state _)
  | some l =>
      rw [hl] at hs
      exact (h.heard l hl).rounds hs

end ProbeLang
