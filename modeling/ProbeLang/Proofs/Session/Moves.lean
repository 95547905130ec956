import Mathlib.Order.Defs.Unbundled
import ProbeLang.Proofs.Session.Soundness

/-!
# What a step leads to

What all steps of a kind have in common is a relation `R` between the sessions before and behind
them that is reflexive and transitive. A step that ends with a fault has come half of the way: it
leads along `R` to some session, and from there to its end in a way `T` in which its fault is met.
`SessionM.Moves` says that a step obeys both, and what holds of its answer if it has one, whether or
not an error has been reported.
-/

namespace ProbeLang

namespace SessionM

variable {σ α β : Type} {R R' : Session σ → Session σ → Prop}
  {T T' : TaskFault → Session σ → Session σ → Prop} {s t : Session σ} {m : SessionM σ α}
  {f : α → SessionM σ β} {Q Q' : α → Session σ → Prop} {Q'' : β → Session σ → Prop}

/-- A sequence of two steps ends with a fault only if one of the two does. -/
theorem of_run_bind_error {e : TaskFault} (h : (m >>= f).run.run s = (.error e, t)) :
    m.run.run s = (.error e, t) ∨
      ∃ a u, m.run.run s = (.ok a, u) ∧ (f a).run.run u = (.error e, t) := by
  rcases hrun : m.run.run s with ⟨e' | a, u⟩
  · rw [run_bind_error hrun] at h
    cases h
    exact .inl rfl
  · rw [run_bind_ok hrun] at h
    exact .inr ⟨a, u, rfl, h⟩

/-- Whether a step leads along `R` to an answer of which `Q` holds, or along `R` and then `T` to a
fault. -/
structure Moves (R : Session σ → Session σ → Prop)
    (T : TaskFault → Session σ → Session σ → Prop) (s : Session σ) (m : SessionM σ α)
    (Q : α → Session σ → Prop) : Prop where
  answers : ∀ {a t}, m.run.run s = (.ok a, t) → R s t ∧ Q a t
  faults : ∀ {e t}, m.run.run s = (.error e, t) → ∃ u, R s u ∧ T e u t

namespace Moves

/-- A step that always ends with an answer. -/
theorem of_run_ok {a : α} (h : m.run.run s = (.ok a, t)) (hst : R s t) (hq : Q a t) :
    Moves R T s m Q := by
  constructor
  · intro a' t' h'
    rw [h] at h'
    cases h'
    exact ⟨hst, hq⟩
  · intro e t' h'
    rw [h] at h'
    cases h'

/-- A step that always ends with a fault. -/
theorem of_run_error {e : TaskFault} (h : m.run.run s = (.error e, t)) {u : Session σ} (hsu : R s u)
    (hut : T e u t) : Moves R T s m Q := by
  constructor
  · intro a t' h'
    rw [h] at h'
    cases h'
  · intro e' t' h'
    rw [h] at h'
    cases h'
    exact ⟨u, hsu, hut⟩

theorem mono (h : Moves R T s m Q) (hQ : ∀ a t, R s t → Q a t → Q' a t) : Moves R T s m Q' where
  answers hrun :=
    have ⟨hst, hq⟩ := h.answers hrun
    ⟨hst, hQ _ _ hst hq⟩
  faults := h.faults

theorem weaken (h : Moves R T s m Q) : Moves R T s m fun _ _ => True :=
  h.mono fun _ _ _ _ => trivial

theorem rel (h : Moves R T s m Q) (hR : ∀ {t}, R s t → R' s t) : Moves R' T s m Q where
  answers hrun :=
    have ⟨hst, hq⟩ := h.answers hrun
    ⟨hR hst, hq⟩
  faults hrun :=
    have ⟨u, hsu, hut⟩ := h.faults hrun
    ⟨u, hR hsu, hut⟩

theorem get {f : Session σ → SessionM σ β} (h : Moves R T s (f s) Q'') :
    Moves R T s (MonadState.get >>= f) Q'' :=
  ⟨h.answers, h.faults⟩

variable [IsPreorder (Session σ) R]

/-- A step that goes on with another one where a first part has led to. -/
theorem after {m' : SessionM σ α} (h : m.run.run s = m'.run.run t) (hst : R s t)
    (h' : Moves R T t m' Q) : Moves R T s m Q where
  answers hrun :=
    have ⟨htu, hq⟩ := h'.answers (h ▸ hrun)
    ⟨trans_of R hst htu, hq⟩
  faults hrun :=
    have ⟨u, htu, huv⟩ := h'.faults (h ▸ hrun)
    ⟨u, trans_of R hst htu, huv⟩

theorem pure {a : α} (h : Q a s) : Moves R T s (pure a) Q :=
  of_run_ok rfl (refl_of R s) h

theorem throw {e : TaskFault} (h : T e s s) : Moves R T s (throw e) Q :=
  of_run_error rfl (refl_of R s) h

/-- A sequence of two steps. The second may use how the first has ended. -/
theorem bind_run (hm : Moves R T s m Q)
    (hf : ∀ a t, m.run.run s = (.ok a, t) → R s t → Q a t → Moves R T t (f a) Q'') :
    Moves R T s (m >>= f) Q'' where
  answers hrun := by
    obtain ⟨a, u, hfirst, hrest⟩ := of_run_bind hrun
    obtain ⟨hsu, hq⟩ := hm.answers hfirst
    obtain ⟨hut, hq'⟩ := (hf a u hfirst hsu hq).answers hrest
    exact ⟨trans_of R hsu hut, hq'⟩
  faults hrun := by
    rcases of_run_bind_error hrun with hfirst | ⟨a, u, hfirst, hrest⟩
    · exact hm.faults hfirst
    · obtain ⟨hsu, hq⟩ := hm.answers hfirst
      obtain ⟨v, huv, hvt⟩ := (hf a u hfirst hsu hq).faults hrest
      exact ⟨v, trans_of R hsu huv, hvt⟩

/-- A sequence of two steps. The second may use where the first has led to. -/
theorem bind (hm : Moves R T s m Q) (hf : ∀ a t, R s t → Q a t → Moves R T t (f a) Q'') :
    Moves R T s (m >>= f) Q'' :=
  hm.bind_run fun a t _ => hf a t

theorem findSomeM? {γ : Type} {f : β → SessionM σ (Option γ)} {Q : γ → Session σ → Prop} :
    ∀ (bs : List β) {s : Session σ},
      (∀ b ∈ bs, ∀ t, Moves R T t (f b) fun r u => ∀ c, r = some c → Q c u) →
      Moves R T s (bs.findSomeM? f) fun r u => ∀ c, r = some c → Q c u
  | [], _, _ => pure fun _ h => by cases h
  | b :: rest, s, h => by
      rw [List.findSomeM?_cons]
      refine (h b List.mem_cons_self s).bind fun r t _ hr => ?_
      cases r with
      | some c => exact pure hr
      | none => exact findSomeM? rest fun b hb => h b (List.mem_cons_of_mem _ hb)

theorem mapM {f : β → SessionM σ α} : ∀ (bs : List β) {s : Session σ},
    (∀ b ∈ bs, ∀ t, Moves R T t (f b) fun _ _ => True) →
    Moves R T s (bs.mapM f) fun _ _ => True
  | [], _, _ => pure trivial
  | b :: rest, s, h => by
      rw [List.mapM_cons]
      refine (h b List.mem_cons_self s).bind fun _ _ _ _ => ?_
      refine (mapM rest fun b hb => h b (List.mem_cons_of_mem _ hb)).bind fun _ _ _ _ => ?_
      exact pure trivial

end Moves

end SessionM

end ProbeLang
