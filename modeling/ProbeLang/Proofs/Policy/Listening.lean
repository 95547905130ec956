import ProbeLang.Compiler
import ProbeLang.Proofs.Policy.Occurrences
import ProbeLang.Proofs.Session.Growth
import ProbeLang.Proofs.Task.Persistence

/-!
# Verifiers that listen

The verifiers of a compiler are its plugins. Each puts itself behind the listeners that are there, so
all of them are told of every class that has been analysed, and each reports an error unless the class
is exempt or its policy finds nothing wrong with it. Only an argument `unsafe` or `trusted` with the
value `true` exempts a class.
-/

namespace ProbeLang

open SessionM

/-! ## Trust -/

/-- Whether an annotation argument exempts a class from verification. -/
def AnnotationArg.Exempts (arg : AnnotationArg) : Prop :=
  ∃ name n, arg = .named name (.literal n (.bool true)) ∧
    (name.name = "unsafe" ∨ name.name = "trusted")

/-- Whether an annotation argument of a class exempts it from verification. -/
def ClassDecl.Exempt (c : ClassDecl) : Prop :=
  ∃ a ∈ c.modifiers.annotations, ∃ arg ∈ a.args, arg.Exempts

theorem Trust.exempt_ofValues : ∀ {values : List TrustValue},
    (Trust.ofValues values).exempt = true → .exempt ∈ values
  | .exempt :: _, _ => List.mem_cons_self
  | .notExempt :: _, h | .malformed _ :: _, h =>
      List.mem_cons_of_mem _ (Trust.exempt_ofValues h)

theorem TrustValue.of_exempt {e : Expr} (h : TrustValue.ofExpr e = .exempt) :
    ∃ n, e = .literal n (.bool true) := by
  unfold ofExpr at h
  split at h
  · exact ⟨_, rfl⟩
  · cases h
  · cases h

/-- What is exempt has an argument that says so. -/
theorem ClassDecl.exempt_of_trust {c : ClassDecl} (h : (Trust.ofModifiers c.modifiers).exempt = true) :
    c.Exempt := by
  obtain ⟨arg, harg, heq⟩ := List.mem_filterMap.mp (Trust.exempt_ofValues h)
  obtain ⟨a, ha, harg⟩ := List.mem_flatMap.mp harg
  refine ⟨a, ha, arg, harg, ?_⟩
  cases arg with
  | value e => cases heq
  | named name e =>
      dsimp only at heq
      split at heq
      · next hname =>
          obtain ⟨n, rfl⟩ := TrustValue.of_exempt (Option.some.inj heq)
          refine ⟨name, n, rfl, ?_⟩
          simpa [Trust.keys] using hname
      · cases heq

/-! ## Listeners -/

variable {σ : Type}

/-- Whether a listener that is told of an analysed class reports what a verifier finds wrong with it. -/
def TaskListener.Reports (l : TaskListener σ) (v : Verifier) : Prop :=
  ∀ (e : TaskEvent) (state : σ) (log : Log) (tree : UnitTree) (c : ClassDecl),
    e.phase = .analyze → e.unit = some tree → e.decl? = some c →
      (l.finished e state log).2.errors = 0 → v.policyErrors tree.source (tree.binaryName c) c = []

namespace TaskListener.Reports

variable {l l' : TaskListener σ} {v : Verifier}

theorem andThen_left (h : l.Reports v) (l' : TaskListener σ) : (l.andThen l').Reports v := by
  intro e state log tree c hphase hunit hdecl herrors
  refine h e state log tree c hphase hunit hdecl ?_
  obtain ⟨ds, hds⟩ := l'.finished_reports e (l.finished e state log).1 (l.finished e state log).2
  have hle := Log.errors_le_reportAll ds (l.finished e state log).2
  rw [← hds] at hle
  exact Nat.eq_zero_of_le_zero (Nat.le_trans hle (Nat.le_of_eq herrors))

theorem andThen_right (l : TaskListener σ) (h : l'.Reports v) : (l.andThen l').Reports v :=
  fun e _ _ tree c hphase hunit hdecl herrors => h e _ _ tree c hphase hunit hdecl herrors

/-- A verifier reports what it finds wrong. -/
theorem listener (v : Verifier) (registry : ClassRegistry σ) : (v.listener registry).Reports v := by
  intro e state log tree c hphase hunit hdecl herrors
  have hfinished : ((v.listener registry).finished e state log).2 =
      log.reportAll (v.diagnostics tree.source (tree.binaryName c) c) := by
    simp only [Verifier.listener, hphase, hunit, hdecl]
  rw [hfinished, Log.errors_reportAll, Verifier.diagnostics, List.countP_append] at herrors
  have hcount : (v.policyErrors tree.source (tree.binaryName c) c).countP (·.severity = .error) = 0 := by
    omega
  refine List.eq_nil_iff_forall_not_mem.mpr fun d hd => ?_
  refine List.countP_eq_zero.mp hcount d hd (decide_eq_true ?_)
  unfold Verifier.policyErrors at hd
  split at hd
  · cases hd
  · obtain ⟨x, -, rfl⟩ := List.mem_map.mp hd
    rfl

theorem listenAfter (registry : ClassRegistry σ) : ∀ (o : Option (TaskListener σ)),
    (v.listenAfter registry o).Reports v
  | none => listener v registry
  | some l => andThen_right l (listener v registry)

end TaskListener.Reports

/-- Whether a session has a listener that reports what a verifier finds wrong. -/
def Session.Hears (s : Session σ) (v : Verifier) : Prop :=
  ∃ l, s.listener = some l ∧ l.Reports v

namespace SessionM

/-- Once the verifiers have been set up all of them listen. -/
theorem hears_initPlugins : ∀ (vs : List (Verifier × ClassRegistry σ)) {s t : Session σ},
    (initPlugins (vs.map fun p => p.1.plugin p.2)).run.run s = (.ok (), t) →
      (∀ v, s.Hears v → t.Hears v) ∧ ∀ p ∈ vs, t.Hears p.1
  | [], s, t, hrun => by
      cases hrun
      exact ⟨fun _ => id, List.forall_mem_nil _⟩
  | (v, registry) :: rest, s, t, hrun => by
      have hrun : (initPlugins (rest.map fun p => p.1.plugin p.2)).run.run
          { s with
            state := registry.put [] s.state
            listener := some (v.listenAfter registry s.listener) } = (.ok (), t) := hrun
      obtain ⟨hkept, hrest⟩ := hears_initPlugins rest hrun
      refine ⟨fun w ⟨l, hl, hw⟩ => hkept w ?_, List.forall_mem_cons.mpr ⟨hkept v ?_, hrest⟩⟩
      · refine ⟨_, rfl, ?_⟩
        rw [hl]
        exact hw.andThen_left _
      · exact ⟨_, rfl, .listenAfter registry s.listener⟩

end SessionM

/-- The plugins of a compiler are its verifiers. -/
theorem Compiler.plugins_eq (c : Compiler) :
    c.plugins = (c.verifiers.mapIdx fun i v => (v, ClassRegistry.ofRegistries i)).map
      fun p => p.1.plugin p.2 := by
  rw [List.mapIdx_eq_zipIdx_map, List.map_map, plugins, List.mapIdx_eq_zipIdx_map]
  rfl

end ProbeLang
