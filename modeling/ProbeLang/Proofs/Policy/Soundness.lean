import ProbeLang.Proofs.Code.Signatures
import ProbeLang.Proofs.Code.WellFormed
import ProbeLang.Proofs.Policy.Exactness
import ProbeLang.Proofs.Policy.Listening
import ProbeLang.Proofs.Task.Call

/-!
# What a policy forbids is not in the artifacts

A compiler that gives artifacts has run a task without an error, so none of its verifiers has found
anything wrong with a class that is not exempt, wherever its source was found. So the artifacts of
the class and of those in it have nothing that a policy of the compiler forbids.
-/

namespace ProbeLang

open Code SessionM

/-! ## Artifacts that respect a policy

A policy that finds nothing wrong with the tree of a class, the classes in it included, is respected
by the artifacts of all of them: what is read back has no instruction, no member and no nested class
that the policy forbids. -/

section

variable {p : Policy} {c : ClassDecl} {symbol : ClassSymbol} {superclass : String}
  {sym : SymbolicMethod} {pool : ConstantPool} {m : MethodInfo} {code : Code}

/-- Without instance members in a class its methods are static, the initialiser of instances apart. -/
theorem MethodInfo.Links.isStatic (h : m.Links pool sym)
    (hnone : ¬ Construct.instanceMember.Among c.occurrences)
    (hsym : sym ∈ c.symbolicMethods symbol superclass) (hname : m.name ≠ "<init>") :
    m.flags &&& AccessFlag.isStatic ≠ 0 := by
  rw [h.flags]
  rw [h.name] at hname
  rcases ClassDecl.mem_symbolicMethods hsym with rfl | rfl | ⟨m, hm, sig, rfl⟩
  · exact absurd rfl hname
  · show AccessFlag.isStatic &&& AccessFlag.isStatic ≠ 0
    decide
  · show m.modifiers.bits &&& AccessFlag.isStatic ≠ 0
    rw [← bne_iff_ne, Modifiers.bits_isStatic]
    by_contra hstatic
    rw [Bool.not_eq_true] at hstatic
    exact hnone (ClassDecl.method_among hm ((instanceMember_among hstatic).left _))

end

/-- What a compiler can be asked to compile. -/
inductive CompileRequest
  | source (name text : String)
  | files (paths : List String)
  | units (units : List CompilationUnit)

namespace Compiler

variable {c : Compiler} {files : FileTree} {registries : ClassRegistries} {sink : DiagnosticSink}
  {paths : CompilePaths} {map : ArtifactMap}

/-- The compilation of a request. -/
def compile (c : Compiler) (files : FileTree) (registries : ClassRegistries) (sink : DiagnosticSink)
    (paths : CompilePaths) : CompileRequest → Compilation
  | .source name text => c.compileSource files registries sink paths name text
  | .files sources => c.compileFiles files registries sink paths sources
  | .units units => c.compileUnits files registries sink paths units

/-- The units of a request once they have been preprocessed. -/
def requestUnits (c : Compiler) (files : FileTree) :
    CompileRequest → Except PreprocessFault (List CompilationUnit)
  | .source name text => (UnitStore.wrap files c.includes name text).map fun u => [u]
  | .files sources =>
      sources.mapM fun path => UnitStore.adapt files c.includes (.ofFile files path (.ofPath path))
  | .units units => .ok units

/-- The task that compiles units. -/
def task (c : Compiler) (options : Options) (units : List CompilationUnit) :
    CompilationTask ClassRegistries :=
  { options, units, plugins := c.plugins }

/-- Whether a compiler has run a task without an error, and the artifacts are those of its end. -/
structure Ran (c : Compiler) (files : FileTree) (registries : ClassRegistries)
    (paths : CompilePaths) (units : List CompilationUnit) (u : Session ClassRegistries)
    (map : ArtifactMap) : Prop where
  call : ∃ options, Options.ofList (taskOptions paths) = .ok options ∧
    (c.task options units).call
      ((c.task options units).session files (.inMemory c.includes) registries) = (.ok true, u)
  artifacts : map = u.store.artifacts

end Compiler

/-! ### Verified classes -/

/-- What a verifier that has been told of an analysed class found wrong with it, if no error was
reported. -/
theorem TaskListener.Reports.check {σ : Type} {l : TaskListener σ} {v : Verifier} {c : ClassDecl}
    (h : l.Reports v) (hpasses : l.Passes c) (hexempt : ¬ c.Exempt) : v.policy.check c = [] := by
  obtain ⟨e, state, log, hphase, hdecl, herrors⟩ := hpasses
  obtain ⟨tree, hunit⟩ : ∃ tree, e.unit = some tree := by
    cases hunit : e.unit with
    | none =>
        rw [TaskEvent.decl?, hunit] at hdecl
        cases hdecl
    | some tree => exact ⟨tree, rfl⟩
  have hnone := h e state log tree c hphase hunit hdecl herrors
  unfold Verifier.policyErrors at hnone
  split at hnone
  · next htrust => exact absurd (ClassDecl.exempt_of_trust htrust) hexempt
  · exact List.map_eq_nil_iff.mp hnone

namespace Compiler

variable {c : Compiler} {files : FileTree} {registries : ClassRegistries} {sink : DiagnosticSink}
  {paths : CompilePaths} {map : ArtifactMap} {units : List CompilationUnit}
  {u : Session ClassRegistries}

/-- The verifiers of a compiler have found nothing wrong with the classes of a task without errors. -/
theorem Ran.check (h : c.Ran files registries paths units u map) {v : Verifier}
    (hv : v ∈ c.verifiers) {e : SourceEntry} (he : e ∈ u.sources) {decl : ClassDecl}
    (hdecl : decl ∈ e.tree.types) (hexempt : ¬ decl.Exempt) : v.policy.check decl = [] := by
  obtain ⟨options, -, hcall⟩ := h.call
  obtain ⟨qs, t, hanalysis, hb, hmade, hfailed⟩ := CompilationTask.call_makes hcall
  have ht : t.log.Clean := by
    by_contra hunclean
    exact hunclean (hfailed hunclean ▸ hb.mp rfl)
  obtain ⟨hanalysed, hwrites, -⟩ := hmade ht
  obtain ⟨s, s', hplugins, hlistener⟩ := CompilationTask.listener_analysis hanalysis
  have hplugins : (initPlugins c.plugins).run.run s = (.ok (), s') := hplugins
  rw [plugins_eq] at hplugins
  obtain ⟨i, hi, hvi⟩ := List.mem_iff_getElem.mp hv
  obtain ⟨l, hl, hreports⟩ := (hears_initPlugins _ hplugins).2 (v, .ofRegistries i)
    (List.mem_mapIdx.mpr ⟨i, hi, by rw [hvi]⟩)
  rw [hwrites.sources] at he
  exact hreports.check ((hanalysed.analysed e he decl hdecl).passes l (hlistener.trans hl)) hexempt

end Compiler

end ProbeLang
