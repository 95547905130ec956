import ProbeLang.Messages
import ProbeLang.Task.Event
import ProbeLang.Tree
import ProbeLang.Verifier.Policy

/-!
# The verifier

The verifier is a plugin that checks every top-level class against a policy as soon as the
class has been analysed, unless the class is trusted. It is told of the end of the analysis
behind whatever listener is there before it. It keeps a list of the classes that it has seen,
which begins anew with each task.
-/

namespace ProbeLang

/-! ## Trust

An annotation may exempt a class from verification by an argument `unsafe` or `trusted` with
the value `true`. A value that is no boolean constant does not count; it is reported if it
stands before the first `true`. -/

/-- What the value of a trust argument says. -/
inductive TrustValue
  | exempt
  | notExempt
  | malformed (pos : Pos)
  deriving Repr, DecidableEq

/-- What an expression says as the value of a trust argument. -/
def TrustValue.ofExpr (e : Expr) : TrustValue :=
  match e with
  | .literal _ (.bool true) => .exempt
  | .literal _ (.bool false) => .notExempt
  | _ => .malformed e.pos

/-- What the annotations of a class say about trust. -/
structure Trust where
  exempt : Bool
  /-- The places of malformed values. -/
  malformed : List Pos
  deriving Repr, DecidableEq

namespace Trust

/-- The names of trust arguments. -/
def keys : List String := ["unsafe", "trusted"]

/-- What the trust arguments among annotations say, in order. -/
def values (m : Modifiers) : List TrustValue :=
  (m.annotations.flatMap Annotation.args).filterMap fun
    | .named name value => if keys.contains name.name then some (.ofExpr value) else none
    | .value _ => none

/-- Read values up to the first that exempts. -/
def ofValues : List TrustValue → Trust
  | [] => ⟨false, []⟩
  | .exempt :: _ => ⟨true, []⟩
  | .notExempt :: rest => ofValues rest
  | .malformed pos :: rest =>
      let t := ofValues rest
      ⟨t.exempt, pos :: t.malformed⟩

/-- What modifiers say about trust. -/
def ofModifiers (m : Modifiers) : Trust :=
  ofValues (values m)

end Trust

/-! ## Checks -/

/-- A policy and the texts with which violations are reported. -/
structure Verifier where
  policy : Policy := .baseline
  messages : MessageCatalog := .builtin

/-- The place in a state where a list of class names is kept. -/
structure ClassRegistry (σ : Type) where
  names : σ → List String
  put : List String → σ → σ

namespace Verifier

variable {σ : Type}

/-- The warnings about the trust arguments of a class. -/
def trustWarnings (v : Verifier) (source : String) (c : ClassDecl) : List Diagnostic :=
  (Trust.ofModifiers c.modifiers).malformed.map fun pos =>
    { severity := .warning, message := v.messages.text MessageCatalog.malformedTrustKey,
      source := some source, pos }

/-- The error about a violation. -/
def violationError (v : Verifier) (source cls : String) (x : Violation) : Diagnostic :=
  { severity := .error,
    message := v.messages.format MessageCatalog.violationKey
      [cls, v.messages.text x.messageKey],
    source := some source, pos := x.pos }

/-- The errors about the violations in a class, of which a trusted class has none. -/
def policyErrors (v : Verifier) (source cls : String) (c : ClassDecl) : List Diagnostic :=
  if (Trust.ofModifiers c.modifiers).exempt then []
  else (v.policy.check c).map (v.violationError source cls)

/-- Everything that is reported about a class. -/
def diagnostics (v : Verifier) (source cls : String) (c : ClassDecl) : List Diagnostic :=
  v.trustWarnings source c ++ v.policyErrors source cls c

/-- The listener that verifies a class once it has been analysed. -/
def listener (v : Verifier) (registry : ClassRegistry σ) : TaskListener σ :=
  { TaskListener.silent with
    finished := fun e state log =>
      match e.phase, e.unit, e.decl? with
      | .analyze, some tree, some c =>
          let cls := tree.binaryName c
          (registry.put (registry.names state ++ [cls]) state,
            log.reportAll (v.diagnostics tree.source cls c))
      | _, _, _ => (state, log)
    finished_reports := by
      intro e state log
      dsimp only
      split
      · exact ⟨_, rfl⟩
      · exact ⟨[], rfl⟩ }

/-- The listener in a context, with that of the verifier behind it. -/
def listenAfter (v : Verifier) (registry : ClassRegistry σ) :
    Option (TaskListener σ) → TaskListener σ
  | some l => l.andThen (v.listener registry)
  | none => v.listener registry

/-- The verifier as a plugin. -/
def plugin (v : Verifier) (registry : ClassRegistry σ) : Plugin σ where
  name := "verifier"
  init cx state :=
    let (old, cx) := cx.takeListener
    (cx.putListener (v.listenAfter registry old), registry.put [] state)

end Verifier

end ProbeLang
