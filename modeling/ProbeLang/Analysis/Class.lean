import ProbeLang.Analysis.Completion
import ProbeLang.Analysis.Stmt

/-!
# Analysis of classes

Analysing a top-level class completes it, analyses its field values and method bodies, and
then its nested classes where they stand. A class whose name went to another declaration is
left as it is. The imports of a unit are checked with its first class.
-/

namespace ProbeLang

namespace NameScope

variable {σ : Type}

/-- Analyse the value of a field. -/
def analyseField (ns : NameScope σ) (sigs : List FieldSig) (f : FieldDecl) :
    SessionM σ FieldDecl :=
  match f.init with
  | none => return f
  | some e => do
      let ty := ((sigs.find? fun s => s.name == f.name.name).map FieldSig.ty).getD .unknown
      let cx : BodyScope σ := { names := ns, isStatic := f.modifiers.has .isStatic, locals := [] }
      let (valueTy, e) ← cx.value e
      ns.requireAssignable e.pos valueTy ty
      return { f with init := some e }

/-- Declare parameters. -/
def declareParams (cx : BodyScope σ) : Locals → List (Param × Ty) → SessionM σ Locals
  | l, [] => return l
  | l, (p, ty) :: rest => do
      let (l, _) ← cx.declare l p.name ty
      declareParams cx l rest

/-- Analyse the body of a method. -/
def analyseMethod (ns : NameScope σ) (sig : MethodSig) (m : MethodDecl) :
    SessionM σ MethodDecl := do
  let cx : BodyScope σ :=
    { names := ns, isStatic := sig.isStatic, locals := [], ret := sig.ret,
      label := methodLabel m.name.name sig.params }
  let l ← declareParams cx ⟨[], if sig.isStatic then 0 else 1⟩ (m.params.zip sig.params)
  let (_, body) ← cx.stmts l [] m.body.body
  if sig.ret ≠ .void && Stmt.allComplete m.body.body then
    ns.problem m.pos .missingReturn
  return { m with body := { m.body with body } }

/-- Report imports of single types that lead nowhere. -/
def checkImports (ns : NameScope σ) : List Import → SessionM σ Unit
  | [] => return ()
  | i :: rest => do
      if !i.wildcard then
        if (← ns.lookupQualified i.path.segments.reverse).isNone then
          let package := ".".intercalate i.path.segments.dropLast
          ns.problem i.path.pos (.importNotFound i.path.last package)
      checkImports ns rest

end NameScope

namespace SessionM

variable {σ : Type}

/-- Whether a name belongs to the declaration at a place. -/
def owns (unit : Nat) (place : List Nat) (cls : String) : SessionM σ Bool := do
  return ((← get).symbols.find? cls).map ClassSymbol.origin == some (.source unit place)

mutual

/-- Analyse a class in a scope. -/
def analyseClass (ns : NameScope σ) (unit : Nat) (place : List Nat) (cls : String)
    (c : ClassDecl) : SessionM σ ClassDecl :=
  match c with
  | ⟨name, modifiers, superclass, members, pos⟩ => do
      complete ns.chain cls
      let (fields, methods) :=
        match (← get).symbols.find? cls with
        | some c => (c.fields, c.methods)
        | none => ([], [])
      let inner := { ns with classes := cls :: ns.classes }
      let members ← analyseMembers inner unit place cls fields methods 0 [] members
      return ⟨name, modifiers, superclass, members, pos⟩
termination_by structural c

/-- Analyse members from a number on; those in `done` come first, last first. The methods
come in the order of their signatures. -/
def analyseMembers (ns : NameScope σ) (unit : Nat) (place : List Nat) (cls : String)
    (fields : List FieldSig) (methods : List MethodSig) (i : Nat) (done : List Member)
    (members : List Member) : SessionM σ (List Member) :=
  match members with
  | [] => return done.reverse
  | .field f :: rest => do
      let f ← ns.analyseField fields f
      analyseMembers ns unit place cls fields methods (i + 1) (.field f :: done) rest
  | .method m :: rest => do
      let m ←
        match methods.head? with
        | some sig => ns.analyseMethod sig m
        | none => pure m
      analyseMembers ns unit place cls fields methods.tail (i + 1) (.method m :: done) rest
  | .type decl :: rest => do
      let nested := cls ++ "$" ++ decl.name.name
      let decl ←
        if ← owns unit (place ++ [i]) nested then
          analyseClass ns unit (place ++ [i]) nested decl
        else pure decl
      analyseMembers ns unit place cls fields methods (i + 1) (.type decl :: done) rest
termination_by structural members

end

/-- Put the analysed tree of a unit into its place. -/
def putTree (unit : Nat) (tree : UnitTree) : SessionM σ Unit :=
  modify fun s =>
    { s with sources := s.sources.modify unit fun entry => { entry with tree } }

/-- Analyse a top-level class of a unit, with a bound on the number of classes. The answer is
the tree of the unit. -/
def analyseTop (bound unit number : Nat) (tree : UnitTree) : SessionM σ UnitTree := do
  match tree.types[number]? with
  | none => return tree
  | some decl =>
      let ns := NameScope.ofTree (loadChain bound bound) tree []
      if number = 0 then
        ns.checkImports tree.imports
      let cls := tree.binaryName decl
      if ← owns unit [number] cls then
        let decl ← analyseClass ns unit [number] cls decl
        let tree := { tree with types := tree.types.set number decl }
        putTree unit tree
        return tree
      else return tree

end SessionM

end ProbeLang
