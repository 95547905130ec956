import ProbeLang.Session.Classes

/-!
# Type names

What a type name means depends on where it stands. A simple name is looked for among the
member types of the enclosing classes, innermost first, then among the imports of single
types, in the package of the unit, among the built-in classes and last in the packages that
are imported as a whole. A dotted name begins with a simple name or a package, and goes on
with member types.

Member types are inherited, so looking for one loads superclasses. How that is done is left
open here: a scope has a function that loads a class with its superclasses and answers them,
nearest first.
-/

namespace ProbeLang

/-- Where a name stands. -/
structure NameScope (σ : Type) where
  source : String
  package : Option String
  imports : List Import
  /-- The binary names of the enclosing classes, innermost first. -/
  classes : List String
  /-- Load a class and its superclasses. -/
  chain : String → SessionM σ (List String)

namespace NameScope

variable {σ : Type}

/-- The scope of the classes of a unit. -/
def ofTree (chain : String → SessionM σ (List String)) (tree : UnitTree)
    (classes : List String) : NameScope σ :=
  ⟨tree.source, tree.packageName?, tree.imports, classes, chain⟩

/-- Report a problem in the source. -/
def problem (ns : NameScope σ) (pos : Pos) (p : Problem) : SessionM σ Unit :=
  SessionM.problem ns.source pos p

/-! ## Looking up names -/

/-- The first of some classes that has a member type, and that type. -/
def memberTypeOf (simple : String) (classes : List String) : SessionM σ (Option String) :=
  classes.findSomeM? fun c => do
    match ((← get).symbols.find? c).bind fun c => c.members.find? simple with
    | none => return none
    | some nested => if ← SessionM.findClass nested then return some nested else return none

/-- The member type of a class or of its superclasses. -/
def memberType (ns : NameScope σ) (cls simple : String) : SessionM σ (Option String) := do
  memberTypeOf simple (← ns.chain cls)

/-- The class of a qualified name, given by its segments from the last to the first. Where
the package ends is tried from the end. -/
def lookupQualified (ns : NameScope σ) : List String → SessionM σ (Option String)
  | [] => return none
  | last :: above => do
      let name := ".".intercalate (last :: above).reverse
      if ← SessionM.findClass name then return some name
      else
        match ← lookupQualified ns above with
        | some outer => ns.memberType outer last
        | none => return none

/-- The class of a qualified name if it is in the package. -/
def lookupIn (package : Option String) (simple : String) : SessionM σ (Option String) := do
  let name :=
    match package with
    | some package => package ++ "." ++ simple
    | none => simple
  if ← SessionM.findClass name then return some name else return none

/-- The ways in which a simple name can be meant, in their order. -/
def simpleLookups (ns : NameScope σ) (simple : String) : List (SessionM σ (Option String)) :=
  ns.classes.map (fun cls => ns.memberType cls simple) ++
    (ns.imports.filter fun i => !i.wildcard && i.path.last == simple).map
      (fun i => ns.lookupQualified i.path.segments.reverse) ++
    [lookupIn ns.package simple,
      do return ((← get).symbols.builtin? simple).map ClassSymbol.binary] ++
    (ns.imports.filter Import.wildcard).map
      (fun i => ns.lookupQualified (simple :: i.path.segments.reverse))

/-- The class of a simple name. -/
def resolveSimple (ns : NameScope σ) (simple : String) : SessionM σ (Option String) :=
  (ns.simpleLookups simple).findSomeM? id

/-- The class that member type names lead to. -/
def nestedType (ns : NameScope σ) : String → List String → SessionM σ (Option String)
  | cls, [] => return some cls
  | cls, simple :: rest => do
      match ← ns.memberType cls simple with
      | some nested => nestedType ns nested rest
      | none => return none

/-- The class of the shortest beginning that has one, with the segments behind it. The
segments in front of the first candidate are given from the last to the first. -/
def packagedType : List String → List String → SessionM σ (Option (String × List String))
  | _, [] => return none
  | front, s :: rest => do
      let name := ".".intercalate (s :: front).reverse
      if ← SessionM.findClass name then return some (name, rest)
      else packagedType (s :: front) rest

/-- The class of a dotted name. -/
def resolvePath (ns : NameScope σ) : List String → SessionM σ (Option String)
  | [] => return none
  | first :: rest => do
      match ← ns.resolveSimple first with
      | some cls => ns.nestedType cls rest
      | none =>
          match ← packagedType [first] rest with
          | some (cls, rest) => ns.nestedType cls rest
          | none => return none

/-! ## Types -/

/-- Warn of the use of a deprecated class, or remember it. Classes inside one outermost class
may use each other. -/
def checkDeprecated (ns : NameScope σ) (cls : String) (pos : Pos) : SessionM σ Unit := do
  let s ← get
  let some c := s.symbols.find? cls | return ()
  if c.deprecated && ns.classes.getLast?.map outermostName != some (outermostName cls) then
    if s.options.lintEnabled .deprecation then
      SessionM.advise ns.source pos (.deprecated c.simple c.package)
    else if !s.deprecatedUses.contains ns.source then
      set { s with deprecatedUses := ns.source :: s.deprecatedUses }

/-- The type without brackets that a name stands for. -/
def resolveBase (ns : NameScope σ) : TypeName → SessionM σ Ty
  | .void => return .void
  | .int => return .int
  | .long => return .long
  | .boolean => return .boolean
  | .named path => do
      match ← ns.resolvePath path.segments with
      | some cls =>
          ns.checkDeprecated cls path.pos
          return .cls cls
      | none =>
          ns.problem path.pos (.classNotFound path.text)
          return .unknown

/-- The type that is written. -/
def resolveType (ns : NameScope σ) (t : TypeRef) : SessionM σ Ty := do
  match ← ns.resolveBase t.base with
  | .unknown => return .unknown
  | ty => return Nat.repeat .array t.dims ty

/-- Whether a value of one type may stand where another is wanted. -/
def assignable (ns : NameScope σ) (sub sup : Ty) : SessionM σ Bool :=
  if sub = sup then return true
  else
    match sub, sup with
    | .unknown, _ | _, .unknown => return true
    | .null, _ => return sup.isReference
    | .int, .long | .char, .int | .char, .long => return true
    | .cls a, .cls b => do
        let chain ← ns.chain a
        return b == objectName || chain.contains b
    | .array _, .cls b => return b == objectName
    | .array a, .array b => if a.isReference then assignable ns a b else return false
    | _, _ => return false

/-- Report a value that may not stand where another type is wanted. -/
def requireAssignable (ns : NameScope σ) (pos : Pos) (sub sup : Ty) : SessionM σ Unit := do
  if !(← ns.assignable sub sup) then
    ns.problem pos (.incompatible sub sup)

end NameScope

end ProbeLang
