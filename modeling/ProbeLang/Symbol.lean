import ProbeLang.Table
import ProbeLang.Ty

/-!
# Class symbols

What is known about classes: their place, superclass, member types, fields and methods. A
symbol table holds them by binary name and begins with the three built-in classes. Members
are looked up along the superclass chain, nearest class first; the chain ends at the first
class that the table lacks, and never repeats a class even when superclasses form a cycle.
-/

namespace ProbeLang

/-- A field as other classes see it. -/
structure FieldSig where
  name : String
  ty : Ty
  isStatic : Bool
  deriving Repr, DecidableEq, Inhabited

/-- A method as other classes see it. -/
structure MethodSig where
  name : String
  params : List Ty
  ret : Ty
  isStatic : Bool
  deriving Repr, DecidableEq, Inhabited

/-- The code word of a method. -/
def MethodSig.descriptor (m : MethodSig) : String :=
  methodDescriptor m.params m.ret

/-- Where a symbol comes from. A declaration is found by its unit and by the member numbers
that lead to it: the number of the top-level class, then those of the nested ones. -/
inductive Origin
  | source (unit : Nat) (place : List Nat)
  | classPath
  | builtin
  deriving Repr, DecidableEq

/-- A class. -/
structure ClassSymbol where
  binary : String
  package : Option String
  simple : String
  /-- The enclosing class. -/
  outer : Option String
  /-- The superclass; only the root has none. -/
  superclass : Option String
  /-- The member types: simple names and binary names. -/
  members : Table String
  fields : List FieldSig
  methods : List MethodSig
  deprecated : Bool
  origin : Origin
  /-- Whether the signatures of the members have been resolved. -/
  completed : Bool
  deriving Repr, DecidableEq

/-- Whether a class is declared in one of the task's units. -/
def ClassSymbol.isSource (c : ClassSymbol) : Bool :=
  match c.origin with
  | .source _ _ => true
  | _ => false

/-- A built-in class with instance methods only. -/
def ClassSymbol.ofBuiltin (simple : String) (superclass : Option String)
    (methods : List (String × List Ty × Ty)) : ClassSymbol where
  binary := langPackage ++ "." ++ simple
  package := some langPackage
  simple
  outer := none
  superclass
  members := []
  fields := []
  methods := methods.map fun (name, params, ret) => ⟨name, params, ret, false⟩
  deprecated := false
  origin := .builtin
  completed := true

/-- The classes known to a task, by binary name. -/
abbrev SymbolTable := Table ClassSymbol

namespace SymbolTable

/-- The built-in classes. -/
def builtins : SymbolTable :=
  [(objectName, .ofBuiltin "Object" none
      [("hashCode", [], .int), ("toString", [], .string), ("equals", [.object], .boolean)]),
   (stringName, .ofBuiltin "String" (some objectName)
      [("length", [], .int), ("isEmpty", [], .boolean), ("charAt", [.int], .char),
       ("concat", [.string], .string)]),
   (errorName, .ofBuiltin "Error" (some objectName) [])]

/-- Add a class unless its name is taken. -/
def insert? (t : SymbolTable) (c : ClassSymbol) : Option SymbolTable :=
  if t.has c.binary then none else some (t ++ [(c.binary, c)])

/-- The built-in class of a simple name. -/
def builtin? (t : SymbolTable) (simple : String) : Option ClassSymbol :=
  (t.find? (langPackage ++ "." ++ simple)).filter fun c => c.origin == .builtin

/-- The superclass that the table records for a class. -/
def superclass? (t : SymbolTable) (name : String) : Option String :=
  (t.find? name).bind ClassSymbol.superclass

/-- The superclass chain of a class behind the classes already passed. Every class on it but
the last is in the table, so the chain is never longer than `fuel`. -/
def chainFrom (t : SymbolTable) : Nat → List String → String → List String
  | 0, _, _ => []
  | fuel + 1, passed, name =>
      if passed.contains name then []
      else
        name :: match t.superclass? name with
          | some above => chainFrom t fuel (name :: passed) above
          | none => []

/-- A class and its superclasses, nearest first. -/
def supertypes (t : SymbolTable) (name : String) : List String :=
  t.chainFrom (t.length + 2) [] name

/-- Whether a class is another or inherits from it; every class inherits from the root. -/
def isSubclass (t : SymbolTable) (sub sup : String) : Bool :=
  sup == objectName || (t.supertypes sub).contains sup

/-- The field of a name in a class or the nearest superclass that has it. -/
def findField (t : SymbolTable) (owner name : String) : Option (String × FieldSig) :=
  (t.supertypes owner).findSome? fun cls => do
    let c ← t.find? cls
    let f ← c.fields.find? fun f => f.name == name
    return (cls, f)

/-- The methods of a name in a class and its superclasses, nearest first. -/
def findMethods (t : SymbolTable) (owner name : String) : List (String × MethodSig) :=
  (t.supertypes owner).flatMap fun cls =>
    match t.find? cls with
    | none => []
    | some c => (c.methods.filter fun m => m.name == name).map fun m => (cls, m)

end SymbolTable

end ProbeLang
