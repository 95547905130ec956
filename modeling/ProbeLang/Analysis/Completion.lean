import ProbeLang.Analysis.Names

/-!
# Completion

A class from source is entered with its name and member types alone. Completing it resolves
its superclass and the types in its fields and methods. This happens when its chain of
superclasses is first loaded, and may load further chains; a class is marked before it is
completed, so every class is completed once, and completions nest no deeper than there are
classes in source. The classes around a class are looked up by name, so an artifact may close
them to a circle, and completing the class then never ends.
-/

namespace ProbeLang

/-- The class around a class. -/
def SymbolTable.outer? (t : SymbolTable) (name : String) : Option String :=
  (t.find? name).bind ClassSymbol.outer

/-- A class with the classes around it, innermost first, if there is an outermost one. Every
class but that one is in the table, so there are no more than `fuel` unless they form a
circle. -/
def SymbolTable.enclosing? (t : SymbolTable) : Nat → String → Option (List String)
  | 0, _ => none
  | fuel + 1, name =>
      match t.outer? name with
      | some outer => (enclosing? t fuel outer).map (name :: ·)
      | none => some [name]

namespace NameScope

variable {σ : Type}

/-- The superclass of a class: the one that is named, unless it inherits from the class
itself, or the root. -/
def superclassOf (ns : NameScope σ) (cls : String) : Option TypeRef → SessionM σ String
  | none => return objectName
  | some t => do
      match ← ns.resolveType t with
      | .cls sup =>
          if (← ns.chain sup).contains cls then
            ns.problem t.pos (.cyclicInheritance (qualifiedName cls))
            return objectName
          else return sup
      | .unknown => return objectName
      | other =>
          ns.problem t.pos (.classExpected other)
          return objectName

/-- The signatures of fields, of which `done` have been formed, last first. -/
def fieldSigs (ns : NameScope σ) (cls : String) :
    List FieldSig → List FieldDecl → SessionM σ (List FieldSig)
  | done, [] => return done.reverse
  | done, f :: rest => do
      let ty ← ns.resolveType f.type
      if done.any fun d => d.name == f.name.name then
        ns.problem f.name.pos (.fieldTaken f.name.name (qualifiedName cls))
      fieldSigs ns cls (⟨f.name.name, ty, f.modifiers.has .isStatic⟩ :: done) rest

/-- The signatures of methods, of which `done` have been formed, last first. -/
def methodSigs (ns : NameScope σ) (cls : String) :
    List MethodSig → List MethodDecl → SessionM σ (List MethodSig)
  | done, [] => return done.reverse
  | done, m :: rest => do
      let ret ← ns.resolveType m.ret
      let params ← m.params.mapM fun p => ns.resolveType p.type
      if done.any fun d => d.name == m.name.name && d.params == params then
        ns.problem m.name.pos (.methodTaken m.name.name params (qualifiedName cls))
      methodSigs ns cls (⟨m.name.name, params, ret, m.modifiers.has .isStatic⟩ :: done) rest

/-- Resolve the signatures of a class. -/
def completeMembers (ns : NameScope σ) (cls : String) (decl : ClassDecl) : SessionM σ Unit := do
  let superclass ← ns.superclassOf cls decl.superclass
  let fields ← ns.fieldSigs cls [] decl.fields
  let methods ← ns.methodSigs cls [] decl.methods
  modify fun s =>
    { s with
      symbols := s.symbols.modify cls fun c =>
        { c with superclass := some superclass, fields, methods } }

end NameScope

namespace SessionM

variable {σ : Type}

/-- Complete a class, with a function that loads chains. -/
def complete (chain : String → SessionM σ (List String)) (cls : String) : SessionM σ Unit := do
  let s ← get
  match s.symbols.find? cls with
  | some { completed := false, origin := .source unit place, .. } =>
      let symbols := s.symbols.modify cls fun c => { c with completed := true }
      set { s with symbols }
      let some classes := SymbolTable.enclosing? symbols (symbols.length + 1) cls
        | throw .endless
      let some entry := s.sources[unit]? | return ()
      let some decl := entry.tree.at? place | return ()
      (NameScope.ofTree chain entry.tree classes).completeMembers cls decl
  | _ => return ()

/-- Load a class and its superclasses behind those in `done`, which are given last first. The
chain ends where it meets a class again and at a class that cannot be found. -/
def chainBehind (complete : String → SessionM σ Unit) :
    Nat → List String → String → SessionM σ (List String)
  | 0, done, _ => return done.reverse
  | fuel + 1, done, cls => do
      if done.contains cls then return done.reverse
      else if ← findClass cls then
        complete cls
        match SymbolTable.superclass? (← get).symbols cls with
        | some above => chainBehind complete fuel (cls :: done) above
        | none => return (cls :: done).reverse
      else return done.reverse

/-- Load a class and its superclasses and complete them, with a bound on the length of chains
and on the depth of completions. -/
def loadChain (bound : Nat) : Nat → String → SessionM σ (List String)
  | 0, _ => return []
  | depth + 1, cls => chainBehind (complete (loadChain bound depth)) bound [] cls

end SessionM

/-! ## How many classes there can be -/

/-- The text of the source that a file holds, if it can be preprocessed. -/
def UnitStore.sourceText? (s : UnitStore) (t : FileTree) (content : Bytes) : Option String :=
  match content.toString?, s.searchPath with
  | .error _, _ => none
  | .ok text, none => some text
  | .ok text, some search => (preprocessText t search "" text).toOption

/-- The classes that are declared in a file. -/
def UnitStore.declaredIn (s : UnitStore) (t : FileTree) : Entry → List String
  | .dir => []
  | .file content =>
      match (s.sourceText? t content).map (UnitTree.parse "") with
      | some (.ok tree) => tree.binaryNames
      | _ => []

/-- The directories in which classes are found. -/
def UnitStore.classDirs (s : UnitStore) : List String :=
  s.locations.searchDirs .sourcePath ++ s.locations.searchDirs .classPath

/-- The classes that may be found in source while a task runs. -/
def Session.loadable {σ : Type} (s : Session σ) : List String :=
  match s.store.classDirs with
  | [] => []
  | _ => s.files.entries.flatMap fun (_, e) => s.store.declaredIn s.files e

/-- The artifacts that may be found while a task runs. -/
def Session.artifactFiles {σ : Type} (s : Session σ) : List (List String × Entry) :=
  match s.store.classDirs with
  | [] => []
  | _ => s.files.entries

/-- No fewer than the classes that can become known: those that are known, those that files
declare, and one for each file that may be an artifact. -/
def Session.classBound {σ : Type} (s : Session σ) : Nat :=
  s.symbols.length + 2 + s.loadable.length + s.artifactFiles.length

end ProbeLang
