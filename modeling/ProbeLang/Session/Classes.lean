import ProbeLang.Session

/-!
# Finding classes

A class that is not known yet is looked for on the source path and then on the class path,
and what is found is entered. A nested class comes with the source of its outermost class. A
file is read at most once, and a class that cannot be found is not looked for again.
-/

namespace ProbeLang

/-- The fields of an artifact that have a type. -/
def ClassFile.fieldSigs (c : ClassFile) : List FieldSig :=
  c.fields.filterMap fun f =>
    match Ty.readDescriptor f.descriptor.toList with
    | some (ty, []) => some ⟨f.name, ty, f.flags &&& AccessFlag.isStatic != 0⟩
    | _ => none

/-- The methods of an artifact that have a type, without the initialisers. -/
def ClassFile.methodSigs (c : ClassFile) : List MethodSig :=
  c.methods.filterMap fun m =>
    if m.name.toList.head? = some '<' then none
    else
      (readMethodDescriptor m.descriptor).map fun (params, ret) =>
        ⟨m.name, params, ret, m.flags &&& AccessFlag.isStatic != 0⟩

/-- The symbol of an artifact. -/
def ClassFile.symbol (c : ClassFile) : ClassSymbol :=
  let local_ := lastName c.name
  { binary := c.name
    package := (splitLastDot c.name).map Prod.fst
    simple := nestedName local_
    outer := c.outer
    superclass := c.superclass.or (if c.name = objectName then none else some objectName)
    members := c.nested.foldl (fun types name => types.put (nestedName name) name) []
    fields := c.fieldSigs
    methods := c.methodSigs
    deprecated := c.isDeprecated
    origin := .classPath
    completed := true }

namespace SessionM

variable {σ : Type}

/-- Whether a class is known. -/
def known (name : String) : SessionM σ Bool := do
  return (← get).symbols.has name

/-- The unit of a class in a location. -/
def input (l : Location) (name : String) (kind : UnitKind) :
    SessionM σ (Option CompilationUnit) := do
  let s ← get
  let (found, store) := s.store.input s.files l name kind
  set { s with store }
  ofIo found

/-- Look for a class on the source path. -/
def loadSource (name : String) : SessionM σ Bool := do
  let some unit ← input .sourcePath name .source | return false
  if (← get).loaded.contains unit.uri then known name
  else
    let some tree ← parse unit | return false
    enter unit tree
    if ← known name then return true
    else
      problem unit.name .none (.fileLacksClass name)
      return false

/-- Look for a class on the class path. -/
def loadArtifact (name : String) : SessionM σ Bool := do
  let some unit ← input .classPath name .artifact | return false
  let bytes ← ofIo (unit.bytes (← get).files)
  match ClassFile.decode bytes with
  | .error fault =>
      report { severity := .error, message := (Problem.badClassFile unit.name fault).message }
      return false
  | .ok c =>
      if c.name = name then
        match (← get).symbols.insert? c.symbol with
        | some symbols =>
            modify fun s => { s with symbols }
            return true
        | none => return false
      else
        report
          { severity := .error, message := (Problem.wrongClassInFile unit.name c.name).message }
        return false

/-- Look for a class on both paths, sources first. -/
def load (loadSource : String → SessionM σ Bool) (name : String) : SessionM σ Bool := do
  if (← loadSource name) then return true
  else if ← loadArtifact name then return true
  else
    modify fun s => { s with missing := name :: s.missing }
    return false

/-- Whether there is a class of a name, apart from what its source may hold. -/
def findWith (loadSource : String → SessionM σ Bool) (name : String) : SessionM σ Bool := do
  let s ← get
  if s.symbols.has name then return true
  else if s.missing.contains name then return false
  else load loadSource name

/-- Whether there is a class of a name. -/
def findClass (name : String) : SessionM σ Bool :=
  let top := outermostName name
  if top = name then findWith loadSource name
  else
    findWith (fun name => do
      if ← findWith loadSource top then known name else return false) name

end SessionM

end ProbeLang
