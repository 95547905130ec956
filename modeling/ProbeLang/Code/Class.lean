import ProbeLang.Code.Body
import ProbeLang.Symbol

/-!
# Artifacts of classes

An analysed class becomes one artifact, and each of its nested classes another behind it. The
methods of an artifact are the initialiser of instances, the methods as they are declared, and
the initialiser of the class if some static field has a value. The code of a method that gives
nothing back ends with a return.
-/

namespace ProbeLang

/-- The bit of a modifier. -/
def Modifier.flag : Modifier → UInt16
  | .isPublic => AccessFlag.isPublic
  | .isPrivate => AccessFlag.isPrivate
  | .isProtected => AccessFlag.isProtected
  | .isStatic => AccessFlag.isStatic
  | .isFinal => AccessFlag.isFinal

/-- The bits of modifiers. -/
def Modifiers.bits (m : Modifiers) : UInt16 :=
  m.flags.foldl (fun bits flag => bits ||| flag.flag) 0

/-! ## Slots -/

/-- The slot of the local variable that an expression refers to. -/
def Expr.localSlot? (e : Expr) : Option Nat :=
  match e.note.refers with
  | some (.localVar slot) => some slot
  | _ => none

/-- The number of slots that the names in an expression need, no fewer than `n`. -/
def Expr.slotsNeeded (n : Nat) (e : Expr) : Nat :=
  e.preorder.foldl (fun n e => max n (e.localSlot?.elim 0 (· + 1))) n

/-- The number of slots that an optional expression needs, no fewer than `n`. -/
def Expr.slotsNeeded? (n : Nat) (e : Option Expr) : Nat :=
  e.elim n (Expr.slotsNeeded n)

/-- The number of slots that a declaration needs, no fewer than `n`. -/
def LocalVar.slotsNeeded (n : Nat) (d : LocalVar) : Nat :=
  Expr.slotsNeeded? (max n (d.slot.elim 0 (· + 1))) d.init

/-- The number of slots that the first part of a `for` header needs, no fewer than `n`. -/
def ForInit.slotsNeeded (n : Nat) : ForInit → Nat
  | .none => n
  | .declare d => d.slotsNeeded n
  | .expr _ e => e.slotsNeeded n

mutual

/-- The number of slots that a statement needs, no fewer than `n`. -/
def Stmt.slotsNeeded (n : Nat) : Stmt → Nat
  | .block _ body => Stmt.allSlotsNeeded n body
  | .declare d => d.slotsNeeded n
  | .ifThen _ cond s => s.slotsNeeded (cond.slotsNeeded n)
  | .ifElse _ cond s t => t.slotsNeeded (s.slotsNeeded (cond.slotsNeeded n))
  | .whileLoop _ cond body => body.slotsNeeded (cond.slotsNeeded n)
  | .forLoop _ init cond update body =>
      body.slotsNeeded (Expr.slotsNeeded? (Expr.slotsNeeded? (init.slotsNeeded n) cond) update)
  | .ret _ value => Expr.slotsNeeded? n value
  | .throw _ value => value.slotsNeeded n
  | .synchronized _ lock _ body => Stmt.allSlotsNeeded (lock.slotsNeeded n) body
  | .expr _ e => e.slotsNeeded n
  | .empty _ => n

/-- The number of slots that statements need, no fewer than `n`. -/
def Stmt.allSlotsNeeded (n : Nat) : List Stmt → Nat
  | [] => n
  | s :: rest => Stmt.allSlotsNeeded (s.slotsNeeded n) rest

end

/-! ## Methods -/

namespace CodeM

/-- The first slot behind `this`. -/
def firstSlot (isStatic : Bool) : Nat :=
  if isStatic then 0 else 1

/-- Make the code of a method from that of its parts. -/
def method (flags : UInt16) (name descriptor : String) (isStatic : Bool) (make : CodeM Code) :
    StateT ConstantPool (Except ArtifactFault) MethodInfo := do
  let (code, state) ← make.run ⟨← get, firstSlot isStatic, []⟩
  set state.pool
  return { flags, name, descriptor, maxLocals := UInt16.ofNat state.nextSlot,
           code := code.encode,
           lines := state.lines.reverse.map fun (pc, line) =>
             (UInt32.ofNat pc, UInt32.ofNat line) }

/-- The code of a declared method. -/
def body (debug : DebugInfo) (sig : MethodSig) (m : MethodDecl) : CodeM Code := do
  reserve (firstSlot sig.isStatic + sig.params.length)
  reserve (Stmt.allSlotsNeeded 0 m.body.body)
  let code ← stmts debug 0 [] m.body.body
  return if sig.ret = .void then code ++ [.ret] else code

/-- The code that gives fields their values, behind code of the given pieces, last first. -/
def fieldValues (debug : DebugInfo) (cls : String) (isStatic : Bool) :
    Nat → List Code → List (FieldDecl × FieldSig) → CodeM Code
  | _, done, [] => return done.reverse.flatten
  | pc, done, (f, sig) :: rest =>
      match f.init with
      | none => fieldValues debug cls isStatic pc done rest
      | some e => do
          if sig.isStatic = isStatic then
            line debug pc f.pos
            let receiver := if isStatic then [] else thisCode
            let value ← expr (pc + Code.size receiver) e
            let put := if isStatic then Instr.putStatic else Instr.putField
            let reference := fieldReference cls sig.name sig.ty.descriptor
            let code := receiver ++ value ++ (← pooled put reference)
            fieldValues debug cls isStatic (pc + Code.size code) (code :: done) rest
          else fieldValues debug cls isStatic pc done rest

/-- The code of the initialiser of instances, which calls that of the superclass first. -/
def instanceInit (debug : DebugInfo) (cls superclass : String)
    (fields : List (FieldDecl × FieldSig)) : CodeM Code := do
  let call := thisCode ++ (← pooled .invoke (initReference superclass))
  let values ← fieldValues debug cls false (Code.size call) [] fields
  return call ++ values ++ [.ret]

/-- The code of the initialiser of a class. -/
def classInit (debug : DebugInfo) (cls : String) (fields : List (FieldDecl × FieldSig)) :
    CodeM Code := do
  return (← fieldValues debug cls true 0 [] fields) ++ [.ret]

end CodeM

/-! ## Classes -/

namespace ClassDecl

/-- The methods of an artifact. -/
def methodInfos (debug : DebugInfo) (c : ClassDecl) (symbol : ClassSymbol)
    (superclass : String) : StateT ConstantPool (Except ArtifactFault) (List MethodInfo) := do
  let fields := c.fields.zip symbol.fields
  let init ← CodeM.method AccessFlag.isPublic "<init>" "()V" false
    (CodeM.instanceInit debug symbol.binary superclass fields)
  let methods ← (c.methods.zip symbol.methods).mapM fun (m, sig) =>
    CodeM.method m.modifiers.bits m.name.name sig.descriptor sig.isStatic
      (CodeM.body debug sig m)
  if c.fields.any fun f => f.modifiers.has .isStatic && f.init.isSome then
    let classInit ← CodeM.method AccessFlag.isStatic "<clinit>" "()V" true
      (CodeM.classInit debug symbol.binary fields)
    return init :: methods ++ [classInit]
  else return init :: methods

/-- The artifact of a class. -/
def classFile (options : Options) (c : ClassDecl) (symbol : ClassSymbol) :
    Except ArtifactFault ClassFile := do
  let superclass :=
    symbol.superclass.or (if symbol.binary = objectName then none else some objectName)
  let (methods, pool) ←
    (c.methodInfos options.debug symbol (superclass.getD objectName)).run .empty
  let bits := c.modifiers.bits
  return {
    target := options.target
    flags := if symbol.deprecated then bits ||| AccessFlag.isDeprecated else bits
    name := symbol.binary
    superclass
    outer := symbol.outer
    nested := (c.nested.map fun n => symbol.binary ++ "$" ++ n.name.name).filter fun name =>
      symbol.members.any fun (_, member) => member == name
    fields := (c.fields.zip symbol.fields).map fun (f, sig) =>
      ⟨f.modifiers.bits, sig.name, sig.ty.descriptor⟩
    methods
    pool }

mutual

/-- The artifacts of a class and of its nested classes, outer classes first. -/
def artifacts (symbols : SymbolTable) (options : Options) (cls : String) (c : ClassDecl) :
    Except ArtifactFault ArtifactMap :=
  match c with
  | ⟨name, modifiers, superclass, members, pos⟩ => do
      let some symbol := symbols.find? cls | throw (.noSymbol cls)
      let file ← classFile options ⟨name, modifiers, superclass, members, pos⟩ symbol
      let bytes ← file.encode
      let nested ← memberArtifacts symbols options cls file.nested members
      return (cls, bytes) :: nested
termination_by structural c

/-- The artifacts of those nested classes whose names are listed. -/
def memberArtifacts (symbols : SymbolTable) (options : Options) (cls : String)
    (names : List String) (members : List Member) : Except ArtifactFault ArtifactMap :=
  match members with
  | [] => return []
  | .field _ :: rest => memberArtifacts symbols options cls names rest
  | .method _ :: rest => memberArtifacts symbols options cls names rest
  | .type decl :: rest => do
      let name := cls ++ "$" ++ decl.name.name
      if names.contains name then
        let here ← artifacts symbols options name decl
        return here ++ (← memberArtifacts symbols options cls names rest)
      else memberArtifacts symbols options cls names rest
termination_by structural members

end

end ClassDecl

end ProbeLang
