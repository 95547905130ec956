import ProbeLang.Code.Class
import ProbeLang.Proofs.Code.Layout

/-!
# Symbolic code

The code of an expression or a statement as a function of the tree alone: constants are the texts
themselves, and nothing can fail. `Generation` proves that the code which is made with a constant
pool is this code with every text replaced by its index. What holds of all code is proved here, by
recursion over the tree.
-/

namespace ProbeLang

/-- Code whose constants are texts. -/
abbrev SymbolicCode := List (Instr String)

open CodeM Code

namespace SymbolicCode

/-- The value of `this`. -/
def self : SymbolicCode := [.load 0]

/-- The code of a constant. -/
def constant : Literal → SymbolicCode
  | .int n => [.pushInt (UInt32.ofNat n)]
  | .bool b => [.pushInt (if b then 1 else 0)]
  | .char c => [.pushInt c.val]
  | .long n => [.pushLong (UInt64.ofNat n)]
  | .string s => [.pushConst s]
  | .null => [.pushNull]

/-- Create an object. -/
def create (cls : String) : SymbolicCode :=
  [.new cls, .dup, .invoke (initReference cls)]

/-- Store a value in a local variable and keep it. -/
def keepLocal (slot : Nat) (value : SymbolicCode) : SymbolicCode :=
  value ++ [.dup, .store (slotOperand slot)]

/-- Store a value in a field and keep it. -/
def keepField (isStatic : Bool) (reference : String) (value : SymbolicCode) : SymbolicCode :=
  value ++ if isStatic then [.dup, .putStatic reference] else [.dupX1, .putField reference]

end SymbolicCode

open SymbolicCode

/-! ## Expressions -/

mutual

/-- The code of an expression at a place. -/
def Expr.code (pc : Nat) : Expr → SymbolicCode
  | .literal _ v => constant v
  | .name n ident =>
      match n.refers with
      | some (.localVar slot) => [.load (slotOperand slot)]
      | some (.field owner true d) => [.getStatic (fieldReference owner ident d)]
      | some (.field owner false d) => self ++ [.getField (fieldReference owner ident d)]
      | _ => []
  | .this _ => self
  | .field n target member =>
      match n.refers with
      | some (.field owner true d) => [.getStatic (fieldReference owner member.name d)]
      | some (.field owner false d) =>
          target.code pc ++ [.getField (fieldReference owner member.name d)]
      | _ =>
          match target.ty? with
          | some (.array _) => target.code pc ++ [.arrayLength]
          | _ => []
  | .call n callee args =>
      match n.refers with
      | some (.method owner true d) =>
          Expr.codeAll pc args ++ [.invokeStatic (methodReference owner callee.name d)]
      | some (.method owner false d) =>
          self ++ Expr.codeAll (pc + size self) args ++
            [.invoke (methodReference owner callee.name d)]
      | _ => []
  | .invoke n target callee args =>
      match n.refers with
      | some (.method owner true d) =>
          Expr.codeAll pc args ++ [.invokeStatic (methodReference owner callee.name d)]
      | some (.method owner false d) =>
          let target := target.code pc
          target ++ Expr.codeAll (pc + size target) args ++
            [.invoke (methodReference owner callee.name d)]
      | _ => []
  | .new n _ _ =>
      match n.refers with
      | some (.cls cls) => create cls
      | _ => []
  | .newArray n _ length => length.code pc ++ [.newArray (elementDescriptor n.ty)]
  | .index _ target i =>
      let target := target.code pc
      target ++ i.code (pc + size target) ++ [.arrayLoad]
  | .unary _ op operand => operand.code pc ++ [unaryInstr op]
  | .binary n op lhs rhs =>
      let lhs := lhs.code pc
      match (skipInstr op : Option (Nat → Instr String)) with
      | some skip =>
          let start := pc + size lhs + 7
          let rhs := rhs.code start
          lhs ++ [.dup, skip (start + size rhs), .pop] ++ rhs
      | none =>
          lhs ++ rhs.code (pc + size lhs) ++ [binaryInstr (n.ty.any Ty.isString) op]
  | .assign _ (.name n ident) value =>
      match n.refers with
      | some (.localVar slot) => keepLocal slot (value.code pc)
      | some (.field owner isStatic d) =>
          let receiver := if isStatic then [] else self
          receiver ++
            keepField isStatic (fieldReference owner ident d) (value.code (pc + size receiver))
      | _ => value.code pc
  | .assign _ (.field n target member) value =>
      match n.refers with
      | some (.localVar slot) => keepLocal slot (value.code pc)
      | some (.field owner true d) =>
          keepField true (fieldReference owner member.name d) (value.code pc)
      | some (.field owner false d) =>
          let target := target.code pc
          target ++
            keepField false (fieldReference owner member.name d) (value.code (pc + size target))
      | _ => value.code pc
  | .assign _ (.index n target i) value =>
      match n.refers with
      | some (.localVar slot) => keepLocal slot (value.code pc)
      | _ =>
          let target := target.code pc
          let i := i.code (pc + size target)
          target ++ i ++ value.code (pc + size target + size i) ++ [.dupX2, .arrayStore]
  | .assign _ target value =>
      match target.note.refers with
      | some (.localVar slot) => keepLocal slot (value.code pc)
      | _ => value.code pc

/-- The code of expressions one after the other. -/
def Expr.codeAll (pc : Nat) : List Expr → SymbolicCode
  | [] => []
  | e :: rest =>
      let code := e.code pc
      code ++ Expr.codeAll (pc + size code) rest

end

/-- The code of an expression whose value is not used. -/
def Expr.discardedCode (pc : Nat) (e : Expr) : SymbolicCode :=
  if e.ty? = some .void then e.code pc else e.code pc ++ [.pop]

/-- The code of an optional expression whose value is not used. -/
def Expr.discardedCode? (pc : Nat) : Option Expr → SymbolicCode
  | none => []
  | some e => e.discardedCode pc

/-! ## Statements -/

/-- The code of the declaration of a local variable. -/
def LocalVar.code (pc : Nat) (d : LocalVar) : SymbolicCode :=
  match d.init, d.slot with
  | some e, some slot => e.code pc ++ [.store (slotOperand slot)]
  | _, _ => []

/-- The code of the first part of a `for` header. -/
def ForInit.code (pc : Nat) : ForInit → SymbolicCode
  | .none => []
  | .declare d => d.code pc
  | .expr _ e => e.discardedCode pc

mutual

/-- The number of slots that a statement takes for what it locks. -/
def Stmt.locks : Stmt → Nat
  | .block _ body => Stmt.locksAll body
  | .ifThen _ _ s | .whileLoop _ _ s | .forLoop _ _ _ _ s => s.locks
  | .ifElse _ _ s t => s.locks + t.locks
  | .synchronized _ _ _ body => Stmt.locksAll body + 1
  | .declare _ | .ret _ _ | .throw _ _ | .expr _ _ | .empty _ => 0

/-- The number of slots that statements take for what they lock. -/
def Stmt.locksAll : List Stmt → Nat
  | [] => 0
  | s :: rest => s.locks + Stmt.locksAll rest

end

mutual

/-- The code of a statement at a place, with the first slot that is free for a lock. -/
def Stmt.code (pc slot : Nat) : Stmt → SymbolicCode
  | .block _ body => Stmt.codeAll pc slot body
  | .declare d => d.code pc
  | .ifThen _ cond s =>
      let cond := cond.code pc
      let start := pc + size cond + jumpSize
      let s := s.code start slot
      cond ++ .jumpIfFalse (start + size s) :: s
  | .ifElse _ cond s t =>
      let cond := cond.code pc
      let start := pc + size cond + jumpSize
      let other := s.locks
      let s := s.code start slot
      let next := start + size s + jumpSize
      let t := t.code next (slot + other)
      cond ++ .jumpIfFalse next :: s ++ .jump (next + size t) :: t
  | .whileLoop _ cond body =>
      let cond := cond.code pc
      let start := pc + size cond + jumpSize
      let body := body.code start slot
      cond ++ .jumpIfFalse (start + size body + jumpSize) :: body ++ [.jump pc]
  | .forLoop _ init cond update body =>
      let init := init.code pc
      let start := pc + size init
      match cond with
      | none =>
          let body := body.code start slot
          let update := Expr.discardedCode? (start + size body) update
          init ++ body ++ update ++ [.jump start]
      | some cond =>
          let cond := cond.code start
          let inner := start + size cond + jumpSize
          let body := body.code inner slot
          let update := Expr.discardedCode? (inner + size body) update
          let exit := inner + size body + size update + jumpSize
          init ++ cond ++ .jumpIfFalse exit :: body ++ update ++ [.jump start]
  | .ret _ value =>
      match value with
      | none => [.ret]
      | some e => e.code pc ++ [.retValue]
  | .throw _ value => value.code pc ++ [.throw]
  | .synchronized _ lock _ body =>
      let enter := lock.code pc ++ [.dup, .store (UInt16.ofNat slot), .monitorEnter]
      enter ++ Stmt.codeAll (pc + size enter) (slot + 1) body ++
        [.load (UInt16.ofNat slot), .monitorExit]
  | .expr _ e => e.discardedCode pc
  | .empty _ => []

/-- The code of statements one after the other. -/
def Stmt.codeAll (pc slot : Nat) : List Stmt → SymbolicCode
  | [] => []
  | s :: rest =>
      let code := s.code pc slot
      code ++ Stmt.codeAll (pc + size code) (slot + s.locks) rest

end

/-! ## Methods -/

/-- The code that gives fields their values. -/
def SymbolicCode.fieldValues (cls : String) (isStatic : Bool) :
    Nat → List (FieldDecl × FieldSig) → SymbolicCode
  | _, [] => []
  | pc, (f, sig) :: rest =>
      match f.init with
      | none => fieldValues cls isStatic pc rest
      | some e =>
          if sig.isStatic = isStatic then
            let receiver := if isStatic then [] else self
            let put := if isStatic then Instr.putStatic else Instr.putField
            let code := receiver ++ e.code (pc + size receiver) ++
              [put (fieldReference cls sig.name sig.ty.descriptor)]
            code ++ fieldValues cls isStatic (pc + size code) rest
          else fieldValues cls isStatic pc rest

/-- The first slot that the code of a declared method may take for a lock. -/
def MethodDecl.firstLock (m : MethodDecl) (sig : MethodSig) : Nat :=
  max (firstSlot sig.isStatic + sig.params.length) (Stmt.allSlotsNeeded 0 m.body.body)

/-- The code of a declared method. -/
def MethodDecl.code (m : MethodDecl) (sig : MethodSig) : SymbolicCode :=
  Stmt.codeAll 0 (m.firstLock sig) m.body.body ++ if sig.ret = .void then [.ret] else []

/-- The code of the initialiser of instances. -/
def SymbolicCode.instanceInit (cls superclass : String) (fields : List (FieldDecl × FieldSig)) :
    SymbolicCode :=
  let call := self ++ [.invoke (initReference superclass)]
  call ++ fieldValues cls false (size call) fields ++ [.ret]

/-- The code of the initialiser of a class. -/
def SymbolicCode.classInit (cls : String) (fields : List (FieldDecl × FieldSig)) :
    SymbolicCode :=
  fieldValues cls true 0 fields ++ [.ret]

end ProbeLang
