import ProbeLang.Code
import ProbeLang.Tree.Walk

/-!
# Code of expressions and statements

The code of an analysed expression leaves its value on the stack; that of a call of a void
method leaves nothing. Operands come before operators, receivers before arguments, and an
assignment leaves the value that it stores. The constants of a piece of code are interned in
the order of the instructions that name them.

Code is made for the place where it will stand, so that jumps can be given their targets as
soon as the length of what they jump over is known.
-/

namespace ProbeLang

/-- What is kept while the code of a class is made. -/
structure CodeState where
  pool : ConstantPool
  /-- The first slot that is not used in the method. -/
  nextSlot : Nat
  /-- The places where lines begin, last first. -/
  lines : List (Nat × Nat)

/-- A step in the making of code. -/
abbrev CodeM := StateT CodeState (Except ArtifactFault)

namespace CodeM

/-- The index of a constant. -/
def constant (s : String) : CodeM UInt16 := do
  let state ← get
  let (i, pool) ← state.pool.intern s
  set { state with pool }
  return i

/-- An instruction that names a constant. -/
def pooled (instr : UInt16 → Instr UInt16) (s : String) : CodeM Code := do
  return [instr (← constant s)]

/-- A slot that is used nowhere else in the method. -/
def freshSlot : CodeM UInt16 := do
  let state ← get
  if state.nextSlot < 65535 then
    set { state with nextSlot := state.nextSlot + 1 }
    return UInt16.ofNat state.nextSlot
  else throw .slotsExhausted

/-- Keep slots up to a number, itself not included, from being fresh. -/
def reserve (n : Nat) : CodeM Unit := do
  let state ← get
  let next := max state.nextSlot n
  if next ≤ 65535 then set { state with nextSlot := next } else throw .slotsExhausted

/-- Note that the code from a place on belongs to a line. -/
def line (debug : DebugInfo) (pc : Nat) (pos : Pos) : CodeM Unit := do
  if debug = .lines && pos.line ≠ 0 then
    modify fun state =>
      if state.lines.head?.map Prod.snd = some pos.line then state
      else { state with lines := (pc, pos.line) :: state.lines }

end CodeM

/-- The constant that names a field. -/
def fieldReference (owner name descriptor : String) : String :=
  owner ++ "." ++ name ++ ":" ++ descriptor

/-- The constant that names a method. -/
def methodReference (owner name descriptor : String) : String :=
  owner ++ "." ++ name ++ descriptor

/-- The constant that names the initialiser of a class. -/
def initReference (cls : String) : String :=
  methodReference cls "<init>" "()V"

namespace CodeM

open Instr

/-- The slot of a local variable as an operand. -/
def slotOperand (slot : Nat) : UInt16 :=
  UInt16.ofNat slot

/-- The value of `this`. -/
def thisCode : Code := [.load 0]

/-- The code of a constant. -/
def literal : Literal → CodeM Code
  | .int n => return [.pushInt (UInt32.ofNat n)]
  | .bool b => return [.pushInt (if b then 1 else 0)]
  | .char c => return [.pushInt c.val]
  | .long n => return [.pushLong (UInt64.ofNat n)]
  | .string s => pooled .pushConst s
  | .null => return [.pushNull]

/-- The instruction of a unary operator. -/
def unaryInstr {κ : Type} : UnaryOp → Instr κ
  | .not => .not
  | .neg => .neg

/-- The instruction of a binary operator that takes both values. Addition of texts is
`concat`. -/
def binaryInstr {κ : Type} (text : Bool) : BinaryOp → Instr κ
  | .add => if text then .concat else .add
  | .sub => .sub
  | .mul => .mul
  | .div => .div
  | .rem => .rem
  | .eq | .and | .or => .cmpEq
  | .ne => .cmpNe
  | .lt => .cmpLt
  | .le => .cmpLe
  | .gt => .cmpGt
  | .ge => .cmpGe

/-- The instruction with which an operator skips its right side, given where to. -/
def skipInstr {κ : Type} : BinaryOp → Option (Nat → Instr κ)
  | .and => some .jumpIfFalse
  | .or => some .jumpIfTrue
  | _ => none

/-- Create an object. -/
def create (cls : String) : CodeM Code := do
  let new ← pooled .new cls
  return new ++ .dup :: (← pooled .invoke (initReference cls))

/-- Store a value in a local variable and keep it. -/
def keepLocal (slot : Nat) (value : Code) : Code :=
  value ++ [.dup, .store (slotOperand slot)]

/-- Store a value in a field and keep it; a receiver is on the stack unless the field is
static. -/
def keepField (isStatic : Bool) (reference : String) (value : Code) : CodeM Code := do
  if isStatic then return value ++ .dup :: (← pooled .putStatic reference)
  else return value ++ .dupX1 :: (← pooled .putField reference)

/-- The descriptor of the elements of an array type. -/
def elementDescriptor : Option Ty → String
  | some (.array elem) => elem.descriptor
  | _ => Ty.object.descriptor

mutual

/-- The code of an expression at a place. -/
def expr (pc : Nat) : Expr → CodeM Code
  | .literal _ v => literal v
  | .name n name =>
      match n.refers with
      | some (.localVar slot) => return [.load (slotOperand slot)]
      | some (.field owner true d) => pooled .getStatic (fieldReference owner name d)
      | some (.field owner false d) =>
          return thisCode ++ (← pooled .getField (fieldReference owner name d))
      | _ => return []
  | .this _ => return thisCode
  | .field n target name =>
      match n.refers with
      | some (.field owner true d) => pooled .getStatic (fieldReference owner name.name d)
      | some (.field owner false d) => do
          let target ← expr pc target
          return target ++ (← pooled .getField (fieldReference owner name.name d))
      | _ =>
          match target.ty? with
          | some (.array _) => return (← expr pc target) ++ [.arrayLength]
          | _ => return []
  | .call n name args =>
      match n.refers with
      | some (.method owner true d) => do
          let args ← exprs pc args
          return args ++ (← pooled .invokeStatic (methodReference owner name.name d))
      | some (.method owner false d) => do
          let args ← exprs (pc + Code.size thisCode) args
          return thisCode ++ args ++ (← pooled .invoke (methodReference owner name.name d))
      | _ => return []
  | .invoke n target name args =>
      match n.refers with
      | some (.method owner true d) => do
          let args ← exprs pc args
          return args ++ (← pooled .invokeStatic (methodReference owner name.name d))
      | some (.method owner false d) => do
          let target ← expr pc target
          let args ← exprs (pc + Code.size target) args
          return target ++ args ++ (← pooled .invoke (methodReference owner name.name d))
      | _ => return []
  | .new n _ _ =>
      match n.refers with
      | some (.cls cls) => create cls
      | _ => return []
  | .newArray n _ length => do
      let length ← expr pc length
      return length ++ (← pooled .newArray (elementDescriptor n.ty))
  | .index _ target i => do
      let target ← expr pc target
      let i ← expr (pc + Code.size target) i
      return target ++ i ++ [.arrayLoad]
  | .unary _ op operand => return (← expr pc operand) ++ [unaryInstr op]
  | .binary n op lhs rhs => do
      let lhs ← expr pc lhs
      match (skipInstr op : Option (Nat → Instr UInt16)) with
      | some skip =>
          -- The copy, the jump of five bytes and the removal of the copy come between.
          let start := pc + Code.size lhs + 7
          let rhs ← expr start rhs
          return lhs ++ [.dup, skip (start + Code.size rhs), .pop] ++ rhs
      | none =>
          let rhs ← expr (pc + Code.size lhs) rhs
          return lhs ++ rhs ++ [binaryInstr (n.ty.any Ty.isString) op]
  | .assign _ (.name n name) value =>
      match n.refers with
      | some (.localVar slot) => return keepLocal slot (← expr pc value)
      | some (.field owner isStatic d) => do
          let receiver := if isStatic then [] else thisCode
          let value ← expr (pc + Code.size receiver) value
          return receiver ++ (← keepField isStatic (fieldReference owner name d) value)
      | _ => expr pc value
  | .assign _ (.field n target name) value =>
      match n.refers with
      | some (.localVar slot) => return keepLocal slot (← expr pc value)
      | some (.field owner true d) => do
          keepField true (fieldReference owner name.name d) (← expr pc value)
      | some (.field owner false d) => do
          let target ← expr pc target
          let value ← expr (pc + Code.size target) value
          return target ++ (← keepField false (fieldReference owner name.name d) value)
      | _ => expr pc value
  | .assign _ (.index n target i) value =>
      match n.refers with
      | some (.localVar slot) => return keepLocal slot (← expr pc value)
      | _ => do
          let target ← expr pc target
          let i ← expr (pc + Code.size target) i
          let value ← expr (pc + Code.size target + Code.size i) value
          return target ++ i ++ value ++ [.dupX2, .arrayStore]
  | .assign _ target value =>
      match target.note.refers with
      | some (.localVar slot) => return keepLocal slot (← expr pc value)
      | _ => expr pc value

/-- The code of expressions one after the other. -/
def exprs (pc : Nat) : List Expr → CodeM Code
  | [] => return []
  | e :: rest => do
      let code ← expr pc e
      return code ++ (← exprs (pc + Code.size code) rest)

end

/-- The code of an expression whose value is not used. -/
def discarded (pc : Nat) (e : Expr) : CodeM Code := do
  let code ← expr pc e
  return if e.ty? = some .void then code else code ++ [.pop]

/-- The code of an optional expression whose value is not used. -/
def discarded? (pc : Nat) : Option Expr → CodeM Code
  | none => return []
  | some e => discarded pc e

/-- The code of the declaration of a local variable. -/
def localVar (pc : Nat) (d : LocalVar) : CodeM Code :=
  match d.init, d.slot with
  | some e, some slot => return (← expr pc e) ++ [.store (slotOperand slot)]
  | _, _ => return []

/-- The code of the first part of a `for` header. -/
def forInit (debug : DebugInfo) (pc : Nat) : ForInit → CodeM Code
  | .none => return []
  | .declare d => do
      line debug pc d.pos
      localVar pc d
  | .expr pos e => do
      line debug pc pos
      discarded pc e

/-- The number of bytes of a jump. -/
def jumpSize : Nat := 5

mutual

/-- The code of a statement at a place. -/
def stmt (debug : DebugInfo) (pc : Nat) : Stmt → CodeM Code
  | .block pos body => do
      line debug pc pos
      stmts debug pc [] body
  | .declare d => do
      line debug pc d.pos
      localVar pc d
  | .ifThen pos cond s => do
      line debug pc pos
      let cond ← expr pc cond
      let start := pc + Code.size cond + jumpSize
      let s ← stmt debug start s
      return cond ++ .jumpIfFalse (start + Code.size s) :: s
  | .ifElse pos cond s t => do
      line debug pc pos
      let cond ← expr pc cond
      let start := pc + Code.size cond + jumpSize
      let s ← stmt debug start s
      let other := start + Code.size s + jumpSize
      let t ← stmt debug other t
      return cond ++ .jumpIfFalse other :: s ++ .jump (other + Code.size t) :: t
  | .whileLoop pos cond body => do
      line debug pc pos
      let cond ← expr pc cond
      let start := pc + Code.size cond + jumpSize
      let body ← stmt debug start body
      return cond ++ .jumpIfFalse (start + Code.size body + jumpSize) :: body ++ [.jump pc]
  | .forLoop pos init cond update body => do
      line debug pc pos
      let init ← forInit debug pc init
      let start := pc + Code.size init
      match cond with
      | none => do
          let body ← stmt debug start body
          let update ← discarded? (start + Code.size body) update
          return init ++ body ++ update ++ [.jump start]
      | some cond => do
          let cond ← expr start cond
          let inner := start + Code.size cond + jumpSize
          let body ← stmt debug inner body
          let update ← discarded? (inner + Code.size body) update
          let exit := inner + Code.size body + Code.size update + jumpSize
          return init ++ cond ++ .jumpIfFalse exit :: body ++ update ++ [.jump start]
  | .ret pos value => do
      line debug pc pos
      match value with
      | none => return [.ret]
      | some e => return (← expr pc e) ++ [.retValue]
  | .throw pos value => do
      line debug pc pos
      return (← expr pc value) ++ [.throw]
  | .synchronized pos lock _ body => do
      line debug pc pos
      let slot ← freshSlot
      let lock ← expr pc lock
      let enter := lock ++ [.dup, .store slot, .monitorEnter]
      let body ← stmts debug (pc + Code.size enter) [] body
      return enter ++ body ++ [.load slot, .monitorExit]
  | .expr pos e => do
      line debug pc pos
      discarded pc e
  | .empty pos => do
      line debug pc pos
      return []

/-- The code of statements one after the other, behind pieces that are given last first. -/
def stmts (debug : DebugInfo) (pc : Nat) (done : List Code) : List Stmt → CodeM Code
  | [] => return done.reverse.flatten
  | s :: rest => do
      let code ← stmt debug pc s
      stmts debug (pc + Code.size code) (code :: done) rest

end

end CodeM

end ProbeLang
