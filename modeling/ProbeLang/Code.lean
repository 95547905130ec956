import ProbeLang.Artifact

/-!
# Stack code

The instructions of method bodies. An instruction is written as one byte that names it and an
operand of fixed width, the high byte first: a number of four or eight bytes, a slot or the
index of a constant of two bytes, or a place in the code of four bytes. Fields are named in
the constants as `Owner.name:descriptor` and methods as `Owner.name(params)ret`.
-/

namespace ProbeLang

/-- An instruction. Slots are given by number, jumps by the place they lead to, counted in bytes
from the beginning of the code. Constants are named by what is in `κ`: by their index where code
is written. -/
inductive Instr (κ : Type)
  | pushInt (n : UInt32)
  | pushLong (n : UInt64)
  | pushConst (constant : κ)
  | pushNull
  | load (slot : UInt16)
  | store (slot : UInt16)
  | getField (constant : κ)
  | putField (constant : κ)
  | getStatic (constant : κ)
  | putStatic (constant : κ)
  | invoke (constant : κ)
  | invokeStatic (constant : κ)
  | new (constant : κ)
  | newArray (constant : κ)
  | arrayLoad
  | arrayStore
  | arrayLength
  | neg
  | not
  | add
  | sub
  | mul
  | div
  | rem
  | cmpEq
  | cmpNe
  | cmpLt
  | cmpLe
  | cmpGt
  | cmpGe
  | concat
  | jump (target : Nat)
  | jumpIfFalse (target : Nat)
  | jumpIfTrue (target : Nat)
  | ret
  | retValue
  | throw
  | monitorEnter
  | monitorExit
  | pop
  | dup
  | dupX1
  | dupX2
  deriving Repr, DecidableEq

namespace Instr

variable {κ : Type}

/-- The byte that names an instruction. -/
def opcode : Instr κ → UInt8
  | .pushInt _ => 0x01
  | .pushLong _ => 0x02
  | .pushConst _ => 0x03
  | .pushNull => 0x04
  | .load _ => 0x10
  | .store _ => 0x11
  | .getField _ => 0x20
  | .putField _ => 0x21
  | .getStatic _ => 0x22
  | .putStatic _ => 0x23
  | .invoke _ => 0x30
  | .invokeStatic _ => 0x31
  | .new _ => 0x40
  | .newArray _ => 0x41
  | .arrayLoad => 0x42
  | .arrayStore => 0x43
  | .arrayLength => 0x44
  | .neg => 0x50
  | .not => 0x51
  | .add => 0x52
  | .sub => 0x53
  | .mul => 0x54
  | .div => 0x55
  | .rem => 0x56
  | .cmpEq => 0x60
  | .cmpNe => 0x61
  | .cmpLt => 0x62
  | .cmpLe => 0x63
  | .cmpGt => 0x64
  | .cmpGe => 0x65
  | .concat => 0x66
  | .jump _ => 0x70
  | .jumpIfFalse _ => 0x71
  | .jumpIfTrue _ => 0x72
  | .ret => 0x80
  | .retValue => 0x81
  | .throw => 0x82
  | .monitorEnter => 0x90
  | .monitorExit => 0x91
  | .pop => 0xa0
  | .dup => 0xa1
  | .dupX1 => 0xa2
  | .dupX2 => 0xa3

/-- Eight bytes, the highest one first. -/
def u64Bytes (n : UInt64) : Bytes :=
  u32Bytes (UInt32.ofNat (n.toNat / 4294967296)) ++ u32Bytes (UInt32.ofNat n.toNat)

/-- The bytes of an operand. -/
def operand : Instr UInt16 → Bytes
  | .pushInt n => u32Bytes n
  | .pushLong n => u64Bytes n
  | .load i | .store i | .pushConst i | .getField i | .putField i | .getStatic i
  | .putStatic i | .invoke i | .invokeStatic i | .new i | .newArray i => u16Bytes i
  | .jump target | .jumpIfFalse target | .jumpIfTrue target => u32Bytes (UInt32.ofNat target)
  | _ => []

/-- The bytes of an instruction. -/
def encode (i : Instr UInt16) : Bytes :=
  i.opcode :: i.operand

/-- The number of bytes of an instruction. -/
def size : Instr κ → Nat
  | .pushInt _ | .jump _ | .jumpIfFalse _ | .jumpIfTrue _ => 5
  | .pushLong _ => 9
  | .load _ | .store _ | .pushConst _ | .getField _ | .putField _ | .getStatic _
  | .putStatic _ | .invoke _ | .invokeStatic _ | .new _ | .newArray _ => 3
  | _ => 1

theorem length_encode (i : Instr UInt16) : i.encode.length = i.size := by
  cases i <;> rfl

end Instr

/-- A piece of code. -/
abbrev Code := List (Instr UInt16)

namespace Code

/-- The number of bytes of a piece of code. -/
def size {κ : Type} : List (Instr κ) → Nat
  | [] => 0
  | i :: rest => i.size + size rest

/-- The bytes of a piece of code. -/
def encode (c : Code) : Bytes :=
  c.flatMap Instr.encode

theorem length_encode (c : Code) : c.encode.length = size c := by
  induction c with
  | nil => rfl
  | cons i c ih =>
      have happend : encode (i :: c) = i.encode ++ encode c := rfl
      rw [happend, List.length_append, ih, Instr.length_encode, size]

end Code

end ProbeLang
