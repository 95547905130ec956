import ProbeLang.Proofs.Code.Layout

/-!
# Reading code

Code is read one instruction after the other: the byte that names an instruction tells how wide its
operand is. Code that has been written is read back as the same instructions, as long as no jump
leads further than four bytes can say.
-/

namespace ProbeLang

/-! ## Numbers

A number that is written in two, four or eight bytes is what these bytes stand for, and two or four
bytes are what the number that they stand for is written in. -/

theorem u16_of_bytes (n : UInt16) :
    UInt16.ofNat ((UInt8.ofNat (n.toNat / 256)).toNat * 256 + (UInt8.ofNat n.toNat).toNat) = n := by
  have hn := n.toNat_lt
  apply UInt16.toNat.inj
  simp only [UInt8.toNat_ofNat', UInt16.toNat_ofNat']
  omega

theorem u32_of_bytes (n : UInt32) :
    UInt32.ofNat ((((UInt8.ofNat (n.toNat / 16777216)).toNat * 256 +
      (UInt8.ofNat (n.toNat / 65536)).toNat) * 256 + (UInt8.ofNat (n.toNat / 256)).toNat) * 256 +
      (UInt8.ofNat n.toNat).toNat) = n := by
  have hn := n.toNat_lt
  apply UInt32.toNat.inj
  simp only [UInt8.toNat_ofNat', UInt32.toNat_ofNat']
  omega

theorem u64_of_halves (n : UInt64) :
    UInt64.ofNat ((UInt32.ofNat (n.toNat / 4294967296)).toNat * 4294967296 +
      (UInt32.ofNat n.toNat).toNat) = n := by
  have hn := n.toNat_lt
  apply UInt64.toNat.inj
  simp only [UInt32.toNat_ofNat', UInt64.toNat_ofNat']
  omega

theorem u16Bytes_of (a b : UInt8) :
    u16Bytes (UInt16.ofNat (a.toNat * 256 + b.toNat)) = [a, b] := by
  have ha := a.toNat_lt
  have hb := b.toNat_lt
  simp only [u16Bytes, UInt16.toNat_ofNat', List.cons.injEq, and_true, ← UInt8.toNat_inj,
    UInt8.toNat_ofNat']
  omega

theorem u32Bytes_of (a b c d : UInt8) :
    u32Bytes (UInt32.ofNat (((a.toNat * 256 + b.toNat) * 256 + c.toNat) * 256 + d.toNat)) =
      [a, b, c, d] := by
  have ha := a.toNat_lt
  have hb := b.toNat_lt
  have hc := c.toNat_lt
  have hd := d.toNat_lt
  simp only [u32Bytes, UInt32.toNat_ofNat', List.cons.injEq, and_true, ← UInt8.toNat_inj,
    UInt8.toNat_ofNat']
  omega

/-! ## Operands -/

/-- A number of two bytes in front of others. -/
def u16? : Bytes → Option (UInt16 × Bytes)
  | a :: b :: rest => some (UInt16.ofNat (a.toNat * 256 + b.toNat), rest)
  | _ => none

/-- A number of four bytes in front of others. -/
def u32? : Bytes → Option (UInt32 × Bytes)
  | a :: b :: c :: d :: rest =>
      some (UInt32.ofNat (((a.toNat * 256 + b.toNat) * 256 + c.toNat) * 256 + d.toNat), rest)
  | _ => none

/-- A number of eight bytes in front of others. -/
def u64? (bytes : Bytes) : Option (UInt64 × Bytes) := do
  let (high, rest) ← u32? bytes
  let (low, rest) ← u32? rest
  return (UInt64.ofNat (high.toNat * 4294967296 + low.toNat), rest)

theorem u16?_u16Bytes (n : UInt16) (rest : Bytes) : u16? (u16Bytes n ++ rest) = some (n, rest) := by
  simp only [u16Bytes, u16?, List.cons_append, List.nil_append, u16_of_bytes]

theorem u32?_u32Bytes (n : UInt32) (rest : Bytes) : u32? (u32Bytes n ++ rest) = some (n, rest) := by
  simp only [u32Bytes, u32?, List.cons_append, List.nil_append, u32_of_bytes]

theorem u64?_u64Bytes (n : UInt64) (rest : Bytes) :
    u64? (Instr.u64Bytes n ++ rest) = some (n, rest) := by
  simp only [u64?, Instr.u64Bytes, List.append_assoc, u32?_u32Bytes, Option.bind_eq_bind,
    Option.bind_some, u64_of_halves]
  rfl

/-! ## Instructions -/

/-- The instruction that bytes begin with, given the byte that names it and those behind. -/
def Instr.ofOpcode? (op : UInt8) (rest : Bytes) : Option (Instr UInt16 × Bytes) :=
  match op with
  | 0x01 => (u32? rest).map fun (n, rest) => (.pushInt n, rest)
  | 0x02 => (u64? rest).map fun (n, rest) => (.pushLong n, rest)
  | 0x03 => (u16? rest).map fun (n, rest) => (.pushConst n, rest)
  | 0x04 => some (.pushNull, rest)
  | 0x10 => (u16? rest).map fun (n, rest) => (.load n, rest)
  | 0x11 => (u16? rest).map fun (n, rest) => (.store n, rest)
  | 0x20 => (u16? rest).map fun (n, rest) => (.getField n, rest)
  | 0x21 => (u16? rest).map fun (n, rest) => (.putField n, rest)
  | 0x22 => (u16? rest).map fun (n, rest) => (.getStatic n, rest)
  | 0x23 => (u16? rest).map fun (n, rest) => (.putStatic n, rest)
  | 0x30 => (u16? rest).map fun (n, rest) => (.invoke n, rest)
  | 0x31 => (u16? rest).map fun (n, rest) => (.invokeStatic n, rest)
  | 0x40 => (u16? rest).map fun (n, rest) => (.new n, rest)
  | 0x41 => (u16? rest).map fun (n, rest) => (.newArray n, rest)
  | 0x42 => some (.arrayLoad, rest)
  | 0x43 => some (.arrayStore, rest)
  | 0x44 => some (.arrayLength, rest)
  | 0x50 => some (.neg, rest)
  | 0x51 => some (.not, rest)
  | 0x52 => some (.add, rest)
  | 0x53 => some (.sub, rest)
  | 0x54 => some (.mul, rest)
  | 0x55 => some (.div, rest)
  | 0x56 => some (.rem, rest)
  | 0x60 => some (.cmpEq, rest)
  | 0x61 => some (.cmpNe, rest)
  | 0x62 => some (.cmpLt, rest)
  | 0x63 => some (.cmpLe, rest)
  | 0x64 => some (.cmpGt, rest)
  | 0x65 => some (.cmpGe, rest)
  | 0x66 => some (.concat, rest)
  | 0x70 => (u32? rest).map fun (n, rest) => (.jump n.toNat, rest)
  | 0x71 => (u32? rest).map fun (n, rest) => (.jumpIfFalse n.toNat, rest)
  | 0x72 => (u32? rest).map fun (n, rest) => (.jumpIfTrue n.toNat, rest)
  | 0x80 => some (.ret, rest)
  | 0x81 => some (.retValue, rest)
  | 0x82 => some (.throw, rest)
  | 0x90 => some (.monitorEnter, rest)
  | 0x91 => some (.monitorExit, rest)
  | 0xa0 => some (.pop, rest)
  | 0xa1 => some (.dup, rest)
  | 0xa2 => some (.dupX1, rest)
  | 0xa3 => some (.dupX2, rest)
  | _ => none

/-- The instruction that bytes begin with. -/
def Instr.read? : Bytes → Option (Instr UInt16 × Bytes)
  | [] => none
  | op :: rest => Instr.ofOpcode? op rest

/-- Whether the places that jumps lead to fit their operands. -/
def Code.TargetsFit {κ : Type} (c : List (Instr κ)) : Prop :=
  ∀ i ∈ c, ∀ target, i.target? = some target → target < 0x100000000

theorem Instr.read?_encode (i : Instr UInt16) (rest : Bytes)
    (h : ∀ target, i.target? = some target → target < 0x100000000) :
    Instr.read? (i.encode ++ rest) = some (i, rest) := by
  cases i with
  | pushInt n => simp [encode, read?, opcode, ofOpcode?, operand, u32?_u32Bytes]
  | pushLong n => simp [encode, read?, opcode, ofOpcode?, operand, u64?_u64Bytes]
  | load n | store n | pushConst n | getField n | putField n | getStatic n | putStatic n
  | invoke n | invokeStatic n | new n | newArray n =>
      simp [encode, read?, opcode, ofOpcode?, operand, u16?_u16Bytes]
  | jump n | jumpIfFalse n | jumpIfTrue n =>
      have hn := h n rfl
      simp [encode, read?, opcode, ofOpcode?, operand, u32?_u32Bytes, Nat.mod_eq_of_lt hn]
  | _ => rfl

/-! ## Code -/

/-- Read code to its end. Every instruction takes a byte, so bytes are never more than `fuel`. -/
def Code.readFrom : Nat → Bytes → Option Code
  | _, [] => some []
  | 0, _ => none
  | fuel + 1, bytes => do
      let (i, rest) ← Instr.read? bytes
      return i :: (← Code.readFrom fuel rest)

/-- The instructions that bytes consist of, with nothing left over. -/
def Code.read? (bytes : Bytes) : Option Code :=
  Code.readFrom bytes.length bytes

theorem Code.readFrom_encode {c : Code} (h : Code.TargetsFit c) {fuel : Nat}
    (hfuel : c.length ≤ fuel) : Code.readFrom fuel (Code.encode c) = some c := by
  induction c generalizing fuel with
  | nil => cases fuel <;> rfl
  | cons i c ih =>
      obtain ⟨fuel, rfl⟩ : ∃ k, fuel = k + 1 := ⟨fuel - 1, by simp at hfuel; omega⟩
      have hi := Instr.read?_encode i (Code.encode c) (h i List.mem_cons_self)
      have hc := ih (fun j hj => h j (List.mem_cons_of_mem _ hj)) (Nat.le_of_succ_le_succ hfuel)
      have hne : Code.encode (i :: c) = i.encode ++ Code.encode c := rfl
      obtain ⟨b, bs, hb⟩ : ∃ b bs, Code.encode (i :: c) = b :: bs := ⟨_, _, rfl⟩
      rw [← hne, hb] at hi
      rw [hb]
      simp only [Code.readFrom, hi, Option.bind_eq_bind, Option.bind_some, hc]
      rfl

theorem Code.read?_encode {c : Code} (h : Code.TargetsFit c) :
    Code.read? (Code.encode c) = some c := by
  refine Code.readFrom_encode h ?_
  rw [Code.length_encode]
  exact Code.length_le_size c

end ProbeLang
