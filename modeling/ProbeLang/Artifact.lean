import ProbeLang.Artifact.Pool
import ProbeLang.Bytes
import ProbeLang.Options
import ProbeLang.Table

/-!
# Artifacts

A compiled class: its names, fields and methods with their code, and the constants that the
code names. Every integer is written with its high byte first:

    magic, level, number of constants, constants (length, text),
    flags, class, superclass, enclosing class,
    number of nested classes, nested classes,
    number of fields, fields (flags, name, descriptor),
    number of methods, methods (flags, name, descriptor, slots,
      length of code, code, number of lines, lines (place in the code, line))

Names are indices into the constants; zero stands for no class. The names of the header are
interned behind the constants of the code, so the indices in the code stay valid. Writing
depends on nothing but the class, and reading gives back what was written.
-/

namespace ProbeLang

/-! ## Classes -/

/- The bits that describe classes and members. -/
namespace AccessFlag

def isPublic : UInt16 := 0x0001
def isPrivate : UInt16 := 0x0002
def isProtected : UInt16 := 0x0004
def isStatic : UInt16 := 0x0008
def isFinal : UInt16 := 0x0010
def isDeprecated : UInt16 := 0x0100

end AccessFlag

/-- A field of an artifact. -/
structure FieldInfo where
  flags : UInt16
  name : String
  descriptor : String
  deriving Repr, DecidableEq

/-- A method of an artifact. -/
structure MethodInfo where
  flags : UInt16
  name : String
  descriptor : String
  maxLocals : UInt16
  code : Bytes
  /-- Places in the code and the lines they belong to. -/
  lines : List (UInt32 × UInt32)
  deriving Repr, DecidableEq

/-- A class as an artifact describes it. -/
structure ClassFile where
  target : LanguageLevel
  flags : UInt16
  name : String
  superclass : Option String
  outer : Option String
  nested : List String
  fields : List FieldInfo
  methods : List MethodInfo
  /-- The constants that the code names. -/
  pool : ConstantPool

/-- Whether a class is marked as deprecated. -/
def ClassFile.isDeprecated (c : ClassFile) : Bool :=
  c.flags &&& AccessFlag.isDeprecated != 0

/-- The artifacts of a compilation, by the binary names of their classes. -/
abbrev ArtifactMap := Table Bytes

/-! ## Writing -/

/-- Two bytes, the high one first. -/
def u16Bytes (n : UInt16) : Bytes :=
  [UInt8.ofNat (n.toNat / 256), UInt8.ofNat n.toNat]

/-- Four bytes, the highest one first. -/
def u32Bytes (n : UInt32) : Bytes :=
  [UInt8.ofNat (n.toNat / 16777216), UInt8.ofNat (n.toNat / 65536), UInt8.ofNat (n.toNat / 256),
    UInt8.ofNat n.toNat]

/-- What every artifact begins with. -/
def artifactMagic : Bytes := [0x50, 0x52, 0x42, 0x00]

/-- The length of a table, which must fit two bytes. -/
def tableLength (n : Nat) : Except ArtifactFault UInt16 :=
  if n < 65536 then .ok (UInt16.ofNat n) else .error .tableTooLarge

/-- A table: its length, then its rows. -/
def tableBytes {α : Type} (row : α → Bytes) (rows : List α) : Except ArtifactFault Bytes := do
  let n ← tableLength rows.length
  return u16Bytes n ++ rows.flatMap row

/-- A text: its length in bytes, then the bytes. -/
def textBytes (s : String) : Except ArtifactFault Bytes := do
  let content := Bytes.ofString s
  let n ← tableLength content.length
  return u16Bytes n ++ content

namespace ClassFile

/-- The names of the header in the order in which they are interned. -/
def headerNames (c : ClassFile) : List String :=
  c.name :: c.superclass.toList ++ c.outer.toList ++ c.nested ++
    c.fields.flatMap (fun f => [f.name, f.descriptor]) ++
    c.methods.flatMap fun m => [m.name, m.descriptor]

/-- The index of an optional name, zero if there is none. -/
def optionalIndex (p : ConstantPool) : Option String →
    Except ArtifactFault (UInt16 × ConstantPool)
  | none => .ok (0, p)
  | some s => p.intern s

/-- Intern a name and a descriptor for each member. -/
def memberIndices {α : Type} (name descriptor : α → String) (p : ConstantPool) :
    List (α × UInt16 × UInt16) → List α →
      Except ArtifactFault (List (α × UInt16 × UInt16) × ConstantPool)
  | done, [] => .ok (done.reverse, p)
  | done, m :: rest => do
      let (n, p) ← p.intern (name m)
      let (d, p) ← p.intern (descriptor m)
      memberIndices name descriptor p ((m, n, d) :: done) rest

/-- The texts of a pool. -/
def poolBytes : List Bytes → List String → Except ArtifactFault Bytes
  | done, [] => .ok done.reverse.flatten
  | done, s :: rest => do poolBytes ((← textBytes s) :: done) rest

/-- A method whose name and descriptor have indices. -/
def methodBytes (m : MethodInfo) (name descriptor : UInt16) : Except ArtifactFault Bytes := do
  if 0x100000000 ≤ m.code.length then
    throw .codeTooLarge
  let lines ← tableBytes (fun (pc, line) => u32Bytes pc ++ u32Bytes line) m.lines
  return u16Bytes m.flags ++ u16Bytes name ++ u16Bytes descriptor ++ u16Bytes m.maxLocals ++
    u32Bytes (UInt32.ofNat m.code.length) ++ m.code ++ lines

/-- Methods one after the other. -/
def methodsBytes : List Bytes → List (MethodInfo × UInt16 × UInt16) →
    Except ArtifactFault Bytes
  | done, [] => .ok done.reverse.flatten
  | done, (m, n, d) :: rest => do methodsBytes ((← methodBytes m n d) :: done) rest

/-- The bytes of a class. -/
def encode (c : ClassFile) : Except ArtifactFault Bytes := do
  let (this, pool) ← c.pool.intern c.name
  let (superclass, pool) ← optionalIndex pool c.superclass
  let (outer, pool) ← optionalIndex pool c.outer
  let (nested, pool) ← pool.internAll [] c.nested
  let (fields, pool) ← memberIndices FieldInfo.name FieldInfo.descriptor pool [] c.fields
  let (methods, pool) ← memberIndices MethodInfo.name MethodInfo.descriptor pool [] c.methods
  let poolSize ← tableLength pool.size
  let constants ← poolBytes [] pool.toList
  let nestedTable ← tableBytes u16Bytes nested
  let fieldTable ← tableBytes
    (fun (f, n, d) => u16Bytes f.flags ++ u16Bytes n ++ u16Bytes d) fields
  let methodCount ← tableLength methods.length
  let methodTable ← methodsBytes [] methods
  return artifactMagic ++ u16Bytes (UInt16.ofNat c.target.code) ++ u16Bytes poolSize ++
    constants ++ u16Bytes c.flags ++ u16Bytes this ++ u16Bytes superclass ++ u16Bytes outer ++
    nestedTable ++ fieldTable ++ u16Bytes methodCount ++ methodTable

/-! ## Reading -/

/-- A reader of part of an artifact. -/
abbrev Read := StateT Bytes (Except ArtifactFault)

namespace Read

/-- The next `n` bytes. -/
def take (n : Nat) : Read Bytes := do
  let bytes ← get
  let chunk := bytes.take n
  if chunk.length = n then
    set (bytes.drop n)
    return chunk
  else
    throw .unexpectedEnd

/-- A number of two bytes. -/
def u16 : Read UInt16 := do
  match ← take 2 with
  | [a, b] => return UInt16.ofNat (a.toNat * 256 + b.toNat)
  | _ => throw .unexpectedEnd

/-- A number of four bytes. -/
def u32 : Read UInt32 := do
  match ← take 4 with
  | [a, b, c, d] =>
      return UInt32.ofNat (((a.toNat * 256 + b.toNat) * 256 + c.toNat) * 256 + d.toNat)
  | _ => throw .unexpectedEnd

/-- Read `n` rows; `done` holds those already read, last first. -/
def rows {α : Type} (row : Read α) : Nat → List α → Read (List α)
  | 0, done => return done.reverse
  | n + 1, done => do
      let a ← row
      rows row n (a :: done)

/-- Read a table. -/
def table {α : Type} (row : Read α) : Read (List α) := do
  rows row (← u16).toNat []

/-- Read a text. -/
def text : Read String := do
  let content ← take (← u16).toNat
  match content.toString? with
  | .ok s => return s
  | .error _ => throw .poolEntryNotText

/-- The name at an index. -/
def nameAt (names : Array String) (i : UInt16) : Read String :=
  if i = 0 then throw (.indexOutOfRange 0)
  else
    match names[i.toNat - 1]? with
    | some s => return s
    | none => throw (.indexOutOfRange i.toNat)

/-- Read the index of a name. -/
def name (names : Array String) : Read String := do
  nameAt names (← u16)

/-- Read the index of a name, or zero. -/
def optionalName (names : Array String) : Read (Option String) := do
  let i ← u16
  if i = 0 then return none else return some (← nameAt names i)

/-- Read a field. -/
def field (names : Array String) : Read FieldInfo := do
  let flags ← u16
  let n ← name names
  let d ← name names
  return ⟨flags, n, d⟩

/-- Read a method. -/
def method (names : Array String) : Read MethodInfo := do
  let flags ← u16
  let n ← name names
  let d ← name names
  let maxLocals ← u16
  let code ← take (← u32).toNat
  let lines ← table do
    let pc ← u32
    let line ← u32
    return (pc, line)
  return ⟨flags, n, d, maxLocals, code, lines⟩

/-- Read a class up to its end. -/
def classFile : Read ClassFile := do
  if (← take 4) ≠ artifactMagic then
    throw .badMagic
  let level ← u16
  let some target := LanguageLevel.ofCode? level.toNat | throw (.unsupportedTarget level.toNat)
  let constants ← table text
  let names := constants.toArray
  let flags ← u16
  let this ← name names
  let superclass ← optionalName names
  let outer ← optionalName names
  let nested ← table (name names)
  let fields ← table (field names)
  let methods ← table (method names)
  return ⟨target, flags, this, superclass, outer, nested, fields, methods,
    constants.foldl ConstantPool.push .empty⟩

end Read

/-- The class that the bytes describe. -/
def decode (bytes : Bytes) : Except ArtifactFault ClassFile := do
  let (c, rest) ← Read.classFile.run bytes
  if rest.isEmpty then return c else throw .trailingBytes

end ClassFile

end ProbeLang
