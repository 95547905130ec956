import ProbeLang.Bytes

/-!
# BLAKE3 digests

The digest of a content is made of chunks of 1024 bytes, the leaves of a binary tree whose left
subtrees are full. A chunk is compressed block by block, each block of 64 bytes into the value
of those before it, and a parent compresses the values of its two children. The digest is the
value of the root, which is marked as such.
-/

namespace ProbeLang.Blake3

/-- A row of the state. -/
structure Row where
  a : UInt32
  b : UInt32
  c : UInt32
  d : UInt32
  deriving Repr, DecidableEq

namespace Row

/-- The words of a row. -/
def toList (r : Row) : List UInt32 := [r.a, r.b, r.c, r.d]

/-- The row of four words. -/
def ofList : List UInt32 → Row
  | [a, b, c, d] => ⟨a, b, c, d⟩
  | _ => ⟨0, 0, 0, 0⟩

/-- The row moved to the left by one place. -/
def rotate (r : Row) : Row := ⟨r.b, r.c, r.d, r.a⟩

/-- Combine two rows word by word. -/
def zip (f : UInt32 → UInt32 → UInt32) (r s : Row) : Row :=
  ⟨f r.a s.a, f r.b s.b, f r.c s.c, f r.d s.d⟩

/-- The bits of each word moved to the right by `n` places, around the end. -/
def turn (n : UInt32) (r : Row) : Row :=
  let f (x : UInt32) : UInt32 := x >>> n ||| x <<< (32 - n)
  ⟨f r.a, f r.b, f r.c, f r.d⟩

end Row

/-- The state of a compression. -/
structure State where
  w : Row
  x : Row
  y : Row
  z : Row
  deriving Repr, DecidableEq

/-- Half of a mixing step, with one word of the message for each column. -/
def halfMix (first second : UInt32) (s : State) (m : Row) : State :=
  let w := ((s.w.zip (· + ·) s.x).zip (· + ·) m)
  let z := (s.z.zip (· ^^^ ·) w).turn first
  let y := s.y.zip (· + ·) z
  let x := (s.x.zip (· ^^^ ·) y).turn second
  ⟨w, x, y, z⟩

/-- Mix the columns of a state with eight words of the message. -/
def mix (s : State) (m : List UInt32) : State :=
  match m with
  | [a, b, c, d, e, f, g, h] => halfMix 8 7 (halfMix 16 12 s ⟨a, c, e, g⟩) ⟨b, d, f, h⟩
  | _ => s

/-- The state with its diagonals as columns. -/
def toDiagonals (s : State) : State :=
  ⟨s.w, s.x.rotate, s.y.rotate.rotate, s.z.rotate.rotate.rotate⟩

/-- The state with its columns as diagonals. -/
def fromDiagonals (s : State) : State :=
  ⟨s.w, s.x.rotate.rotate.rotate, s.y.rotate.rotate, s.z.rotate⟩

/-- Where each word of the next round comes from. -/
def schedule : List Nat := [2, 6, 3, 10, 7, 0, 4, 13, 1, 11, 12, 5, 9, 14, 15, 8]

/-- Rounds over a state. -/
def rounds : Nat → State → List UInt32 → State
  | 0, s, _ => s
  | n + 1, s, m =>
      let s := mix s (m.take 8)
      let s := fromDiagonals (mix (toDiagonals s) (m.drop 8))
      rounds n s (schedule.map fun i => m[i]?.getD 0)

/-- The value with which compression begins. -/
def initial : List UInt32 :=
  [0x6A09E667, 0xBB67AE85, 0x3C6EF372, 0xA54FF53A, 0x510E527F, 0x9B05688C, 0x1F83D9AB,
   0x5BE0CD19]

/-- What marks the first block of a chunk. -/
def chunkStart : UInt32 := 1

/-- What marks the last block of a chunk. -/
def chunkEnd : UInt32 := 2

/-- What marks a parent. -/
def parentMark : UInt32 := 4

/-- What marks the root. -/
def rootMark : UInt32 := 8

/-- A block with the value that goes into its compression. -/
structure Node where
  value : List UInt32
  block : List UInt32
  counter : Nat
  length : Nat
  marks : UInt32
  deriving Repr, DecidableEq

/-- The eight words that a node is compressed to. -/
def Node.compress (n : Node) (marks : UInt32) : List UInt32 :=
  let start : State :=
    { w := .ofList (n.value.take 4)
      x := .ofList (n.value.drop 4)
      y := .ofList (initial.take 4)
      z := ⟨UInt32.ofNat n.counter, UInt32.ofNat (n.counter / 4294967296), UInt32.ofNat n.length,
        n.marks ||| marks⟩ }
  let s := rounds 7 start n.block
  (s.w.zip (· ^^^ ·) s.y).toList ++ (s.x.zip (· ^^^ ·) s.z).toList

/-- The words of bytes, low byte first; the last word is filled up with zeros. -/
def words : Nat → Bytes → List UInt32
  | 0, _ => []
  | n + 1, bytes =>
      let byte (i : Nat) : UInt32 := (bytes[i]?.getD 0).toUInt32
      (byte 0 ||| byte 1 <<< 8 ||| byte 2 <<< 16 ||| byte 3 <<< 24) :: words n (bytes.drop 4)

/-- The last block of a chunk, after those before it have been compressed; `fuel` blocks at
most. -/
def chunkNode (counter : Nat) : Nat → List UInt32 → UInt32 → Bytes → Node
  | 0, value, marks, bytes => ⟨value, words 16 bytes, counter, bytes.length, marks⟩
  | fuel + 1, value, marks, bytes =>
      if bytes.length ≤ 64 then ⟨value, words 16 bytes, counter, bytes.length, marks ||| chunkEnd⟩
      else
        let first : Node := ⟨value, words 16 (bytes.take 64), counter, 64, marks⟩
        chunkNode counter fuel (first.compress 0) 0 (bytes.drop 64)

/-- The node of a content whose first chunk has a number; the tree has `fuel` levels at
most. -/
def treeNode : Nat → Nat → Bytes → Node
  | 0, counter, bytes => chunkNode counter 16 initial chunkStart bytes
  | fuel + 1, counter, bytes =>
      if bytes.length ≤ 1024 then chunkNode counter 16 initial chunkStart bytes
      else
        let chunks := 1 <<< ((bytes.length - 1) / 1024).log2
        let left := (treeNode fuel counter (bytes.take (1024 * chunks))).compress 0
        let right := (treeNode fuel (counter + chunks) (bytes.drop (1024 * chunks))).compress 0
        ⟨initial, left ++ right, 0, 64, parentMark⟩

/-- The bytes of a word, low byte first. -/
def wordBytes (n : UInt32) : Bytes :=
  [n.toUInt8, (n >>> 8).toUInt8, (n >>> 16).toUInt8, (n >>> 24).toUInt8]

/-- The digest of a content. -/
def digest (bytes : Bytes) : Bytes :=
  ((treeNode bytes.length 0 bytes).compress rootMark).flatMap wordBytes

end ProbeLang.Blake3
