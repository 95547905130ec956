import ProbeLang.Text.Digits

/-!
# Bytes and their text

Files and artifacts are lists of bytes. A text is written in UTF-8; reading it back accepts
exactly the shortest forms of the Unicode scalar values and otherwise tells where the first
ill-formed sequence begins and how many bytes of it could still have been well formed.
-/

namespace ProbeLang

/-- The content of a file or artifact. -/
abbrev Bytes := List UInt8

/-- The UTF-8 form of a text. -/
def Bytes.ofString (s : String) : Bytes :=
  s.toByteArray.data.toList

/-- The first place at which bytes are no UTF-8: the number of bytes that cannot go together,
or none when the bytes end in the middle of a character. -/
structure Utf8Fault where
  index : Nat
  length : Option Nat
  deriving Repr, DecidableEq

/-- The wording of the fault. -/
def Utf8Fault.message (f : Utf8Fault) : String :=
  match f.length with
  | some n => "invalid utf-8 sequence of " ++ toString n ++ " bytes from index " ++ toString f.index
  | none => "incomplete utf-8 byte sequence from index " ++ toString f.index

namespace Utf8

/-- Whether a byte may follow the first byte of a character. -/
def isContinuation (b : UInt8) : Bool :=
  0x80 ≤ b && b ≤ 0xBF

/-- Whether `b` may follow `lead` in a character of three bytes: no longer forms of shorter
characters, and no surrogates. -/
def isSecondOfThree (lead b : UInt8) : Bool :=
  isContinuation b && (lead ≠ 0xE0 || 0xA0 ≤ b) && (lead ≠ 0xED || b ≤ 0x9F)

/-- Whether `b` may follow `lead` in a character of four bytes: no longer forms of shorter
characters, and nothing past the last code point. -/
def isSecondOfFour (lead b : UInt8) : Bool :=
  isContinuation b && (lead ≠ 0xF0 || 0x90 ≤ b) && (lead ≠ 0xF4 || b ≤ 0x8F)

/-- The low six bits of a continuation byte. -/
def payload (b : UInt8) : Nat :=
  b.toNat % 64

/-- Decode the characters of the bytes from index `i` on; `done` holds those before, last
first. -/
def decodeFrom : Nat → List Char → Bytes → Except Utf8Fault (List Char)
  | _, done, [] => .ok done.reverse
  | i, done, a :: rest =>
      if a < 0x80 then decodeFrom (i + 1) (Char.ofNat a.toNat :: done) rest
      else if 0xC2 ≤ a && a ≤ 0xDF then
        match rest with
        | [] => .error ⟨i, none⟩
        | b :: rest =>
            if isContinuation b then
              decodeFrom (i + 2) (Char.ofNat (a.toNat % 32 * 64 + payload b) :: done) rest
            else .error ⟨i, some 1⟩
      else if 0xE0 ≤ a && a ≤ 0xEF then
        match rest with
        | [] => .error ⟨i, none⟩
        | [b] => .error ⟨i, if isSecondOfThree a b then none else some 1⟩
        | b :: c :: rest =>
            if !isSecondOfThree a b then .error ⟨i, some 1⟩
            else if !isContinuation c then .error ⟨i, some 2⟩
            else
              let n := (a.toNat % 16 * 64 + payload b) * 64 + payload c
              decodeFrom (i + 3) (Char.ofNat n :: done) rest
      else if 0xF0 ≤ a && a ≤ 0xF4 then
        match rest with
        | [] => .error ⟨i, none⟩
        | [b] => .error ⟨i, if isSecondOfFour a b then none else some 1⟩
        | [b, c] =>
            .error ⟨i, if !isSecondOfFour a b then some 1
              else if isContinuation c then none else some 2⟩
        | b :: c :: d :: rest =>
            if !isSecondOfFour a b then .error ⟨i, some 1⟩
            else if !isContinuation c then .error ⟨i, some 2⟩
            else if !isContinuation d then .error ⟨i, some 3⟩
            else
              let n := ((a.toNat % 8 * 64 + payload b) * 64 + payload c) * 64 + payload d
              decodeFrom (i + 4) (Char.ofNat n :: done) rest
      else .error ⟨i, some 1⟩

/-- The characters that the bytes encode. -/
def decode (bytes : Bytes) : Except Utf8Fault (List Char) :=
  decodeFrom 0 [] bytes

end Utf8

/-- The text that the bytes encode. -/
def Bytes.toString? (bytes : Bytes) : Except Utf8Fault String :=
  (Utf8.decode bytes).map String.ofList

/-- Bytes as pairs of lower-case hexadecimal digits. -/
def Bytes.hex (bytes : Bytes) : String :=
  let push (s : String) (n : Nat) : String := s.push (Text.digitChar n)
  bytes.foldl (fun s b => push (push s (b.toNat / 16)) (b.toNat % 16)) ""

end ProbeLang
