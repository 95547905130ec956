import ProbeLang.Files.Fault

/-!
# Continued lines

A physical line that ends in a backslash, blanks and tabs behind it not counted, is continued
by the next one: it is read without the backslash and without a terminator. Every other line
is read with exactly one line feed in place of its terminator, the last line too.

`joined` is the text that results. `ContinuationReader` hands the same text out in pieces:
it keeps the current line and the input it has not looked at yet, so that a read takes no more
of the input than it needs.
-/

namespace ProbeLang

/-- The bytes that end a line or count as blank at its end. -/
def lineFeed : UInt8 := 10

/-- The byte that may stand before a line feed as part of the terminator. -/
def carriageReturn : UInt8 := 13

/-- The byte that continues a line. -/
def backslash : UInt8 := 92

/-- Split bytes behind every line feed; `line` holds the bytes of the current line, last
first. -/
def splitLinesFrom : Bytes → List Bytes → Bytes → List Bytes
  | line, done, [] => (if line.isEmpty then done else line.reverse :: done).reverse
  | line, done, b :: rest =>
      if b = lineFeed then splitLinesFrom [] ((b :: line).reverse :: done) rest
      else splitLinesFrom (b :: line) done rest

/-- The lines of the bytes, each with its line feed; only the last may lack one. -/
def splitLines (bytes : Bytes) : List Bytes :=
  splitLinesFrom [] [] bytes

/-- A reversed line without its terminator. -/
def dropTerminator : Bytes → Bytes
  | a :: b :: rest =>
      if a = lineFeed then (if b = carriageReturn then rest else b :: rest) else a :: b :: rest
  | [a] => if a = lineFeed then [] else [a]
  | [] => []

/-- What a physical line contributes: the part before its marker if it is continued, else its
content and a line feed. -/
def contribution (line : Bytes) : Bytes :=
  let content := dropTerminator line.reverse
  match content.dropWhile fun b => b = 32 || b = 9 with
  | b :: rest => if b = backslash then rest.reverse else (lineFeed :: content).reverse
  | [] => (lineFeed :: content).reverse

/-- The text with continued lines joined. -/
def joined (input : Bytes) : Bytes :=
  (splitLines input).flatMap contribution

/-- The first line of the bytes with its line feed, if it has one, and what is behind it. -/
def cutLine (bytes : Bytes) : Bytes × Bytes :=
  let content := bytes.takeWhile (· != lineFeed)
  match bytes.dropWhile (· != lineFeed) with
  | [] => (content, [])
  | b :: rest => (content ++ [b], rest)

theorem length_cutLine (b : UInt8) (bytes : Bytes) :
    (cutLine (b :: bytes)).2.length ≤ bytes.length := by
  have hlength := congrArg List.length
    (List.takeWhile_append_dropWhile (p := (· != lineFeed)) (l := b :: bytes))
  rw [List.length_append, List.length_cons] at hlength
  unfold cutLine
  dsimp only
  split
  · exact Nat.zero_le _
  · next rest hdrop =>
      rw [hdrop, List.length_cons] at hlength
      show rest.length ≤ bytes.length
      omega

/-- A reader of the joined text. It takes one physical line after the other from its input, and
hands out what the line contributes from a position on. -/
structure ContinuationReader where
  /-- What has not been taken from the input. -/
  input : Bytes
  /-- What the line that has been taken last contributes. -/
  current : Bytes
  /-- How much of that has been handed out. -/
  pos : Nat
  /-- Whether the end of the input has been met. -/
  ended : Bool
  pos_le : pos ≤ current.length
  input_of_ended : ended = true → input = []

namespace ContinuationReader

/-- A reader at the start of an input. -/
def ofBytes (input : Bytes) : ContinuationReader where
  input
  current := []
  pos := 0
  ended := false
  pos_le := Nat.le_refl 0
  input_of_ended := nofun

/-- Take the next line from the input. The flag tells whether there is one. -/
def nextLine (r : ContinuationReader) : Bool × ContinuationReader :=
  if r.ended then (false, { r with current := [], pos := 0, pos_le := Nat.le_refl 0 })
  else
    match r.input with
    | [] =>
        (false, { input := [], current := [], pos := 0, ended := true,
                  pos_le := Nat.le_refl 0, input_of_ended := fun _ => rfl })
    | b :: bytes =>
        let (line, rest) := cutLine (b :: bytes)
        (true, { input := rest, current := contribution line, pos := 0, ended := false,
                 pos_le := Nat.zero_le _, input_of_ended := nofun })

theorem length_nextLine {r r' : ContinuationReader} (h : r.nextLine = (true, r')) :
    r'.input.length < r.input.length := by
  unfold nextLine at h
  split at h
  · cases h
  · split at h
    · cases h
    · next b bytes hinput =>
        cases h
        rw [hinput]
        exact Nat.lt_succ_of_le (length_cutLine b bytes)

/-- Hand out up to `n` bytes of the current line. -/
def handOut (r : ContinuationReader) (n : Nat) : Bytes × ContinuationReader :=
  let piece := (r.current.drop r.pos).take n
  have hpos : r.pos + piece.length ≤ r.current.length := by
    have hle := r.pos_le
    simp only [piece, List.length_take, List.length_drop]
    omega
  (piece, { r with pos := r.pos + piece.length, pos_le := hpos })

theorem length_handOut {r : ContinuationReader} {n : Nat} (hn : n ≠ 0)
    (hpos : r.pos < r.current.length) : n - (r.handOut n).1.length < n := by
  simp only [handOut, List.length_take, List.length_drop]
  omega

/-- Hand out up to `n` bytes. A line is taken only when the one before it has been handed out
and more bytes are wanted. -/
def transfer (r : ContinuationReader) (n : Nat) : Bytes × ContinuationReader :=
  if _ : n = 0 then ([], r)
  else if _ : r.pos < r.current.length then
    let (more, r') := (r.handOut n).2.transfer (n - (r.handOut n).1.length)
    ((r.handOut n).1 ++ more, r')
  else
    match _ : r.nextLine with
    | (false, r') => ([], r')
    | (true, r') => r'.transfer n
termination_by (r.input.length, n)
decreasing_by
  · exact .right _ (length_handOut ‹_› ‹_›)
  · exact .left _ _ (length_nextLine ‹_›)

/-- Read up to `n` bytes; fewer only at the end of the text. -/
def read (r : ContinuationReader) (n : Nat) : Bytes × ContinuationReader :=
  r.transfer n

/-- Pass over up to `n` bytes and count them. -/
def skip (r : ContinuationReader) (n : Nat) : Nat × ContinuationReader :=
  let (passed, r) := r.transfer n
  (passed.length, r)

/-- The part of the text that has not been handed out. -/
def remaining (r : ContinuationReader) : Bytes :=
  r.current.drop r.pos ++ joined r.input

/-- The rest of the text. -/
def readAll (r : ContinuationReader) : Bytes × ContinuationReader :=
  (r.remaining, { input := [], current := [], pos := 0, ended := true,
                  pos_le := Nat.le_refl 0, input_of_ended := fun _ => rfl })

/-- Whether there is something left of the current line or of the input. -/
def ready (r : ContinuationReader) : Bool :=
  if r.pos < r.current.length then true
  else if r.ended then false
  else !r.input.isEmpty

/-- The stream goes only forward. -/
def canRewind : Bool := false

/-- The answer to every request to go back. -/
def rewindFault : IoFault := .cannotRewind

/-- The part of the input that has not been taken. -/
def unread (r : ContinuationReader) : Bytes :=
  r.input

end ContinuationReader

end ProbeLang
