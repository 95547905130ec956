import Mathlib.Data.List.Forall2
import Mathlib.Data.List.TakeWhile
import ProbeLang.Lines.Continuation
import ProbeLang.Proofs.Lines

/-!
# The text of a reader

What a reader hands out does not depend on how it is asked. `StreamText` says what the text of
an input is without the reader: the input is cut behind its line feeds, each line loses its
terminator, and then either its marker with the blanks behind it, or it gets a line feed.

The invariant is `ContinuationReader.remaining`: a transfer takes it apart at a position, and
asking whether the reader is ready leaves it as it is. So the bytes of the next transfer are
found in the text by counting the bytes transferred so far.

A line that is only a marker contributes nothing, but it is input. This is the one case in
which a reader is ready with nothing left to read.
-/

namespace ProbeLang

/-! ## Physical lines -/

/-- The input is cut behind every line feed. -/
inductive PhysicalLines : Bytes → List Bytes → Prop
  | nil : PhysicalLines [] []
  | last {content : Bytes} :
      content ≠ [] → lineFeed ∉ content → PhysicalLines content [content]
  | line {content rest : Bytes} {lines : List Bytes} :
      lineFeed ∉ content → PhysicalLines rest lines →
      PhysicalLines (content ++ lineFeed :: rest) ((content ++ [lineFeed]) :: lines)

theorem splitLinesFrom_eq_append (line : Bytes) (done : List Bytes) (bytes : Bytes) :
    splitLinesFrom line done bytes = done.reverse ++ splitLinesFrom line [] bytes := by
  induction bytes generalizing line done with
  | nil => cases line <;> simp [splitLinesFrom]
  | cons b bytes ih =>
      by_cases hb : b = lineFeed
      · simp only [splitLinesFrom, hb, if_true]
        rw [ih [] (_ :: done), ih [] [_]]
        simp
      · simp only [splitLinesFrom, hb, if_false]
        exact ih (b :: line) done

theorem splitLines_line {content : Bytes} (h : lineFeed ∉ content) (rest : Bytes) :
    splitLines (content ++ lineFeed :: rest) = (content ++ [lineFeed]) :: splitLines rest := by
  rw [splitLines, splitLinesFrom_line h, splitLinesFrom_eq_append]
  rfl

theorem splitLines_last {content : Bytes} (hne : content ≠ []) (h : lineFeed ∉ content) :
    splitLines content = [content] :=
  splitLinesFrom_last h hne [] []

theorem cutLine_line {content : Bytes} (h : lineFeed ∉ content) (rest : Bytes) :
    cutLine (content ++ lineFeed :: rest) = (content ++ [lineFeed], rest) := by
  have hcontent : ∀ b ∈ content, (b != lineFeed) = true := fun b hb =>
    bne_iff_ne.mpr fun e => h (e ▸ hb)
  simp [cutLine, List.dropWhile_append_of_pos hcontent, List.takeWhile_append_of_pos hcontent]

theorem cutLine_last {content : Bytes} (h : lineFeed ∉ content) :
    cutLine content = (content, []) := by
  have hcontent : ∀ b ∈ content, (b != lineFeed) = true := fun b hb =>
    bne_iff_ne.mpr fun e => h (e ▸ hb)
  simp only [cutLine, List.dropWhile_eq_nil_iff.mpr hcontent,
    List.takeWhile_eq_self_iff.mpr hcontent]

theorem exists_cut (bytes : Bytes) :
    lineFeed ∉ bytes ∨
      ∃ content rest, lineFeed ∉ content ∧ bytes = content ++ lineFeed :: rest := by
  by_cases h : lineFeed ∈ bytes
  · obtain ⟨content, rest, hbytes, hcontent⟩ := List.eq_append_cons_of_mem h
    exact .inr ⟨content, rest, hcontent, hbytes⟩
  · exact .inl h

/-- The lines of the bytes are found one by one. -/
theorem splitLines_cons (b : UInt8) (bytes : Bytes) :
    splitLines (b :: bytes) =
      (cutLine (b :: bytes)).1 :: splitLines (cutLine (b :: bytes)).2 := by
  rcases exists_cut (b :: bytes) with h | ⟨content, rest, h, hbytes⟩
  · rw [splitLines_last (List.cons_ne_nil b bytes) h, cutLine_last h]
    rfl
  · rw [hbytes, splitLines_line h, cutLine_line h]

theorem physicalLines_splitLines (input : Bytes) : PhysicalLines input (splitLines input) := by
  rcases exists_cut input with h | ⟨content, rest, h, hinput⟩
  · by_cases hnil : input = []
    · rw [hnil]
      exact .nil
    · rw [splitLines_last hnil h]
      exact .last hnil h
  · have hlength : rest.length < input.length := by
      rw [hinput, List.length_append, List.length_cons]
      omega
    rw [hinput, splitLines_line h]
    exact .line h (physicalLines_splitLines rest)
termination_by input.length

theorem PhysicalLines.eq_splitLines {input : Bytes} {lines : List Bytes}
    (h : PhysicalLines input lines) : lines = splitLines input := by
  induction h with
  | nil => rfl
  | last hne hcontent => exact (splitLines_last hne hcontent).symm
  | line hcontent _ ih => rw [splitLines_line hcontent, ih]

/-- Input that ends where a line ends has its lines apart from what follows. -/
theorem PhysicalLines.append {x y : Bytes} {lines more : List Bytes} (hx : PhysicalLines x lines)
    (hy : PhysicalLines y more) (hend : x = [] ∨ x.getLast? = some lineFeed) :
    PhysicalLines (x ++ y) (lines ++ more) := by
  induction hx with
  | nil => exact hy
  | last hne hcontent =>
      rcases hend with hnil | hlast
      · exact absurd hnil hne
      · exact absurd (List.mem_of_getLast? hlast) hcontent
  | @line content rest lines hcontent _ ih =>
      have hrest : rest = [] ∨ rest.getLast? = some lineFeed := by
        rcases rest.eq_nil_or_concat' with rfl | ⟨before, last, rfl⟩
        · exact .inl rfl
        · refine .inr ?_
          simpa [List.getLast?_append, List.getLast?_cons] using hend
      rw [List.append_assoc, List.cons_append, List.cons_append]
      exact .line hcontent (ih hrest)

/-! ## The text of a line -/

/-- The line without its line feed and one carriage return in front of it. -/
inductive LineContent : Bytes → Bytes → Prop
  | returned (content : Bytes) :
      LineContent (content ++ [carriageReturn, lineFeed]) content
  | ended {content : Bytes} : content.getLast? ≠ some carriageReturn →
      LineContent (content ++ [lineFeed]) content
  | unended {content : Bytes} : content.getLast? ≠ some lineFeed →
      LineContent content content

/-- The last byte of the content that is no blank and no tab is a backslash, and `before` is
what stands in front of it. -/
def Marked (before content : Bytes) : Prop :=
  ∃ blanks : Bytes, (∀ b ∈ blanks, b = 32 ∨ b = 9) ∧ content = before ++ backslash :: blanks

/-- The text of a physical line. -/
inductive LineText : Bytes → Bytes → Prop
  | continued {line content before : Bytes} : LineContent line content → Marked before content →
      LineText line before
  | closed {line content : Bytes} : LineContent line content →
      (∀ before, ¬ Marked before content) → LineText line (content ++ [lineFeed])

theorem LineContent.dropTerminator_eq {line content : Bytes} (h : LineContent line content) :
    dropTerminator line.reverse = content.reverse := by
  cases h with
  | returned => simp [dropTerminator]
  | ended hlast =>
      rw [List.reverse_append, ← List.head?_reverse] at *
      cases hreverse : content.reverse with
      | nil => simp [dropTerminator]
      | cons b rest =>
          have hb : b ≠ carriageReturn := by simpa [hreverse] using hlast
          simp [dropTerminator, hb]
  | unended hlast =>
      rw [← List.head?_reverse] at hlast
      cases hreverse : line.reverse with
      | nil => rfl
      | cons b rest =>
          have hb : b ≠ lineFeed := by simpa [hreverse] using hlast
          cases rest <;> simp [dropTerminator, hb]

theorem exists_lineContent (line : Bytes) : ∃ content, LineContent line content := by
  rcases line.eq_nil_or_concat' with rfl | ⟨front, b, rfl⟩
  · exact ⟨[], .unended nofun⟩
  · by_cases hb : b = lineFeed
    · subst hb
      rcases front.eq_nil_or_concat' with rfl | ⟨content, c, rfl⟩
      · exact ⟨[], LineContent.ended (List.getLast?_nil ▸ nofun)⟩
      · by_cases hc : c = carriageReturn
        · subst hc
          exact ⟨content, by simpa using LineContent.returned content⟩
        · have hlast : (content ++ [c]).getLast? ≠ some carriageReturn := by simpa using hc
          exact ⟨content ++ [c], LineContent.ended hlast⟩
    · have hlast : (front ++ [b]).getLast? ≠ some lineFeed := by simpa using hb
      exact ⟨front ++ [b], LineContent.unended hlast⟩

theorem marked_iff {before content : Bytes} :
    Marked before content ↔
      content.reverse.dropWhile (fun b => b = 32 || b = 9) = backslash :: before.reverse := by
  constructor
  · rintro ⟨blanks, hblanks, rfl⟩
    have hpass : ∀ b ∈ blanks.reverse, (decide (b = 32) || decide (b = 9)) = true := fun b hb => by
      simpa using hblanks b (List.mem_reverse.mp hb)
    rw [List.reverse_append, List.reverse_cons, List.append_assoc,
      List.dropWhile_append_of_pos hpass]
    rfl
  · intro h
    have hsplit := List.takeWhile_append_dropWhile (p := fun b : UInt8 => b = 32 || b = 9)
      (l := content.reverse)
    have hblanks := List.all_takeWhile (p := fun b : UInt8 => b = 32 || b = 9)
      (l := content.reverse)
    rw [h] at hsplit
    generalize content.reverse.takeWhile _ = blanks at hsplit hblanks
    refine ⟨blanks.reverse, fun b hb => ?_, ?_⟩
    · simpa using List.all_eq_true.mp hblanks b (List.mem_reverse.mp hb)
    · rw [← List.reverse_reverse content, ← hsplit]
      simp

theorem contribution_marked {line content before : Bytes} (h : LineContent line content)
    (hmarked : Marked before content) : contribution line = before := by
  simp only [contribution, h.dropTerminator_eq, marked_iff.mp hmarked, if_true,
    List.reverse_reverse]

theorem contribution_closed {line content : Bytes} (h : LineContent line content)
    (hmarked : ∀ before, ¬ Marked before content) :
    contribution line = content ++ [lineFeed] := by
  unfold contribution
  simp only [h.dropTerminator_eq]
  split
  · next b rest hdrop =>
      have hb : b ≠ backslash := fun e =>
        hmarked rest.reverse (marked_iff.mpr (by rw [hdrop, e, List.reverse_reverse]))
      rw [if_neg hb, List.reverse_cons, List.reverse_reverse]
  · rw [List.reverse_cons, List.reverse_reverse]

theorem lineText_iff {line text : Bytes} : LineText line text ↔ contribution line = text := by
  constructor
  · rintro (⟨hcontent, hmarked⟩ | ⟨hcontent, hmarked⟩)
    · exact contribution_marked hcontent hmarked
    · exact contribution_closed hcontent hmarked
  · rintro rfl
    obtain ⟨content, hcontent⟩ := exists_lineContent line
    by_cases hmarked : ∃ before, Marked before content
    · obtain ⟨before, hmarked⟩ := hmarked
      rw [contribution_marked hcontent hmarked]
      exact .continued hcontent hmarked
    · rw [contribution_closed hcontent (not_exists.mp hmarked)]
      exact .closed hcontent (not_exists.mp hmarked)

/-! ## The text of an input -/

/-- The text of an input is the text of its lines. -/
def StreamText (input text : Bytes) : Prop :=
  ∃ lines texts, PhysicalLines input lines ∧ List.Forall₂ LineText lines texts ∧
    text = texts.flatten

theorem forall₂_lineText_iff {lines texts : List Bytes} :
    List.Forall₂ LineText lines texts ↔ lines.map contribution = texts := by
  rw [← List.forall₂_eq_eq_eq, List.forall₂_map_left_iff]
  simp only [← lineText_iff]

theorem streamText_iff {input text : Bytes} : StreamText input text ↔ text = joined input := by
  constructor
  · rintro ⟨lines, texts, hlines, htexts, rfl⟩
    rw [← forall₂_lineText_iff.mp htexts, hlines.eq_splitLines]
    exact List.flatMap_def.symm
  · rintro rfl
    exact ⟨splitLines input, _, physicalLines_splitLines input, forall₂_lineText_iff.mpr rfl,
      List.flatMap_def⟩

theorem StreamText.append {x y s t : Bytes} (hs : StreamText x s) (ht : StreamText y t)
    (hend : x = [] ∨ x.getLast? = some lineFeed) : StreamText (x ++ y) (s ++ t) := by
  obtain ⟨lines, texts, hlines, htexts, rfl⟩ := hs
  obtain ⟨lines', texts', hlines', htexts', rfl⟩ := ht
  exact ⟨lines ++ lines', texts ++ texts', hlines.append hlines' hend,
    List.rel_append htexts htexts', List.flatten_append.symm⟩

theorem joined_cons (b : UInt8) (bytes : Bytes) :
    joined (b :: bytes) =
      contribution (cutLine (b :: bytes)).1 ++ joined (cutLine (b :: bytes)).2 := by
  rw [joined, splitLines_cons, List.flatMap_cons]
  rfl

/-! ## Transfers -/

namespace ContinuationReader

theorem remaining_eq_of_used {r : ContinuationReader} (h : ¬ r.pos < r.current.length) :
    r.remaining = joined r.input := by
  rw [remaining, List.drop_eq_nil_of_le (Nat.not_lt.mp h), List.nil_append]

/-- The next line is part of what remains; without one nothing remains. -/
theorem remaining_nextLine {r : ContinuationReader} (h : ¬ r.pos < r.current.length) :
    r.nextLine.2.remaining = r.remaining ∧ (r.nextLine.1 = false → r.remaining = []) := by
  rw [remaining_eq_of_used h]
  unfold nextLine
  split
  · next hended =>
      have hinput := r.input_of_ended hended
      simp [remaining, hinput, joined, splitLines, splitLinesFrom]
  · split
    · next hinput => simp [remaining, hinput, joined, splitLines, splitLinesFrom]
    · next b bytes hinput =>
        rw [hinput, joined_cons]
        exact ⟨rfl, fun h => by cases h⟩

theorem remaining_handOut (r : ContinuationReader) (n : Nat) :
    r.remaining = (r.handOut n).1 ++ (r.handOut n).2.remaining := by
  have hrest : (r.handOut n).2.remaining = (r.current.drop r.pos).drop n ++ joined r.input := by
    simp only [handOut, remaining, ← List.drop_drop]
    congr 1
    exact List.drop_eq_drop_iff.mpr (by simp)
  rw [hrest, ← List.append_assoc]
  show _ = (r.current.drop r.pos).take n ++ _ ++ _
  rw [List.take_append_drop, remaining]

theorem length_handOut_le (r : ContinuationReader) (n : Nat) : (r.handOut n).1.length ≤ n :=
  List.length_take_le n _

/-- A transfer takes what remains apart. -/
theorem transfer_eq (r : ContinuationReader) (n : Nat) :
    (r.transfer n).1 = r.remaining.take n ∧ (r.transfer n).2.remaining = r.remaining.drop n := by
  fun_induction transfer r n with
  | case1 r => exact ⟨rfl, rfl⟩
  | case2 r n _ _ more r' htransfer ih =>
      rw [htransfer] at ih
      rw [remaining_handOut r n, List.take_append, List.drop_append,
        List.take_of_length_le (length_handOut_le r n),
        List.drop_eq_nil_of_le (length_handOut_le r n), ← ih.1, ← ih.2]
      exact ⟨rfl, rfl⟩
  | case3 r n _ hused r' hnext =>
      obtain ⟨hremaining, hnil⟩ := remaining_nextLine hused
      rw [hnext] at hremaining hnil
      rw [hremaining, hnil rfl, List.take_nil, List.drop_nil]
      exact ⟨rfl, rfl⟩
  | case4 r n _ hused r' hnext ih =>
      have hremaining := (remaining_nextLine hused).1
      rw [hnext] at hremaining
      rwa [← hremaining]

theorem read_eq (r : ContinuationReader) (n : Nat) : (r.read n).1 = r.remaining.take n :=
  (r.transfer_eq n).1

theorem skip_eq (r : ContinuationReader) (n : Nat) :
    (r.skip n).1 = min n r.remaining.length := by
  show (r.transfer n).1.length = _
  rw [(r.transfer_eq n).1, List.length_take]

end ContinuationReader

/-! ## Requests one after the other -/

/-- What a reader can be asked. -/
inductive ReaderRequest where
  | read (n : Nat)
  | skip (n : Nat)
  | ready

namespace ReaderRequest

/-- Whether bytes are asked for. -/
def transfers : ReaderRequest → Bool
  | read _ | skip _ => true
  | ready => false

end ReaderRequest

/-- What a reader replies. -/
inductive ReaderReply where
  | bytes (content : Bytes)
  | passed (n : Nat)
  | ready (flag : Bool)

namespace ReaderReply

/-- Whether it replies to a request for bytes. -/
def transfers : ReaderReply → Bool
  | bytes _ | passed _ => true
  | ready _ => false

/-- How many bytes have been read or passed over. -/
def count : ReaderReply → Nat
  | bytes content => content.length
  | passed n => n
  | ready _ => 0

end ReaderReply

/-- How many bytes have been transferred by a list of requests. -/
def transferred : List ReaderReply → Nat
  | [] => 0
  | reply :: replies => reply.count + transferred replies

@[simp] theorem transferred_cons (reply : ReaderReply) (replies : List ReaderReply) :
    transferred (reply :: replies) = reply.count + transferred replies := rfl

namespace ContinuationReader

/-- Do what is requested. -/
def answer (r : ContinuationReader) : ReaderRequest → ReaderReply × ContinuationReader
  | .read n => (.bytes (r.read n).1, (r.read n).2)
  | .skip n => (.passed (r.skip n).1, (r.skip n).2)
  | .ready => (.ready r.ready, r)

/-- Do what is requested, one request after the other. -/
def answers (r : ContinuationReader) :
    List ReaderRequest → List ReaderReply × ContinuationReader
  | [] => ([], r)
  | request :: requests =>
      let (reply, r) := r.answer request
      let (replies, r) := r.answers requests
      (reply :: replies, r)

theorem answers_cons (r : ContinuationReader) (request : ReaderRequest)
    (requests : List ReaderRequest) :
    r.answers (request :: requests) =
      ((r.answer request).1 :: ((r.answer request).2.answers requests).1,
        ((r.answer request).2.answers requests).2) := rfl

theorem answers_append (r : ContinuationReader) (requests more : List ReaderRequest) :
    r.answers (requests ++ more) =
      ((r.answers requests).1 ++ ((r.answers requests).2.answers more).1,
        ((r.answers requests).2.answers more).2) := by
  induction requests generalizing r with
  | nil => rfl
  | cons request requests ih => simp only [List.cons_append, answers_cons, ih]

theorem transfers_answer (r : ContinuationReader) (request : ReaderRequest) :
    (r.answer request).1.transfers = request.transfers := by
  cases request <;> rfl

/-- The reply counts the bytes that remain no longer. -/
theorem remaining_answer (r : ContinuationReader) (request : ReaderRequest) :
    (r.answer request).1.count ≤ r.remaining.length ∧
      (r.answer request).2.remaining = r.remaining.drop (r.answer request).1.count := by
  have htransfer (n : Nat) : (r.transfer n).1.length ≤ r.remaining.length ∧
      (r.transfer n).2.remaining = r.remaining.drop (r.transfer n).1.length := by
    rw [(r.transfer_eq n).1, (r.transfer_eq n).2, List.length_take]
    exact ⟨Nat.min_le_right _ _, List.drop_eq_drop_iff.mpr (by simp)⟩
  cases request with
  | read n => exact htransfer n
  | skip n => exact htransfer n
  | ready => exact ⟨Nat.zero_le _, rfl⟩

theorem remaining_answers (r : ContinuationReader) (requests : List ReaderRequest) :
    transferred (r.answers requests).1 ≤ r.remaining.length ∧
      (r.answers requests).2.remaining =
        r.remaining.drop (transferred (r.answers requests).1) := by
  induction requests generalizing r with
  | nil => exact ⟨Nat.zero_le _, rfl⟩
  | cons request requests ih =>
      obtain ⟨hcount, hremaining⟩ := r.remaining_answer request
      obtain ⟨hcounts, hremainings⟩ := ih (r.answer request).2
      rw [hremaining, List.length_drop] at hcounts
      rw [answers_cons, transferred_cons]
      refine ⟨by omega, ?_⟩
      rw [hremainings, hremaining, List.drop_drop]

/-- Asking whether the reader is ready changes no other reply. -/
theorem answers_filter (r : ContinuationReader) (requests : List ReaderRequest) :
    r.answers (requests.filter ReaderRequest.transfers) =
      ((r.answers requests).1.filter ReaderReply.transfers, (r.answers requests).2) := by
  induction requests generalizing r with
  | nil => rfl
  | cons request requests ih =>
      have hreply := r.transfers_answer request
      rw [answers_cons, List.filter_cons, List.filter_cons, hreply]
      cases htransfers : request.transfers with
      | true => simp only [if_true, answers_cons, ih]
      | false =>
          cases request with
          | read n => cases htransfers
          | skip n => cases htransfers
          | ready => exact ih r

/-- After any requests, what remains is the text behind the bytes that have been transferred. -/
theorem remaining_of_answers {input text : Bytes} {requests : List ReaderRequest}
    {replies : List ReaderReply} {r : ContinuationReader} (htext : StreamText input text)
    (hrun : (ofBytes input).answers requests = (replies, r)) :
    transferred replies ≤ text.length ∧ r.remaining = text.drop (transferred replies) := by
  have hstart : (ofBytes input).remaining = text := (streamText_iff.mp htext).symm
  have hremaining := (ofBytes input).remaining_answers requests
  rwa [hrun, hstart] at hremaining

/-- A reader hands out the text of its input, whatever the requests: each gets the bytes behind
those that have been transferred, and all it asks for as long as the text has them. Whether it is
asked if it is ready makes no difference. -/
theorem answers_streamText :
    (∀ input : Bytes, ∃! text, StreamText input text) ∧
    (∀ (input text : Bytes) (requests : List ReaderRequest) (replies : List ReaderReply)
      (r : ContinuationReader),
      StreamText input text → (ofBytes input).answers requests = (replies, r) →
      (transferred replies ≤ text.length ∧
        ∀ n, (r.read n).1 = (text.drop (transferred replies)).take n ∧
          (r.read n).1.length = min n (text.length - transferred replies) ∧
          (r.skip n).1 = min n (text.length - transferred replies) ∧
          ((r.read n).1.length < n → transferred replies + (r.read n).1.length = text.length) ∧
          ((r.skip n).1 < n → transferred replies + (r.skip n).1 = text.length)) ∧
      (ofBytes input).answers (requests.filter ReaderRequest.transfers) =
        (replies.filter ReaderReply.transfers, r) ∧
      ∀ more, (ofBytes input).answers (requests ++ more) =
        (replies ++ (r.answers more).1, (r.answers more).2)) ∧
    (∀ x y s t : Bytes, x = [] ∨ x.getLast? = some lineFeed →
      StreamText x s → StreamText y t → StreamText (x ++ y) (s ++ t)) := by
  refine ⟨?_, ?_, ?_⟩
  · intro input
    exact ⟨joined input, streamText_iff.mpr rfl, fun text h => streamText_iff.mp h⟩
  · intro input text requests replies r htext hrun
    obtain ⟨hle, hremaining⟩ := remaining_of_answers htext hrun
    have hfilter := (ofBytes input).answers_filter requests
    have happend := (ofBytes input).answers_append requests
    rw [hrun] at hfilter happend
    refine ⟨⟨hle, ?_⟩, hfilter, happend⟩
    intro n
    have hread : (r.read n).1 = (text.drop (transferred replies)).take n := by
      rw [read_eq, hremaining]
    have hlength : (r.read n).1.length = min n (text.length - transferred replies) := by
      rw [hread, List.length_take, List.length_drop]
    have hskip : (r.skip n).1 = min n (text.length - transferred replies) := by
      rw [skip_eq, hremaining, List.length_drop]
    exact ⟨hread, hlength, hskip, by omega, by omega⟩
  · intro x y s t hend hs ht
    exact hs.append ht hend

/-- A reader of two lines, the first of them continued, that has passed over one byte. -/
theorem answers_streamText_marker :
    StreamText [97, 92, 10, 98] [97, 98, 10] ∧
      (((ofBytes [97, 92, 10, 98]).answers [.skip 1, .ready]).2.read 5).1 = [98, 10] ∧
      StreamText ([97, 92, 10] ++ [98]) ([97] ++ [98, 10]) := by
  have htext : StreamText [97, 92, 10, 98] [97, 98, 10] := streamText_iff.mpr (by decide)
  have hskip : ((ofBytes [97, 92, 10, 98]).skip 1).1 = 1 := (skip_eq _ 1).trans (by decide)
  have hrun : (ofBytes [97, 92, 10, 98]).answers [.skip 1, .ready] =
      ([.passed 1, .ready ((ofBytes [97, 92, 10, 98]).skip 1).2.ready],
        ((ofBytes [97, 92, 10, 98]).answers [.skip 1, .ready]).2) := by
    simp only [answers, answer, hskip]
  refine ⟨htext, ((answers_streamText.2.1 _ _ _ _ _ htext hrun).1.2 5).1, ?_⟩
  exact answers_streamText.2.2 _ _ _ _ (.inr rfl) (streamText_iff.mpr (by decide))
    (streamText_iff.mpr (by decide))

/-! ## Readiness -/

theorem joined_eq_nil_iff {input : Bytes} :
    joined input = [] ↔ ∃ lines, PhysicalLines input lines ∧ ∀ line ∈ lines, LineText line [] := by
  simp only [joined, List.flatMap_eq_nil_iff, ← lineText_iff]
  constructor
  · exact fun h => ⟨splitLines input, physicalLines_splitLines input, h⟩
  · rintro ⟨lines, hlines, h⟩
    rwa [hlines.eq_splitLines] at h

theorem ready_eq_true_iff (r : ContinuationReader) :
    r.ready = true ↔ r.pos < r.current.length ∨ r.input ≠ [] := by
  unfold ready
  split
  · next h => simp [h]
  · next h =>
      split
      · next hended => simp [h, r.input_of_ended hended]
      · simp [h]

/-- A reader is ready if a read gives a byte, and otherwise only in front of lines that
contribute nothing. -/
theorem ready_iff (r : ContinuationReader) {n : Nat} (hn : 0 < n) :
    r.ready = true ↔
      (r.read n).1 ≠ [] ∨
        r.unread ≠ [] ∧
          ∃ lines, PhysicalLines r.unread lines ∧ ∀ line ∈ lines, LineText line [] := by
  have hread : (r.read n).1 ≠ [] ↔ r.pos < r.current.length ∨ joined r.input ≠ [] := by
    rw [read_eq, Ne, List.take_eq_nil_iff, not_or, remaining, List.append_eq_nil_iff,
      List.drop_eq_nil_iff]
    constructor
    · rintro ⟨-, h⟩
      rw [not_and_or, Nat.not_le] at h
      exact h
    · rintro h
      refine ⟨hn.ne', ?_⟩
      rwa [not_and_or, Nat.not_le]
  rw [ready_eq_true_iff, hread, unread, ← joined_eq_nil_iff]
  constructor
  · rintro (h | h)
    · exact .inl (.inl h)
    · by_cases hjoined : joined r.input = []
      · exact .inr ⟨h, hjoined⟩
      · exact .inl (.inr hjoined)
  · rintro ((h | h) | ⟨h, -⟩)
    · exact .inl h
    · exact .inr fun hnil => h (by rw [hnil]; rfl)
    · exact .inr h

end ContinuationReader

end ProbeLang
