import ProbeLang.Preprocess
import ProbeLang.Proofs.Artifact.Text

/-!
# The lines of a text

Lines are read from bytes, while directives and macros are about characters. In UTF-8 a line
feed, a carriage return, a blank, a tab and a backslash are one byte each, and none of these
bytes is part of another character. So the lines of the bytes are the lines of the text, and a
text without continued lines is joined by giving each of its lines a plain line feed.
-/

namespace ProbeLang

/-! ## Lines of characters -/

namespace Text

/-- The lines of a text, each with its line feed; only the last may lack one. -/
def lines : List Char → List (List Char)
  | [] => []
  | c :: cs =>
      if c = '\n' then [c] :: lines cs
      else
        match lines cs with
        | [] => [[c]]
        | line :: rest => (c :: line) :: rest

theorem lines_line {content : List Char} (h : '\n' ∉ content) (cs : List Char) :
    lines (content ++ '\n' :: cs) = (content ++ ['\n']) :: lines cs := by
  induction content with
  | nil => simp [lines]
  | cons c content ih =>
      have hc : c ≠ '\n' := fun e => h (e ▸ List.mem_cons_self)
      have hcontent : '\n' ∉ content := fun m => h (List.mem_cons_of_mem _ m)
      simp [lines, hc, ih hcontent]

theorem lines_last {content : List Char} (h : '\n' ∉ content) (hne : content ≠ []) :
    lines content = [content] := by
  induction content with
  | nil => exact absurd rfl hne
  | cons c content ih =>
      have hc : c ≠ '\n' := fun e => h (e ▸ List.mem_cons_self)
      have hcontent : '\n' ∉ content := fun m => h (List.mem_cons_of_mem _ m)
      cases content with
      | nil => simp [lines, hc]
      | cons d content => rw [lines, if_neg hc, ih hcontent (List.cons_ne_nil _ _)]

theorem exists_line_or_last (cs : List Char) :
    '\n' ∉ cs ∨ ∃ content rest, '\n' ∉ content ∧ cs = content ++ '\n' :: rest := by
  induction cs with
  | nil => exact .inl List.not_mem_nil
  | cons c cs ih =>
      by_cases hc : c = '\n'
      · exact .inr ⟨[], cs, List.not_mem_nil, by rw [hc, List.nil_append]⟩
      · rcases ih with hcs | ⟨content, rest, hcontent, rfl⟩
        · exact .inl fun hmem => (List.mem_cons.mp hmem).elim (fun h => hc h.symm) hcs
        · refine .inr ⟨c :: content, rest, fun hmem => ?_, rfl⟩
          exact (List.mem_cons.mp hmem).elim (fun h => hc h.symm) hcontent

/-- A text is empty, or its only line lacks a line feed, or a line stands in front of a text. -/
@[elab_as_elim] theorem lines_induction {motive : List Char → Prop} (nil : motive [])
    (last : ∀ content, content ≠ [] → '\n' ∉ content → motive content)
    (line : ∀ content cs, '\n' ∉ content → motive cs → motive (content ++ '\n' :: cs))
    (cs : List Char) : motive cs := by
  rcases exists_line_or_last cs with hcs | ⟨content, rest, hcontent, hcs⟩
  · by_cases hnil : cs = []
    · exact hnil ▸ nil
    · exact last cs hnil hcs
  · have hlength : rest.length < cs.length := by
      rw [hcs, List.length_append, List.length_cons]
      omega
    exact hcs ▸ line content rest hcontent (lines_induction nil last line rest)
termination_by cs.length

end Text

/-- A line that ends in a backslash, with blanks and tabs behind it not counted. -/
def Continued (line : List Char) : Prop :=
  ∃ before blanks ending, line = before ++ '\\' :: (blanks ++ ending) ∧
    (∀ c ∈ blanks, c = ' ' ∨ c = '\t') ∧ ending ∈ [[], ['\n'], ['\r', '\n']]

/-- What stands in front of the end of a line, last character first. -/
def beforeEnd (line : List Char) : List Char :=
  match line.reverse with
  | '\n' :: '\r' :: rest => rest
  | '\n' :: rest => rest
  | rest => rest

theorem reverse_eq_beforeEnd (line : List Char) :
    ∃ ending ∈ [[], ['\n'], ['\r', '\n']], line.reverse = ending.reverse ++ beforeEnd line := by
  unfold beforeEnd
  split
  · next hline => exact ⟨['\r', '\n'], by simp, hline⟩
  · next hline => exact ⟨['\n'], by simp, hline⟩
  · exact ⟨[], by simp, rfl⟩

theorem beforeEnd_eq {line ending rest : List Char} {c : Char}
    (hending : ending ∈ [[], ['\n'], ['\r', '\n']])
    (hline : line.reverse = ending.reverse ++ c :: rest) (hc : c ≠ '\n') (hc' : c ≠ '\r') :
    beforeEnd line = c :: rest := by
  simp only [List.mem_cons, List.not_mem_nil, or_false] at hending
  rcases hending with rfl | rfl | rfl <;> simp [beforeEnd, hline, hc, hc']

theorem continued_iff {line : List Char} :
    Continued line ↔
      ((beforeEnd line).dropWhile fun c => c = ' ' || c = '\t').head? = some '\\' := by
  constructor
  · rintro ⟨before, blanks, ending, rfl, hblanks, hending⟩
    have hmarked : beforeEnd (before ++ '\\' :: (blanks ++ ending)) =
        blanks.reverse ++ '\\' :: before.reverse := by
      have hreverse : (before ++ '\\' :: (blanks ++ ending)).reverse =
          ending.reverse ++ (blanks.reverse ++ '\\' :: before.reverse) := by simp
      cases hlast : blanks.reverse with
      | nil =>
          rw [hlast] at hreverse
          exact beforeEnd_eq hending hreverse (by decide) (by decide)
      | cons c more =>
          rw [hlast] at hreverse
          have hc := hblanks c (List.mem_reverse.mp (hlast ▸ List.mem_cons_self))
          refine beforeEnd_eq hending hreverse ?_ ?_ <;> rcases hc with rfl | rfl <;> decide
    have hpass : ∀ c ∈ blanks.reverse, (c = ' ' || c = '\t') = true := fun c hc => by
      simpa using hblanks c (List.mem_reverse.mp hc)
    rw [hmarked, List.dropWhile_append_of_pos hpass]
    rfl
  · intro h
    obtain ⟨ending, hending, hreverse⟩ := reverse_eq_beforeEnd line
    obtain ⟨before, hdrop⟩ := List.head?_eq_some_iff.mp h
    have hsplit := List.takeWhile_append_dropWhile (p := fun c : Char => c = ' ' || c = '\t')
      (l := beforeEnd line)
    have hblanks := List.all_takeWhile (p := fun c : Char => c = ' ' || c = '\t')
      (l := beforeEnd line)
    rw [hdrop] at hsplit
    generalize (beforeEnd line).takeWhile _ = blanks at hsplit hblanks
    refine ⟨before.reverse, blanks.reverse, ending, ?_, fun c hc => ?_, hending⟩
    · rw [← List.reverse_reverse line, hreverse, ← hsplit]
      simp
    · simpa using List.all_eq_true.mp hblanks c (List.mem_reverse.mp hc)

instance : DecidablePred Continued :=
  fun _ => decidable_of_iff _ continued_iff.symm

/-! ## Characters of one byte -/

namespace Utf8

/-- The UTF-8 form of characters. -/
def encode (cs : List Char) : Bytes :=
  cs.flatMap String.utf8EncodeChar

theorem encode_cons (c : Char) (cs : List Char) :
    encode (c :: cs) = String.utf8EncodeChar c ++ encode cs := rfl

theorem encode_append (cs ds : List Char) : encode (cs ++ ds) = encode cs ++ encode ds :=
  List.flatMap_append

theorem decode_encode (cs : List Char) : decode (encode cs) = .ok cs :=
  decodeFrom_flatMap cs 0 []

theorem encode_of_decode {bytes : Bytes} {cs : List Char} (h : decode bytes = .ok cs) :
    encode cs = bytes :=
  flatMap_of_decodeFrom h

/-- A byte below 128 is a character by itself. -/
theorem utf8EncodeChar_of_mem {c : Char} {b : UInt8} (h : b ∈ String.utf8EncodeChar c)
    (hb : b.toNat < 128) : String.utf8EncodeChar c = [b] ∧ c = Char.ofNat b.toNat := by
  have hchar : ∀ n, n = c.val.toNat → Char.ofNat n = c := fun n hn => hn ▸ Char.ofNat_toNat c
  have hhigh : ∀ n, 128 ≤ n % 256 → b ≠ UInt8.ofNat n := by
    rintro n hn rfl
    rw [UInt8.toNat_ofNat'] at hb
    omega
  unfold String.utf8EncodeChar at h ⊢
  simp only at h ⊢
  generalize c.val.toNat = v at h hchar
  split at h
  · next hv =>
      obtain rfl := List.mem_singleton.mp h
      refine ⟨by simp [hv], (hchar _ ?_).symm⟩
      rw [UInt8.toNat_ofNat']
      omega
  split at h
  · simp only [List.mem_cons, List.not_mem_nil, or_false] at h
    rcases h with h | h <;> exact absurd h (hhigh _ (by omega))
  split at h
  · simp only [List.mem_cons, List.not_mem_nil, or_false] at h
    rcases h with h | h | h <;> exact absurd h (hhigh _ (by omega))
  · simp only [List.mem_cons, List.not_mem_nil, or_false] at h
    rcases h with h | h | h | h <;> exact absurd h (hhigh _ (by omega))

/-- Bytes can be cut at a byte below 128, and the text with them. -/
theorem encode_eq_append_cons {cs : List Char} {xs ys : Bytes} {b : UInt8}
    (h : encode cs = xs ++ b :: ys) (hb : b.toNat < 128) :
    ∃ before after, cs = before ++ Char.ofNat b.toNat :: after ∧ encode before = xs ∧
      encode after = ys := by
  induction cs generalizing xs with
  | nil => cases xs <;> cases h
  | cons c cs ih =>
      rw [encode_cons] at h
      rcases List.append_eq_append_iff.mp h with ⟨zs, rfl, hrest⟩ | ⟨zs, hchar, hrest⟩
      · obtain ⟨before, after, rfl, rfl, rfl⟩ := ih hrest
        exact ⟨c :: before, after, rfl, rfl, rfl⟩
      · cases zs with
        | nil =>
            obtain ⟨before, after, rfl, hbefore, rfl⟩ := @ih [] hrest.symm
            refine ⟨c :: before, after, rfl, ?_, rfl⟩
            rw [encode_cons, hbefore, hchar, List.append_nil, List.append_nil]
        | cons z zs =>
            rw [List.cons_append] at hrest
            obtain ⟨rfl, hys⟩ := List.cons.inj hrest
            have hmem : b ∈ String.utf8EncodeChar c :=
              hchar ▸ List.mem_append_right _ List.mem_cons_self
            obtain ⟨hone, hc⟩ := utf8EncodeChar_of_mem hmem hb
            rw [hone] at hchar
            cases xs with
            | nil =>
                obtain ⟨-, rfl⟩ := List.cons.inj hchar
                exact ⟨[], cs, by rw [hc, List.nil_append], rfl, hys.symm⟩
            | cons x xs =>
                obtain ⟨-, hnil⟩ := List.cons.inj hchar
                simp at hnil

/-- The text of bytes below 128. -/
def ascii (bytes : Bytes) : List Char :=
  bytes.map fun b => Char.ofNat b.toNat

theorem eq_ascii {cs : List Char} {ys : Bytes} (h : encode cs = ys)
    (hys : ∀ b ∈ ys, b.toNat < 128) : cs = ascii ys := by
  induction ys generalizing cs with
  | nil =>
      cases cs with
      | nil => rfl
      | cons c cs =>
          have hne := String.utf8EncodeChar_ne_nil (c := c)
          exact absurd (List.append_eq_nil_iff.mp h).1 hne
  | cons b ys ih =>
      obtain ⟨hb, hys⟩ := List.forall_mem_cons.mp hys
      obtain ⟨before, after, rfl, hbefore, hafter⟩ := @encode_eq_append_cons _ [] _ _ h hb
      cases before with
      | nil => rw [List.nil_append, ih hafter hys, ascii, ascii, List.map_cons]
      | cons c before =>
          have hne := String.utf8EncodeChar_ne_nil (c := c)
          exact absurd (List.append_eq_nil_iff.mp hbefore).1 hne

/-- Bytes can be cut in front of bytes below 128, and the text with them. -/
theorem encode_eq_append {cs : List Char} {xs ys : Bytes} (h : encode cs = xs ++ ys)
    (hys : ∀ b ∈ ys, b.toNat < 128) : ∃ before, cs = before ++ ascii ys ∧ encode before = xs := by
  cases ys with
  | nil => exact ⟨cs, (List.append_nil cs).symm, by rw [h, List.append_nil]⟩
  | cons b ys =>
      obtain ⟨hb, hys⟩ := List.forall_mem_cons.mp hys
      obtain ⟨before, after, rfl, rfl, hafter⟩ := encode_eq_append_cons h hb
      exact ⟨before, by rw [eq_ascii hafter hys, ascii, ascii, List.map_cons], rfl⟩

theorem lineFeed_not_mem {cs : List Char} (h : '\n' ∉ cs) : lineFeed ∉ encode cs := by
  intro hmem
  obtain ⟨xs, ys, hsplit⟩ := List.append_of_mem hmem
  obtain ⟨before, after, rfl, -, -⟩ := encode_eq_append_cons hsplit (by decide)
  exact h (List.mem_append_right _ List.mem_cons_self)

theorem newline_not_mem {cs : List Char} (h : lineFeed ∉ encode cs) : '\n' ∉ cs := by
  intro hmem
  obtain ⟨before, after, rfl⟩ := List.append_of_mem hmem
  refine h ?_
  rw [encode_append, encode_cons]
  exact List.mem_append_right _ (List.mem_append_left _ (by decide))

end Utf8

/-! ## Lines of bytes -/

theorem splitLinesFrom_line {bytes : Bytes} (h : lineFeed ∉ bytes) (line : Bytes)
    (done : List Bytes) (rest : Bytes) :
    splitLinesFrom line done (bytes ++ lineFeed :: rest) =
      splitLinesFrom [] ((line.reverse ++ bytes ++ [lineFeed]) :: done) rest := by
  induction bytes generalizing line with
  | nil => simp [splitLinesFrom]
  | cons b bytes ih =>
      have hb : b ≠ lineFeed := fun e => h (e ▸ List.mem_cons_self)
      have hbytes : lineFeed ∉ bytes := fun m => h (List.mem_cons_of_mem _ m)
      simp [splitLinesFrom, hb, ih hbytes]

theorem splitLinesFrom_last {bytes : Bytes} (h : lineFeed ∉ bytes) (hne : bytes ≠ [])
    (line : Bytes) (done : List Bytes) :
    splitLinesFrom line done bytes = done.reverse ++ [line.reverse ++ bytes] := by
  induction bytes generalizing line with
  | nil => exact absurd rfl hne
  | cons b bytes ih =>
      have hb : b ≠ lineFeed := fun e => h (e ▸ List.mem_cons_self)
      have hbytes : lineFeed ∉ bytes := fun m => h (List.mem_cons_of_mem _ m)
      by_cases hnil : bytes = []
      · simp [splitLinesFrom, hb, hnil]
      · simp [splitLinesFrom, hb, ih hbytes hnil]

theorem splitLinesFrom_done (done : List Bytes) (cs : List Char) :
    splitLinesFrom [] done (Utf8.encode cs) =
      done.reverse ++ (Text.lines cs).map Utf8.encode := by
  induction cs using Text.lines_induction generalizing done with
  | nil => simp [splitLinesFrom, Text.lines, Utf8.encode]
  | last content hne hcontent =>
      have hbytes : Utf8.encode content ≠ [] := by
        intro hnil
        exact hne (Utf8.eq_ascii hnil (by simp))
      rw [splitLinesFrom_last (Utf8.lineFeed_not_mem hcontent) hbytes,
        Text.lines_last hcontent hne]
      rfl
  | line content cs hcontent ih =>
      have hline : Utf8.encode (content ++ '\n' :: cs) =
          Utf8.encode content ++ lineFeed :: Utf8.encode cs := Utf8.encode_append _ _
      rw [hline, splitLinesFrom_line (Utf8.lineFeed_not_mem hcontent), ih,
        Text.lines_line hcontent]
      simp [Utf8.encode]
      rfl

/-- The lines of the bytes are the lines of the text. -/
theorem splitLines_encode (cs : List Char) :
    splitLines (Utf8.encode cs) = (Text.lines cs).map Utf8.encode :=
  splitLinesFrom_done [] cs

/-! ## Lines that are not continued -/

/-- The bytes that end a line. -/
def LineEnding (bytes : Bytes) : Prop :=
  bytes = [] ∨ bytes = [lineFeed] ∨ bytes = [carriageReturn, lineFeed]

theorem LineEnding.ascii {ending : Bytes} (h : LineEnding ending) :
    (∀ b ∈ ending, b.toNat < 128) ∧
      Utf8.ascii ending ∈ [[], ['\n'], ['\r', '\n']] := by
  rcases h with rfl | rfl | rfl
  · exact ⟨nofun, List.mem_cons_self⟩
  · exact ⟨by simp [lineFeed], by simp [Utf8.ascii, lineFeed]⟩
  · exact ⟨by simp [lineFeed, carriageReturn], by simp [Utf8.ascii, lineFeed, carriageReturn]⟩

theorem dropTerminator_eq (bytes : Bytes) :
    ∃ ending, LineEnding ending ∧ bytes = ending.reverse ++ dropTerminator bytes ∧
      (ending = [] → bytes.head? ≠ some lineFeed) := by
  unfold dropTerminator
  split
  · next a b rest =>
      by_cases ha : a = lineFeed
      · rw [if_pos ha, ha]
        by_cases hb : b = carriageReturn
        · rw [if_pos hb, hb]
          exact ⟨[carriageReturn, lineFeed], .inr (.inr rfl), rfl, by simp⟩
        · rw [if_neg hb]
          exact ⟨[lineFeed], .inr (.inl rfl), rfl, by simp⟩
      · rw [if_neg ha]
        exact ⟨[], .inl rfl, rfl, fun _ => by simpa using ha⟩
  · next a =>
      by_cases ha : a = lineFeed
      · rw [if_pos ha, ha]
        exact ⟨[lineFeed], .inr (.inl rfl), rfl, by simp⟩
      · rw [if_neg ha]
        exact ⟨[], .inl rfl, rfl, fun _ => by simpa using ha⟩
  · exact ⟨[], .inl rfl, rfl, by simp⟩

theorem contribution_eq (line : Bytes) :
    (∃ blanks rest, dropTerminator line.reverse = blanks ++ backslash :: rest ∧
      ∀ b ∈ blanks, b = 32 ∨ b = 9) ∨
    contribution line = (dropTerminator line.reverse).reverse ++ [lineFeed] := by
  unfold contribution
  simp only
  generalize dropTerminator line.reverse = content
  split
  · next b rest hdrop =>
      by_cases hb : b = backslash
      · refine .inl ⟨content.takeWhile fun b => b = 32 || b = 9, rest, ?_, fun b hmem => ?_⟩
        · rw [← hb, ← hdrop, List.takeWhile_append_dropWhile]
        · simpa using List.all_eq_true.mp List.all_takeWhile b hmem
      · rw [if_neg hb, List.reverse_cons]
        exact .inr rfl
  · exact .inr List.reverse_cons

/-- A line that is not continued contributes its text and a line feed. -/
theorem contribution_encode {line : List Char} (h : ¬ Continued line) :
    ∃ text ending, line = text ++ ending ∧ ending ∈ [[], ['\n'], ['\r', '\n']] ∧
      (ending = [] → line.getLast? ≠ some '\n') ∧
      contribution (Utf8.encode line) = Utf8.encode (text ++ ['\n']) := by
  obtain ⟨ending, hending, hsplit, hopen⟩ := dropTerminator_eq (Utf8.encode line).reverse
  obtain ⟨hascii, hmem⟩ := hending.ascii
  have hcontribution := contribution_eq (Utf8.encode line)
  rw [List.head?_reverse] at hopen
  generalize dropTerminator (Utf8.encode line).reverse = content at hsplit hcontribution
  have hline := congrArg List.reverse hsplit
  rw [List.reverse_reverse, List.reverse_append, List.reverse_reverse] at hline
  obtain ⟨text, rfl, htext⟩ := Utf8.encode_eq_append hline hascii
  refine ⟨text, Utf8.ascii ending, rfl, hmem, fun hnil hlast => ?_, ?_⟩
  · obtain ⟨before, hbefore⟩ := List.getLast?_eq_some_iff.mp hlast
    refine hopen (List.map_eq_nil_iff.mp hnil) ?_
    rw [hbefore, Utf8.encode_append]
    exact List.getLast?_concat
  rcases hcontribution with ⟨blanks, rest, rfl, hblank⟩ | hplain
  · refine absurd ?_ h
    rw [List.reverse_append, List.reverse_cons, List.append_assoc, List.singleton_append] at htext
    obtain ⟨before, after, rfl, -, hafter⟩ := Utf8.encode_eq_append_cons htext (by decide)
    have hlow : ∀ b ∈ blanks.reverse, b.toNat < 128 := by
      intro b hb
      rcases hblank b (List.mem_reverse.mp hb) with rfl | rfl <;> decide
    refine ⟨before, after, Utf8.ascii ending, by simp [backslash], fun c hc => ?_, hmem⟩
    rw [Utf8.eq_ascii hafter hlow] at hc
    obtain ⟨b, hb, rfl⟩ := List.mem_map.mp hc
    rcases hblank b (List.mem_reverse.mp hb) with rfl | rfl <;> decide
  · rw [hplain, Utf8.encode_append, htext]
    rfl

/-! ## The lines that are processed -/

theorem dropLineEnd_append {text ending : List Char} (h : ∀ c ∈ ending, c = '\n' ∨ c = '\r') :
    dropLineEnd (text ++ ending) = dropLineEnd text := by
  unfold dropLineEnd Text.dropRightWhile
  rw [List.reverse_append, List.dropWhile_append_of_pos]
  intro c hc
  simpa using h c (List.mem_reverse.mp hc)

theorem newline_not_mem_of_line {line text ending : List Char} {cs : List Char}
    (hline : line ∈ Text.lines cs) (hsplit : line = text ++ ending)
    (hopen : ending = [] → line.getLast? ≠ some '\n') : '\n' ∉ text := by
  induction cs using Text.lines_induction with
  | nil => cases hline
  | last content hne hcontent =>
      rw [Text.lines_last hcontent hne] at hline
      obtain rfl := List.mem_singleton.mp hline
      exact fun hmem => hcontent (hsplit ▸ List.mem_append_left _ hmem)
  | line content cs hcontent ih =>
      rw [Text.lines_line hcontent] at hline
      rcases List.mem_cons.mp hline with rfl | hline
      · have hne : ending ≠ [] := fun hnil => hopen hnil List.getLast?_concat
        obtain ⟨before, last, rfl⟩ : ∃ before last, ending = before ++ [last] :=
          ⟨_, _, (List.dropLast_concat_getLast hne).symm⟩
        rw [← List.append_assoc] at hsplit
        have hcontent' := List.append_inj_left' hsplit rfl
        exact fun hmem => hcontent (hcontent' ▸ List.mem_append_left _ hmem)
      · exact ih hline

theorem flatMap_contribution {cs : List Char} {lines : List (List Char)}
    (hlines : ∀ line ∈ lines, line ∈ Text.lines cs) (h : ∀ line ∈ lines, ¬ Continued line) :
    ∃ texts : List (List Char), (∀ t ∈ texts, '\n' ∉ t) ∧
      texts.map dropLineEnd = lines.map dropLineEnd ∧
      (lines.map Utf8.encode).flatMap contribution =
        Utf8.encode (texts.flatMap fun t => t ++ ['\n']) := by
  induction lines with
  | nil => exact ⟨[], by simp, rfl, rfl⟩
  | cons line lines ih =>
      obtain ⟨hline, hlines⟩ := List.forall_mem_cons.mp hlines
      obtain ⟨hplain, h⟩ := List.forall_mem_cons.mp h
      obtain ⟨texts, hnewline, hsame, hjoined⟩ := ih hlines h
      obtain ⟨t, ending, hsplit, hending, hopen, hcontribution⟩ := contribution_encode hplain
      have ht := newline_not_mem_of_line hline hsplit hopen
      have hchars : ∀ c ∈ ending, c = '\n' ∨ c = '\r' := by
        simp only [List.mem_cons, List.not_mem_nil, or_false] at hending
        rcases hending with rfl | rfl | rfl <;> simp
      refine ⟨t :: texts, List.forall_mem_cons.mpr ⟨ht, hnewline⟩, ?_, ?_⟩
      · rw [List.map_cons, List.map_cons, hsame, hsplit, dropLineEnd_append hchars]
      · rw [List.map_cons, List.flatMap_cons, List.flatMap_cons, hjoined, hcontribution,
          ← Utf8.encode_append]

theorem lines_flatMap {texts : List (List Char)} (h : ∀ t ∈ texts, '\n' ∉ t) :
    Text.lines (texts.flatMap fun t => t ++ ['\n']) = texts.map fun t => t ++ ['\n'] := by
  induction texts with
  | nil => rfl
  | cons t texts ih =>
      obtain ⟨ht, h⟩ := List.forall_mem_cons.mp h
      rw [List.flatMap_cons, List.append_assoc, List.singleton_append, Text.lines_line ht,
        List.map_cons, ih h]

/-- Without continued lines the text is processed line by line, as it is. -/
theorem logicalLines_ofString {text : String}
    (h : ∀ line ∈ Text.lines text.toList, ¬ Continued line) :
    ∃ texts : List (List Char), (∀ t ∈ texts, '\n' ∉ t) ∧
      texts.map dropLineEnd = (Text.lines text.toList).map dropLineEnd ∧
      logicalLines (.ofString text) = texts.map fun t => Utf8.encode (t ++ ['\n']) := by
  obtain ⟨texts, hnewline, hsame, hjoined⟩ := flatMap_contribution (fun _ hline => hline) h
  refine ⟨texts, hnewline, hsame, ?_⟩
  have hbytes : Bytes.ofString text = Utf8.encode text.toList := ofString_eq_flatMap text
  rw [logicalLines, joined, hbytes, splitLines_encode, hjoined, splitLines_encode,
    lines_flatMap hnewline, List.map_map]
  rfl

end ProbeLang
