import ProbeLang.Proofs.Fallible
import ProbeLang.Proofs.Preprocess.Segments
import ProbeLang.Proofs.Token.Trimming

/-!
# Source without directives

Preprocessing leaves alone what has no directive: a text that has tokens and no continued lines
comes out line by line, up to the characters that end the lines, and has the same tokens at the
same places. A line that looks like a directive can then only stand in a block comment, where
it is not taken for one.
-/

namespace ProbeLang

/-! ## One line -/

theorem Segment.substitute_nil (s : Segment) : s.substitute [] = String.ofList s.chars := by
  cases s <;> rfl

/-- Without macros a line is copied. -/
theorem substitute_nil (inComment : Bool) (line : List Char) :
    Macros.substitute [] inComment line =
      (String.ofList line, (Segment.cut line.length [] inComment line).2) := by
  rw [Macros.substitute, lineSegments]
  refine Prod.ext ?_ rfl
  show String.join _ = _
  rw [List.map_congr_left fun s _ => s.substitute_nil, Segment.join_chars,
    Segment.cut_append (Nat.le_refl _)]
  rfl

/-- A line of a text that has tokens is copied, and is no directive. -/
theorem lineEffect_goesOn {origin : String} {n : Nat} {inComment : Bool} {line cs : List Char}
    (h : GoesOn line cs inComment) :
    lineEffect origin n ⟨[], inComment⟩ [] line =
      .ok (.emit ⟨[], (Segment.cut line.length [] inComment line).2⟩ [] (String.ofList line)) := by
  have hplain : (if inComment then none else Directive.ofLine? line) = none := by
    obtain ⟨g, p, ts, hg, hreads⟩ := h
    cases hg with
    | between => exact ofLine?_eq_none hreads
    | block opened => rfl
  rw [lineEffect, hplain, substitute_nil]
  rfl

/-! ## All lines -/

theorem processLines_trimmedText {origin : String} {splice : String → Macros → Processed} :
    ∀ {texts : List (List Char)} {n : Nat} {inComment : Bool} {out : String} {g : Gap} {p : Pos}
      {ts : List Token}, (∀ t ∈ texts, '\n' ∉ t) → InGap inComment g →
        Reads g p (trimmedText texts) ts →
          processLines origin splice n ⟨[], inComment⟩ [] out
            (texts.map fun t => Utf8.encode (t ++ ['\n'])) =
              ([], .ok (out ++ String.ofList (trimmedText texts)))
  | [], n, inComment, out, _, _, _, _, _, _ => by
      show (([] : Macros), Except.ok out) = _
      simp [trimmedText]
  | t :: texts, n, inComment, out, g, p, ts, hnewline, hg, hreads => by
      obtain ⟨ht, htexts⟩ := List.forall_mem_cons.mp hnewline
      obtain ⟨returns, hsplit, -⟩ := exists_dropLineEnd ht
      have hcontent : '\n' ∉ dropLineEnd t :=
        fun m => ht (hsplit ▸ List.mem_append_left returns m)
      have hgoes : GoesOn (dropLineEnd t) (trimmedText texts) inComment :=
        ⟨g, p, ts, hg, trimmedText_cons t texts ▸ hreads⟩
      obtain ⟨g', p', ts', hg', hreads'⟩ :=
        @reads_behind_line _ _ [] _ _ hgoes hcontent (Nat.le_refl _)
      rw [List.map_cons, processLines, Utf8.decode_encode]
      simp only
      rw [dropLineEnd_append (by simp), lineEffect_goesOn hgoes]
      simp only
      rw [processLines_trimmedText htexts hg' hreads', trimmedText_cons]
      simp [String.ofList_append, String.append_assoc]

/-- A text without directives and continued lines is what preprocessing makes of it, with its
lines ended alike; its tokens are the same and stand at the same places, up to its end. -/
theorem preprocess_transparent {text : String} {tokens : List Token}
    (hscan : Token.scan text = .ok tokens)
    (hlines : ∀ line ∈ Text.lines text.toList, ¬ Continued line)
    (t : FileTree) (search : SearchPath) (limit : Nat) (name : String) :
    ∃ out, preprocess t search limit [] name (.ofString text) = ([], .ok out) ∧
      out.toList = trimmedText (Text.lines text.toList) ∧
      ∃ tokens', Token.scan out = .ok tokens' ∧ SameWords tokens tokens' := by
  obtain ⟨texts, hnewline, hsame, hlogical⟩ := logicalLines_ofString hlines
  have htext : trimmedText texts = trimmedText (Text.lines text.toList) := by
    simp only [trimmedText, ← List.flatMap_map dropLineEnd fun line => line ++ ['\n'], hsame]
  obtain ⟨tokens', hwords, hreads⟩ :=
    (Token.scan_iff_reads.mp hscan).trimmed (trimmed_lines text.toList)
  have hprocess (origin : String) (splice : String → Macros → Processed) :=
    @processLines_trimmedText origin splice texts 1 false "" _ _ _ hnewline .between
      (htext ▸ hreads)
  refine ⟨String.ofList (trimmedText texts), ?_, by rw [String.toList_ofList, htext],
    tokens', ?_, hwords⟩
  · rw [preprocess, hlogical]
    cases limit with
    | zero => simpa [processSource, FileState.start] using hprocess _ _
    | succ limit => simpa [processSource, FileState.start] using hprocess _ _
  · rw [Token.scan_iff_reads, String.toList_ofList, htext]
    exact hreads

/-- Signs in comments, quotes in comments and literals, and three ways to end a line. -/
def quotedSigns : String :=
  "/* '\"\r\n# include <x>\n#else **/ Size(\"/*\\\"#\") // '/*\r\r\n/*/\n# */ int n = 1.L >= '\\'';\r"

theorem preprocess_transparent_quotedSigns :
    (∀ line ∈ Text.lines quotedSigns.toList, ¬ Continued line) ∧
    ∃ tokens out tokens', Token.scan quotedSigns = .ok tokens ∧
      preprocess .empty ⟨[]⟩ defaultIncludeDepth [] "Signs.probe" (.ofString quotedSigns) =
        ([], .ok out) ∧
      out.toList = trimmedText (Text.lines quotedSigns.toList) ∧
      Token.scan out = .ok tokens' ∧ SameWords tokens tokens' := by
  have hlines : ∀ line ∈ Text.lines quotedSigns.toList, ¬ Continued line := by decide +kernel
  have hok : (Token.scan quotedSigns).isOk = true := by decide +kernel
  obtain ⟨tokens, hscan⟩ := eq_ok_of_isOk hok
  obtain ⟨out, hout, htext, tokens', hscan', hwords⟩ :=
    preprocess_transparent hscan hlines .empty ⟨[]⟩ defaultIncludeDepth "Signs.probe"
  exact ⟨hlines, tokens, out, tokens', hscan, hout, htext, hscan', hwords⟩

end ProbeLang
