import ProbeLang.Proofs.Lines
import ProbeLang.Proofs.Token.Reading

/-!
# Trimmed lines

Carriage returns in front of a line feed, and a missing line feed at the end, make no
difference to the tokens of a text: no lexeme ends in a carriage return or contains a line
feed, and the column behind a line feed is the first in either case.
-/

namespace ProbeLang

/-- A text and one that lacks some of the carriage returns in front of line feeds, and whose
last line may be ended where that of the first is not. -/
inductive Trimmed : List Char → List Char → Prop
  | nil : Trimmed [] []
  | keep (c : Char) {cs cs' : List Char} : Trimmed cs cs' → Trimmed (c :: cs) (c :: cs')
  | drop {cs cs' : List Char} : Trimmed cs ('\n' :: cs') → Trimmed ('\r' :: cs) ('\n' :: cs')
  | finish : Trimmed [] ['\n']

/-! ## Trimming the lines of a text -/

theorem Trimmed.append_left {cs cs' : List Char} (h : Trimmed cs cs') :
    ∀ text : List Char, Trimmed (text ++ cs) (text ++ cs')
  | [] => h
  | c :: text => .keep c (h.append_left text)

theorem Trimmed.drop_all {cs cs' : List Char} (h : Trimmed cs ('\n' :: cs')) :
    ∀ {returns : List Char}, (∀ c ∈ returns, c = '\r') → Trimmed (returns ++ cs) ('\n' :: cs')
  | [], _ => h
  | c :: returns, hreturns => by
      obtain ⟨rfl, htail⟩ := List.forall_mem_cons.mp hreturns
      exact .drop (h.drop_all htail)

theorem exists_dropLineEnd {content : List Char} (h : '\n' ∉ content) :
    ∃ returns, content = dropLineEnd content ++ returns ∧ ∀ c ∈ returns, c = '\r' := by
  refine ⟨(content.reverse.takeWhile fun c => c = '\n' || c = '\r').reverse, ?_, fun c hc => ?_⟩
  · rw [dropLineEnd, Text.dropRightWhile, ← List.reverse_append, List.takeWhile_append_dropWhile,
      List.reverse_reverse]
  · rw [List.mem_reverse] at hc
    have hend := List.all_eq_true.mp List.all_takeWhile c hc
    have hmem : c ∈ content := List.mem_reverse.mp ((List.takeWhile_sublist _).subset hc)
    simp only [Bool.or_eq_true, decide_eq_true_eq] at hend
    rcases hend with rfl | rfl
    · exact absurd hmem h
    · rfl

/-- The text that lines make without what ends them, each ended by a line feed. -/
def trimmedText (lines : List (List Char)) : List Char :=
  lines.flatMap fun line => dropLineEnd line ++ ['\n']

theorem trimmedText_cons (line : List Char) (lines : List (List Char)) :
    trimmedText (line :: lines) = dropLineEnd line ++ '\n' :: trimmedText lines := by
  rw [trimmedText, List.flatMap_cons, List.append_assoc]
  rfl

theorem trimmed_lines (cs : List Char) : Trimmed cs (trimmedText (Text.lines cs)) := by
  induction cs using Text.lines_induction with
  | nil => exact .nil
  | last content hne hcontent =>
      obtain ⟨returns, hsplit, hreturns⟩ := exists_dropLineEnd hcontent
      rw [Text.lines_last hcontent hne, trimmedText, List.flatMap_singleton]
      have htrimmed := (Trimmed.finish.drop_all hreturns).append_left (dropLineEnd content)
      rwa [List.append_nil, ← hsplit] at htrimmed
  | line content cs hcontent ih =>
      obtain ⟨returns, hsplit, hreturns⟩ := exists_dropLineEnd hcontent
      rw [Text.lines_line hcontent, trimmedText_cons, dropLineEnd_append (by simp)]
      have htrimmed := ((Trimmed.keep '\n' ih).drop_all hreturns).append_left (dropLineEnd content)
      rwa [← List.append_assoc, ← hsplit] at htrimmed

/-! ## What is kept -/

theorem Trimmed.of_cons {c : Char} (hc : c ≠ '\r') {cs cs' : List Char}
    (h : Trimmed (c :: cs) cs') : ∃ rest, cs' = c :: rest ∧ Trimmed cs rest := by
  cases h with
  | keep _ h => exact ⟨_, rfl, h⟩
  | drop _ => exact absurd rfl hc

theorem Trimmed.follows {cs cs' : List Char} (h : Trimmed cs cs') : Follows cs cs' := by
  intro d hd
  cases h with
  | nil => cases hd
  | keep c _ => exact .inr hd
  | drop _ =>
      cases hd
      exact .inl rfl
  | finish =>
      cases hd
      exact .inl rfl

/-- Characters without a line feed that do not end in a carriage return are kept. -/
theorem Trimmed.of_append {cs : List Char} : ∀ {chars cs' : List Char}, '\n' ∉ chars →
    chars.getLast? ≠ some '\r' → Trimmed (chars ++ cs) cs' →
      ∃ rest, cs' = chars ++ rest ∧ Trimmed cs rest
  | [], _, _, _, h => ⟨_, rfl, h⟩
  | c :: chars, cs', hnewline, hlast, h => by
      have hnewline' : '\n' ∉ chars := fun m => hnewline (List.mem_cons_of_mem _ m)
      have hlast' : chars.getLast? ≠ some '\r' := by
        cases chars with
        | nil => simp
        | cons d chars => simpa using hlast
      cases h with
      | keep _ h =>
          obtain ⟨rest, rfl, hrest⟩ := Trimmed.of_append hnewline' hlast' h
          exact ⟨rest, rfl, hrest⟩
      | drop h =>
          obtain ⟨rest, hsplit, -⟩ := Trimmed.of_append hnewline' hlast' h
          cases chars with
          | nil => exact absurd rfl hlast
          | cons d chars =>
              obtain ⟨rfl, -⟩ := List.cons.inj hsplit
              exact absurd List.mem_cons_self hnewline'

/-! ## The tokens of trimmed lines -/

/-- The same tokens, with the end of the text at any two places. -/
def SameWords (ts ts' : List Token) : Prop :=
  ∃ words last last', ts = words ++ [⟨.eof, "", last⟩] ∧ ts' = words ++ [⟨.eof, "", last'⟩]

theorem SameWords.ends (p p' : Pos) : SameWords [⟨.eof, "", p⟩] [⟨.eof, "", p'⟩] :=
  ⟨[], p, p', rfl, rfl⟩

theorem SameWords.cons {ts ts' : List Token} (t : Token) :
    SameWords ts ts' → SameWords (t :: ts) (t :: ts')
  | ⟨words, last, last', hts, hts'⟩ => ⟨t :: words, last, last', by rw [hts]; rfl, by rw [hts']; rfl⟩

/-- In front of a line feed the column does not matter. -/
theorem Reads.newline {g : Gap} {p q : Pos} {cs : List Char} {ts : List Token}
    (h : Reads g p ('\n' :: cs) ts) (hline : p.line = q.line) : Reads g q ('\n' :: cs) ts := by
  have hadvance : p.advance '\n' = q.advance '\n' := by simp [Pos.advance, hline]
  cases h with
  | blank hc h => exact .blank hc (hadvance ▸ h)
  | lexeme hblank _ _ _ => exact absurd hblank (by decide)
  | lineEnd h => exact .lineEnd (hadvance ▸ h)
  | lineChar hc _ => exact absurd rfl hc
  | blockChar hc h => exact .blockChar hc (hadvance ▸ h)

theorem Reads.newline_of_return {g : Gap} {p : Pos} {cs : List Char} {ts : List Token}
    (h : Reads g (p.advance '\r') ('\n' :: cs) ts) : Reads g p ('\n' :: cs) ts :=
  h.newline rfl

/-- A text has the tokens of its trimmed lines, at the same places. -/
theorem Reads.trimmed {g : Gap} {p : Pos} {cs : List Char} {ts : List Token}
    (h : Reads g p cs ts) :
    ∀ {cs' : List Char}, Trimmed cs cs' → ∃ ts', SameWords ts ts' ∧ Reads g p cs' ts' := by
  induction h with
  | @stop p =>
      intro cs' htrimmed
      cases htrimmed with
      | nil => exact ⟨_, .ends _ _, .stop⟩
      | finish => exact ⟨_, .ends _ _, .blank (by decide) .stop⟩
  | @lineStop p =>
      intro cs' htrimmed
      cases htrimmed with
      | nil => exact ⟨_, .ends _ _, .lineStop⟩
      | finish => exact ⟨_, .ends _ _, .lineEnd .stop⟩
  | blank hc _ ih =>
      intro cs' htrimmed
      cases htrimmed with
      | keep _ htrimmed =>
          obtain ⟨ts', hsame, hreads⟩ := ih htrimmed
          exact ⟨ts', hsame, .blank hc hreads⟩
      | drop htrimmed =>
          obtain ⟨ts', hsame, hreads⟩ := ih htrimmed
          exact ⟨ts', hsame, hreads.newline_of_return⟩
  | openLine _ ih =>
      intro cs' htrimmed
      obtain ⟨cs₁, rfl, hnext⟩ := htrimmed.of_cons (by decide)
      obtain ⟨cs₂, rfl, hrest⟩ := hnext.of_cons (by decide)
      obtain ⟨ts', hsame, hreads⟩ := ih hrest
      exact ⟨ts', hsame, .openLine hreads⟩
  | openBlock _ ih =>
      intro cs' htrimmed
      obtain ⟨cs₁, rfl, hnext⟩ := htrimmed.of_cons (by decide)
      obtain ⟨cs₂, rfl, hrest⟩ := hnext.of_cons (by decide)
      obtain ⟨ts', hsame, hreads⟩ := ih hrest
      exact ⟨ts', hsame, .openBlock hreads⟩
  | @lexeme p c cs ts l hblank hopens hscan _ ih =>
      intro cs' htrimmed
      obtain ⟨tail, hspans, -⟩ := Lexeme.spans_of_scan hscan
      have hnewline := hspans.newline
      have hlast := hspans.last
      rw [hspans.chars] at hnewline hlast
      rw [hspans.split] at htrimmed hopens
      obtain ⟨rest, rfl, hrest⟩ := Trimmed.of_append hnewline hlast htrimmed
      obtain ⟨ts', hsame, hreads⟩ := ih hrest
      have hopens' : ¬ OpensComment c (tail ++ rest) := by
        rintro ⟨hc, hhead⟩
        refine hopens ⟨hc, ?_⟩
        cases tail with
        | cons d tail => exact hhead
        | nil =>
            rcases hhead with hhead | hhead
            · exact .inl ((hrest.follows _ hhead).resolve_left (by decide))
            · exact .inr ((hrest.follows _ hhead).resolve_left (by decide))
      have hscan' := hspans.again rest hrest.follows
      exact ⟨_, hsame.cons _, .lexeme (l := { l with rest := rest }) hblank hopens' hscan' hreads⟩
  | lineEnd _ ih =>
      intro cs' htrimmed
      obtain ⟨cs₁, rfl, hrest⟩ := htrimmed.of_cons (by decide)
      obtain ⟨ts', hsame, hreads⟩ := ih hrest
      exact ⟨ts', hsame, .lineEnd hreads⟩
  | lineChar hc _ ih =>
      intro cs' htrimmed
      cases htrimmed with
      | keep _ htrimmed =>
          obtain ⟨ts', hsame, hreads⟩ := ih htrimmed
          exact ⟨ts', hsame, .lineChar hc hreads⟩
      | drop htrimmed =>
          obtain ⟨ts', hsame, hreads⟩ := ih htrimmed
          exact ⟨ts', hsame, hreads.newline_of_return⟩
  | closeBlock _ ih =>
      intro cs' htrimmed
      obtain ⟨cs₁, rfl, hnext⟩ := htrimmed.of_cons (by decide)
      obtain ⟨cs₂, rfl, hrest⟩ := hnext.of_cons (by decide)
      obtain ⟨ts', hsame, hreads⟩ := ih hrest
      exact ⟨ts', hsame, .closeBlock hreads⟩
  | blockChar hc _ ih =>
      intro cs' htrimmed
      cases htrimmed with
      | keep _ htrimmed =>
          obtain ⟨ts', hsame, hreads⟩ := ih htrimmed
          refine ⟨ts', hsame, .blockChar (fun hclose => hc ⟨hclose.1, ?_⟩) hreads⟩
          exact (htrimmed.follows _ hclose.2).resolve_left (by decide)
      | drop htrimmed =>
          obtain ⟨ts', hsame, hreads⟩ := ih htrimmed
          exact ⟨ts', hsame, hreads.newline_of_return⟩

end ProbeLang
