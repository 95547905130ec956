import Mathlib.Data.List.Forall2
import ProbeLang.Proofs.Preprocess.Segments
import ProbeLang.Proofs.Table

/-!
# Macros stand for whole words

There is one way to cut a line into comments, literals, numbers, words and single characters.
`LineCut` says which, with one rule for each kind of segment and without a scanner: a block
comment ends at the first mark that ends one, a literal at the first quote that is not escaped,
and numbers and words are as long as they can be. `lineSegments` finds this cut.

Substitution puts the text of a macro in the place of a word that names it, and leaves every
other segment as it is. The texts put in are not cut again.
-/

namespace ProbeLang

/-! ## The cut of a line -/

/-- The part of a literal behind its opening quote, in front of `rest`: up to the closing quote,
or to the end of the line. A backslash takes the next character with it. -/
inductive LiteralTail (quote : Char) (rest : List Char) : List Char → Prop
  | close : LiteralTail quote rest [quote]
  | escape (c : Char) {tail : List Char} :
      LiteralTail quote rest tail → LiteralTail quote rest ('\\' :: c :: tail)
  | plain {c : Char} {tail : List Char} : c ≠ quote → c ≠ '\\' →
      LiteralTail quote rest tail → LiteralTail quote rest (c :: tail)
  | lineEnd : rest = [] → LiteralTail quote rest []
  | loneSlash : rest = [] → LiteralTail quote rest ['\\']

/-- A run of characters of one class that none of the class follows. -/
structure LongestRun (p : Char → Bool) (run rest : List Char) : Prop where
  inside : ∀ c ∈ run, p c = true
  ends : ∀ c ∈ rest.head?, p c = false

/-- The segments of a line that begins within a block comment or not, and whether a block
comment is open behind it. -/
inductive LineCut : Bool → List Char → List Segment → Bool → Prop
  | nil (inComment : Bool) : LineCut inComment [] [] inComment
  | commentEnds {text cs : List Char} {segments : List Segment} {opened : Bool} :
      ¬ ['*', '/'] <:+: text ++ ['*'] → LineCut false cs segments opened →
      LineCut true (text ++ '*' :: '/' :: cs) (.comment (text ++ ['*', '/']) :: segments) opened
  | commentGoesOn {text : List Char} : text ≠ [] → ¬ ['*', '/'] <:+: text →
      LineCut true text [.comment text] true
  | commentBegins {cs : List Char} {segments : List Segment} {opened : Bool} :
      LineCut true cs segments opened →
      LineCut false ('/' :: '*' :: cs) (.comment ['/', '*'] :: segments) opened
  | lineComment (cs : List Char) :
      LineCut false ('/' :: '/' :: cs) [.comment ('/' :: '/' :: cs)] false
  | literal {quote : Char} {tail cs : List Char} {segments : List Segment} {opened : Bool} :
      quote = '"' ∨ quote = '\'' → LiteralTail quote cs tail → LineCut false cs segments opened →
      LineCut false (quote :: (tail ++ cs)) (.quoted (quote :: tail) :: segments) opened
  | number {c : Char} {tail cs : List Char} {segments : List Segment} {opened : Bool} :
      c.isDigit = true → LongestRun Segment.isNumberPart tail cs →
      LineCut false cs segments opened →
      LineCut false (c :: (tail ++ cs)) (.number (c :: tail) :: segments) opened
  | word {c : Char} {tail cs : List Char} {segments : List Segment} {opened : Bool} :
      Lexeme.isWordStart c = true → LongestRun Lexeme.isWordPart tail cs →
      LineCut false cs segments opened →
      LineCut false (c :: (tail ++ cs)) (.word (c :: tail) :: segments) opened
  | other {c : Char} {cs : List Char} {segments : List Segment} {opened : Bool} :
      ¬ (c = '"' ∨ c = '\'') → ¬ OpensComment c cs → c.isDigit = false →
      Lexeme.isWordStart c = false → LineCut false cs segments opened →
      LineCut false (c :: cs) (.other c :: segments) opened

/-! ## Block comments -/

/-- No mark that ends a comment stands in a text if none stands behind its first character and
the text does not begin with one. -/
theorem not_commentEnd_cons {c : Char} {cs : List Char} :
    ¬ ['*', '/'] <:+: c :: cs ↔ ¬ (c = '*' ∧ cs.head? = some '/') ∧ ¬ ['*', '/'] <:+: cs := by
  rw [List.infix_cons_iff, not_or, List.cons_prefix_cons]
  constructor
  · rintro ⟨hhead, hcs⟩
    refine ⟨fun ⟨hc, hslash⟩ => hhead ⟨hc.symm, ?_⟩, hcs⟩
    obtain ⟨rest, rfl⟩ := List.head?_eq_some_iff.mp hslash
    exact ⟨rest, rfl⟩
  · rintro ⟨hhead, hcs⟩
    refine ⟨fun ⟨hc, rest, hslash⟩ => hhead ⟨hc.symm, ?_⟩, hcs⟩
    rw [← hslash]
    rfl

namespace Segment

theorem cutComment_cons {c : Char} {cs : List Char} (h : ¬ (c = '*' ∧ cs.head? = some '/'))
    (read : List Char) : cutComment read (c :: cs) = cutComment (c :: read) cs := by
  refine cutComment.eq_2 read c cs ?_
  rintro rest rfl rfl
  exact h ⟨rfl, rfl⟩

theorem cutComment_of_ends {text : List Char} (h : ¬ ['*', '/'] <:+: text ++ ['*'])
    (read cs : List Char) :
    cutComment read (text ++ '*' :: '/' :: cs) =
      (read.reverse ++ (text ++ ['*', '/']), cs, true) := by
  induction text generalizing read with
  | nil => simp [cutComment]
  | cons c text ih =>
      obtain ⟨hhead, htext⟩ := not_commentEnd_cons.mp h
      have hhead' : ¬ (c = '*' ∧ (text ++ '*' :: '/' :: cs).head? = some '/') := by
        cases text <;> exact hhead
      rw [List.cons_append, cutComment_cons hhead', ih htext]
      simp

theorem cutComment_of_goesOn {text : List Char} (h : ¬ ['*', '/'] <:+: text)
    (read : List Char) : cutComment read text = (read.reverse ++ text, [], false) := by
  induction text generalizing read with
  | nil => simp [cutComment]
  | cons c text ih =>
      obtain ⟨hhead, htext⟩ := not_commentEnd_cons.mp h
      rw [cutComment_cons hhead, ih htext]
      simp

/-- A comment ends at the first mark that ends one, or not on the line. -/
theorem exists_commentEnd (cs : List Char) :
    ¬ ['*', '/'] <:+: cs ∨
      ∃ text rest, cs = text ++ '*' :: '/' :: rest ∧ ¬ ['*', '/'] <:+: text ++ ['*'] := by
  induction cs with
  | nil => exact .inl (by simp)
  | cons c cs ih =>
      by_cases hhead : c = '*' ∧ cs.head? = some '/'
      · obtain ⟨rfl, hslash⟩ := hhead
        obtain ⟨rest, rfl⟩ := List.head?_eq_some_iff.mp hslash
        exact .inr ⟨[], rest, rfl, by decide⟩
      · rcases ih with hcs | ⟨text, rest, rfl, htext⟩
        · exact .inl (not_commentEnd_cons.mpr ⟨hhead, hcs⟩)
        · refine .inr ⟨c :: text, rest, rfl, not_commentEnd_cons.mpr ⟨?_, htext⟩⟩
          cases text <;> exact hhead

/-! ## Literals -/

theorem cutQuoted_of_literalTail {quote : Char} {rest tail : List Char} (hquote : quote ≠ '\\')
    (h : LiteralTail quote rest tail) (read : List Char) :
    cutQuoted quote read (tail ++ rest) = (read.reverse ++ tail, rest) := by
  induction h generalizing read with
  | close =>
      rw [List.singleton_append, cutQuoted, if_pos rfl, List.reverse_cons]
      exact fun c cs hc _ => hquote hc
  | @escape c tail _ ih =>
      rw [List.cons_append, List.cons_append, cutQuoted, ih]
      simp
  | @plain c tail hne hslash _ ih =>
      rw [List.cons_append, cutQuoted, if_neg hne, ih]
      · simp
      · exact fun d ds hc _ => hslash hc
  | lineEnd hrest =>
      rw [hrest]
      simp [cutQuoted]
  | loneSlash hrest =>
      rw [hrest]
      simp [cutQuoted, hquote.symm]

theorem literalTail_of_cutQuoted {quote : Char} {read cs chars rest : List Char}
    (h : cutQuoted quote read cs = (chars, rest)) :
    ∃ tail, cs = tail ++ rest ∧ chars = read.reverse ++ tail ∧ LiteralTail quote rest tail := by
  fun_induction cutQuoted quote read cs with
  | case1 read c cs ih =>
      obtain ⟨tail, hsplit, hchars, htail⟩ := ih h
      exact ⟨'\\' :: c :: tail, by rw [hsplit]; rfl, by simp [hchars], .escape c htail⟩
  | case2 read cs _ =>
      cases h
      exact ⟨[quote], rfl, by simp, .close⟩
  | case3 read c cs hslash hne ih =>
      obtain ⟨tail, hsplit, hchars, htail⟩ := ih h
      by_cases hc : c = '\\'
      · -- A backslash that is read by itself stands at the end of the line.
        cases cs with
        | nil =>
            obtain ⟨rfl, rfl⟩ := List.append_eq_nil_iff.mp hsplit.symm
            exact ⟨[c], rfl, by simp [hchars], hc ▸ .loneSlash rfl⟩
        | cons d cs => exact absurd rfl (hslash d cs hc)
      · exact ⟨c :: tail, by rw [hsplit]; rfl, by simp [hchars], .plain hne hc htail⟩
  | case4 read =>
      cases h
      exact ⟨[], rfl, by simp, .lineEnd rfl⟩

/-! ## One segment -/

end Segment

theorem LongestRun.span {p : Char → Bool} {run rest : List Char} (h : LongestRun p run rest) :
    (run ++ rest).takeWhile p = run ∧ (run ++ rest).dropWhile p = rest :=
  takeWhile_append_of_head h.inside h.ends

theorem longestRun_span (p : Char → Bool) (cs : List Char) :
    LongestRun p (cs.takeWhile p) (cs.dropWhile p) :=
  ⟨fun c hc => List.all_eq_true.mp List.all_takeWhile c hc, head?_dropWhile⟩

/-- A segment that is found is one that the rules allow. -/
theorem LineCut.of_next {c : Char} {cs rest : List Char} {s : Segment} {inComment opened : Bool}
    {segments : List Segment} (h : Segment.next c cs = (s, rest, inComment))
    (hrest : LineCut inComment rest segments opened) :
    LineCut false (c :: cs) (s :: segments) opened := by
  by_cases hquote : c = '"' ∨ c = '\''
  · obtain ⟨chars, behind, hcut⟩ : ∃ chars behind, Segment.cutQuoted c [c] cs = (chars, behind) :=
      ⟨_, _, rfl⟩
    rw [Segment.next, if_pos (by simpa using hquote), hcut] at h
    cases h
    obtain ⟨tail, rfl, rfl, htail⟩ := Segment.literalTail_of_cutQuoted hcut
    exact .literal hquote htail hrest
  by_cases hopens : OpensComment c cs
  · obtain ⟨rfl, hhead | hhead⟩ := hopens
    · obtain ⟨text, rfl⟩ := List.head?_eq_some_iff.mp hhead
      have hnext : Segment.next '/' ('/' :: text) = (.comment ('/' :: '/' :: text), [], false) := by
        simp [Segment.next]
      obtain ⟨rfl, rfl, rfl⟩ : _ ∧ _ ∧ _ := by simpa using h.symm.trans hnext
      cases hrest
      exact .lineComment text
    · obtain ⟨text, rfl⟩ := List.head?_eq_some_iff.mp hhead
      have hnext : Segment.next '/' ('*' :: text) = (.comment ['/', '*'], text, true) := by
        simp [Segment.next]
      obtain ⟨rfl, rfl, rfl⟩ : _ ∧ _ ∧ _ := by simpa using h.symm.trans hnext
      exact .commentBegins hrest
  rw [next_of_not hquote hopens] at h
  by_cases hdigit : c.isDigit = true
  · rw [if_pos hdigit] at h
    cases h
    have hcut := LineCut.number hdigit (longestRun_span _ cs) hrest
    rwa [List.takeWhile_append_dropWhile] at hcut
  rw [if_neg hdigit] at h
  by_cases hword : Lexeme.isWordStart c = true
  · rw [if_pos hword] at h
    cases h
    have hcut := LineCut.word hword (longestRun_span _ cs) hrest
    rwa [List.takeWhile_append_dropWhile] at hcut
  · rw [if_neg hword] at h
    cases h
    exact .other hquote hopens (Bool.eq_false_iff.mpr hdigit) (Bool.eq_false_iff.mpr hword) hrest

section Next

variable {c : Char} {tail cs : List Char}

theorem not_quote_of_part (h : Lexeme.isWordPart c = true) : ¬ (c = '"' ∨ c = '\'') := by
  rintro (rfl | rfl) <;> exact absurd h (by decide)

theorem not_opensComment_of_part (h : Lexeme.isWordPart c = true) : ¬ OpensComment c cs := by
  rintro ⟨rfl, -⟩
  exact absurd h (by decide)

theorem next_literal (hquote : c = '"' ∨ c = '\'') (h : LiteralTail c cs tail) :
    Segment.next c (tail ++ cs) = (.quoted (c :: tail), cs, false) := by
  have hslash : c ≠ '\\' := by
    rcases hquote with rfl | rfl <;> decide
  rw [Segment.next, if_pos (by simpa using hquote), Segment.cutQuoted_of_literalTail hslash h]
  rfl

theorem next_number (hdigit : c.isDigit = true) (h : LongestRun Segment.isNumberPart tail cs) :
    Segment.next c (tail ++ cs) = (.number (c :: tail), cs, false) := by
  have hpart := Lexeme.isWordPart_of_isDigit hdigit
  rw [next_of_not (not_quote_of_part hpart) (not_opensComment_of_part hpart), if_pos hdigit,
    h.span.1, h.span.2]

theorem next_word (hword : Lexeme.isWordStart c = true)
    (h : LongestRun Lexeme.isWordPart tail cs) :
    Segment.next c (tail ++ cs) = (.word (c :: tail), cs, false) := by
  have hpart := Lexeme.isWordPart_of_isWordStart hword
  have hdigit := Lexeme.isDigit_of_isWordStart hword
  rw [next_of_not (not_quote_of_part hpart) (not_opensComment_of_part hpart),
    if_neg (Bool.eq_false_iff.mp hdigit), if_pos hword, h.span.1, h.span.2]

end Next

/-! ## All segments -/

/-- The segments that are found are a cut of the line. -/
theorem LineCut.exists_cut : ∀ {fuel : Nat} {done : List Segment} {inComment : Bool}
    {cs : List Char}, cs.length ≤ fuel → ∃ segments opened,
      Segment.cut fuel done inComment cs = (done.reverse ++ segments, opened) ∧
        LineCut inComment cs segments opened
  | fuel, done, inComment, [], _ =>
      ⟨[], inComment, by rw [Segment.cut, List.append_nil], .nil inComment⟩
  | 0, _, _, _ :: _, hfuel => absurd hfuel (by simp)
  | fuel + 1, done, true, c :: cs, hfuel => by
      rw [Segment.cut]
      · rcases Segment.exists_commentEnd (c :: cs) with hgoes | ⟨text, rest, hsplit, hends⟩
        · rw [Segment.cutComment_of_goesOn hgoes]
          refine ⟨[.comment (c :: cs)], true, ?_, .commentGoesOn (List.cons_ne_nil c cs) hgoes⟩
          simp [Segment.cut]
        · have hlength := congrArg List.length hsplit
          simp only [List.length_append, List.length_cons] at hlength hfuel
          obtain ⟨segments, opened, hcut, hrest⟩ :=
            @exists_cut fuel (.comment (text ++ ['*', '/']) :: done) false rest (by omega)
          rw [hsplit, Segment.cutComment_of_ends hends]
          refine ⟨.comment (text ++ ['*', '/']) :: segments, opened, ?_, .commentEnds hends hrest⟩
          simpa using hcut
      · exact List.cons_ne_nil c cs
  | fuel + 1, done, false, c :: cs, hfuel => by
      rw [Segment.cut]
      obtain ⟨s, rest, inComment, hnext⟩ : ∃ s rest inComment,
          Segment.next c cs = (s, rest, inComment) := ⟨_, _, _, rfl⟩
      obtain ⟨tail, -, hsplit⟩ := Segment.next_spec hnext
      have hlength := congrArg List.length hsplit
      rw [List.length_append] at hlength
      rw [List.length_cons] at hfuel
      obtain ⟨segments, opened, hcut, hrest⟩ := @exists_cut fuel (s :: done) inComment rest (by omega)
      refine ⟨s :: segments, opened, ?_, .of_next hnext hrest⟩
      rw [hnext]
      simpa using hcut

/-- These segments are found on a line, whatever has been found in front of it. -/
def Segment.Finds (inComment : Bool) (cs : List Char) (segments : List Segment)
    (opened : Bool) : Prop :=
  ∀ fuel, cs.length ≤ fuel → ∀ done,
    Segment.cut fuel done inComment cs = (done.reverse ++ segments, opened)

theorem Segment.Finds.cons {c : Char} {cs rest : List Char} {s : Segment}
    {inComment opened : Bool} {segments : List Segment}
    (hnext : Segment.next c cs = (s, rest, inComment))
    (h : Segment.Finds inComment rest segments opened) :
    Segment.Finds false (c :: cs) (s :: segments) opened := by
  intro fuel hfuel done
  obtain ⟨tail, -, hsplit⟩ := Segment.next_spec hnext
  have hlength := congrArg List.length hsplit
  rw [List.length_append] at hlength
  rw [List.length_cons] at hfuel
  obtain ⟨fuel, rfl⟩ := Nat.exists_eq_succ_of_ne_zero (show fuel ≠ 0 by omega)
  have hrest := h fuel (by omega) (s :: done)
  rw [Segment.cut, hnext]
  simpa using hrest

/-- Whatever the cut of a line is, it is found. -/
theorem LineCut.finds {inComment opened : Bool} {cs : List Char} {segments : List Segment}
    (h : LineCut inComment cs segments opened) :
    Segment.Finds inComment cs segments opened := by
  induction h with
  | nil inComment =>
      intro fuel _ done
      rw [Segment.cut, List.append_nil]
  | @commentEnds text cs segments opened hends _ ih =>
      intro fuel hfuel done
      simp only [List.length_append, List.length_cons] at hfuel
      obtain ⟨fuel, rfl⟩ := Nat.exists_eq_succ_of_ne_zero (show fuel ≠ 0 by omega)
      have hrest := ih fuel (by omega) (.comment (text ++ ['*', '/']) :: done)
      rw [Segment.cut]
      · rw [Segment.cutComment_of_ends hends]
        simpa using hrest
      · simp
  | @commentGoesOn text hne hgoes =>
      intro fuel hfuel done
      have hpos := List.length_pos_iff.mpr hne
      obtain ⟨fuel, rfl⟩ := Nat.exists_eq_succ_of_ne_zero (show fuel ≠ 0 by omega)
      rw [Segment.cut]
      · rw [Segment.cutComment_of_goesOn hgoes]
        simp [Segment.cut]
      · exact hne
  | @commentBegins cs segments opened _ ih =>
      have hnext : Segment.next '/' ('*' :: cs) = (.comment ['/', '*'], cs, true) := by
        simp [Segment.next]
      exact .cons hnext ih
  | lineComment cs =>
      have hnext : Segment.next '/' ('/' :: cs) = (.comment ('/' :: '/' :: cs), [], false) := by
        simp [Segment.next]
      refine .cons hnext ?_
      intro fuel _ done
      rw [Segment.cut, List.append_nil]
  | literal hquote htail _ ih => exact .cons (next_literal hquote htail) ih
  | number hdigit hrun _ ih => exact .cons (next_number hdigit hrun) ih
  | word hword hrun _ ih => exact .cons (next_word hword hrun) ih
  | @other c cs segments opened hquote hopens hdigit hword _ ih =>
      have hnext : Segment.next c cs = (.other c, cs, false) := by
        rw [next_of_not hquote hopens, hdigit, hword]
        rfl
      exact .cons hnext ih

/-- A line has one cut, and it is the one that is found. -/
theorem lineCut_iff {inComment opened : Bool} {line : List Char} {segments : List Segment} :
    LineCut inComment line segments opened ↔ lineSegments inComment line = (segments, opened) := by
  constructor
  · intro h
    exact h.finds line.length (Nat.le_refl _) []
  · intro h
    obtain ⟨segments', opened', hcut, hline⟩ :=
      @LineCut.exists_cut line.length [] inComment line (Nat.le_refl _)
    obtain ⟨rfl, rfl⟩ := Prod.mk.inj (hcut.symm.trans h)
    exact hline

/-! ## Substitution -/

/-- What becomes of a segment: a word that names a macro is replaced by the text of the macro, and
everything else is kept. -/
inductive Segment.Becomes (macros : Macros) : Segment → String → Prop
  | replaced {cs : List Char} {text : String} : macros.find? (String.ofList cs) = some text →
      Becomes macros (.word cs) text
  | kept {s : Segment} : (∀ cs, s = .word cs → macros.find? (String.ofList cs) = none) →
      Becomes macros s (String.ofList s.chars)

theorem Segment.becomes_substitute (macros : Macros) (s : Segment) :
    s.Becomes macros (s.substitute macros) := by
  cases s with
  | word cs =>
      show Becomes macros _ ((macros.find? (String.ofList cs)).getD (String.ofList cs))
      cases hfind : macros.find? (String.ofList cs) with
      | some text => exact .replaced hfind
      | none =>
          refine .kept ?_
          rintro _ ⟨⟩
          exact hfind
  | comment cs => exact .kept nofun
  | quoted cs => exact .kept nofun
  | number cs => exact .kept nofun
  | other c => exact .kept nofun

/-- A segment that is no macro's name is copied. -/
theorem Segment.substitute_of_unnamed {macros : Macros} {s : Segment}
    (h : ∀ cs, s = .word cs → macros.has (String.ofList cs) = false) :
    s.substitute macros = String.ofList s.chars := by
  cases s with
  | word cs =>
      show (macros.find? (String.ofList cs)).getD (String.ofList cs) = String.ofList cs
      rw [Table.has_eq_false.mp (h cs rfl), Option.getD_none]
  | comment cs => rfl
  | quoted cs => rfl
  | number cs => rfl
  | other c => rfl

/-- A line has one cut into segments. Substitution replaces the words of it that name macros,
keeps the other segments, and tells whether a block comment is open behind the line. A line whose
words name no macros is copied. -/
theorem substitute_cut (macros : Macros) (inComment : Bool) (line : List Char) :
    ∃ segments opened, LineCut inComment line segments opened ∧
      (∀ segments' opened', LineCut inComment line segments' opened' →
        segments' = segments ∧ opened' = opened) ∧
      segments.flatMap Segment.chars = line ∧
      (∃ texts, List.Forall₂ (Segment.Becomes macros) segments texts ∧
        macros.substitute inComment line = (String.join texts, opened)) ∧
      ((∀ cs, .word cs ∈ segments → macros.has (String.ofList cs) = false) →
        macros.substitute inComment line = (String.ofList line, opened)) := by
  obtain ⟨segments, opened, hline⟩ : ∃ segments opened,
      lineSegments inComment line = (segments, opened) := ⟨_, _, rfl⟩
  have hcut := lineCut_iff.mpr hline
  have hchars : segments.flatMap Segment.chars = line := by
    have happend := @Segment.cut_append line.length [] inComment line (Nat.le_refl _)
    rwa [show Segment.cut line.length [] inComment line = _ from hline] at happend
  have hresult : macros.substitute inComment line =
      (String.join (segments.map (Segment.substitute macros)), opened) := by
    rw [Macros.substitute, hline]
  refine ⟨segments, opened, hcut, ?_, hchars, ⟨_, ?_, hresult⟩, ?_⟩
  · intro segments' opened' hcut'
    exact Prod.mk.inj ((lineCut_iff.mp hcut').symm.trans hline)
  · rw [List.forall₂_map_right_iff, List.forall₂_same]
    exact fun s _ => s.becomes_substitute macros
  · intro hwords
    have hcopied : segments.map (Segment.substitute macros) =
        segments.map fun s => String.ofList s.chars := by
      refine List.map_congr_left fun s hs => Segment.substitute_of_unnamed ?_
      rintro cs rfl
      exact hwords cs hs
    rw [hresult, hcopied, Segment.join_chars, hchars]

example : Macros.substitute [("A", "B"), ("B", "C")] false "/*/A*/B 1.A \"\\\\\"A '\\'A' /* A".toList =
    ("/*/A*/C 1.A \"\\\\\"B '\\'A' /* A", true) := by
  decide +kernel

end ProbeLang
