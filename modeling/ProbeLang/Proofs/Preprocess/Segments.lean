import ProbeLang.Preprocess
import ProbeLang.Proofs.Token.Reading

/-!
# Segments and lexemes

The preprocessor cuts a line into segments by rules of its own, which are coarser in some
places and finer in others than those for tokens: a number takes dots and letters with it, an
operator is cut between its characters. What matters is that both see comments and literals
begin and end at the same places. `reads_behind_line` shows it for a line of a text that has
tokens, starting in front of a comment or within one.
-/

namespace ProbeLang

namespace Segment

/-! ## Cutting loses nothing -/

theorem cutComment_spec {read cs chars rest : List Char} {closed : Bool}
    (h : cutComment read cs = (chars, rest, closed)) :
    ∃ tail, chars = read.reverse ++ tail ∧ cs = tail ++ rest ∧ (cs ≠ [] → tail ≠ []) := by
  fun_induction cutComment read cs with
  | case1 read cs =>
      cases h
      exact ⟨['*', '/'], by simp, rfl, by simp⟩
  | case2 read c cs _ ih =>
      obtain ⟨tail, hchars, hsplit, -⟩ := ih h
      exact ⟨c :: tail, by simp [hchars], by rw [hsplit]; rfl, by simp⟩
  | case3 read =>
      cases h
      exact ⟨[], by simp, rfl, by simp⟩

theorem cutQuoted_spec {quote : Char} {read cs chars rest : List Char}
    (h : cutQuoted quote read cs = (chars, rest)) :
    ∃ tail, chars = read.reverse ++ tail ∧ cs = tail ++ rest := by
  fun_induction cutQuoted quote read cs with
  | case1 read c cs ih =>
      obtain ⟨tail, hchars, hsplit⟩ := ih h
      exact ⟨'\\' :: c :: tail, by simp [hchars], by rw [hsplit]; rfl⟩
  | case2 read cs _ =>
      cases h
      exact ⟨[quote], by simp, rfl⟩
  | case3 read c cs _ _ ih =>
      obtain ⟨tail, hchars, hsplit⟩ := ih h
      exact ⟨c :: tail, by simp [hchars], by rw [hsplit]; rfl⟩
  | case4 read =>
      cases h
      exact ⟨[], by simp, rfl⟩

theorem next_spec {c : Char} {cs rest : List Char} {s : Segment} {inComment : Bool}
    (h : next c cs = (s, rest, inComment)) :
    ∃ tail, s.chars = c :: tail ∧ cs = tail ++ rest := by
  unfold next at h
  split at h
  · cases hquoted : cutQuoted c [c] cs with
    | mk chars behind =>
        rw [hquoted] at h
        cases h
        obtain ⟨tail, rfl, hsplit⟩ := cutQuoted_spec hquoted
        exact ⟨tail, rfl, hsplit⟩
  split at h
  · cases h
    exact ⟨cs, rfl, (List.append_nil cs).symm⟩
  split at h
  · next hc =>
      cases h
      simp only [Bool.and_eq_true, decide_eq_true_eq, beq_iff_eq] at hc
      obtain ⟨behind, rfl⟩ := List.head?_eq_some_iff.mp hc.2
      exact ⟨['*'], by rw [hc.1]; rfl, rfl⟩
  split at h
  · cases h
    exact ⟨cs.takeWhile isNumberPart, rfl, List.takeWhile_append_dropWhile.symm⟩
  split at h
  · cases h
    exact ⟨cs.takeWhile Lexeme.isWordPart, rfl, List.takeWhile_append_dropWhile.symm⟩
  · cases h
    exact ⟨[], rfl, rfl⟩

/-- The segments of a line are the line. -/
theorem cut_append : ∀ {fuel : Nat} {done : List Segment} {inComment : Bool} {cs : List Char},
    cs.length ≤ fuel →
      (cut fuel done inComment cs).1.flatMap chars = done.reverse.flatMap chars ++ cs
  | fuel, done, inComment, [], _ => by
      rw [cut, List.append_nil]
  | 0, _, _, _ :: _, hfuel => absurd hfuel (by simp)
  | fuel + 1, done, true, c :: cs, hfuel => by
      rw [cut]
      · cases hcut : cutComment [] (c :: cs) with
        | mk chars₁ p =>
            obtain ⟨rest, closed⟩ := p
            obtain ⟨tail, hchars, hsplit, hne⟩ := cutComment_spec hcut
            have htail := List.length_pos_iff.mpr (hne (List.cons_ne_nil _ _))
            have hlength := congrArg List.length hsplit
            rw [List.length_append] at hlength
            simp only
            rw [cut_append (by omega), List.reverse_cons, List.flatMap_append, List.append_assoc,
              hsplit]
            simp [chars, hchars]
      · simp
  | fuel + 1, done, false, c :: cs, hfuel => by
      rw [cut]
      cases hnext : next c cs with
      | mk s p =>
          obtain ⟨rest, inComment⟩ := p
          obtain ⟨tail, hchars, hsplit⟩ := next_spec hnext
          have hlength := congrArg List.length hsplit
          rw [List.length_append] at hlength
          rw [List.length_cons] at hfuel
          simp only
          rw [cut_append (by omega), List.reverse_cons, List.flatMap_append, List.append_assoc,
            hsplit]
          simp [hchars]

theorem join_chars (segments : List Segment) :
    String.join (segments.map fun s => String.ofList s.chars) =
      String.ofList (segments.flatMap Segment.chars) := by
  induction segments with
  | nil => rfl
  | cons s segments ih =>
      rw [List.map_cons, String.join_cons, ih, List.flatMap_cons, String.ofList_append]

/-! ## Literals -/

/-- A literal is one segment. -/
theorem cutQuoted_of_quoted {quote : Char} {tail : List Char} (h : Lexeme.Quoted quote tail)
    (hquote : quote ≠ '\\') (rest : List Char) :
    ∀ read, cutQuoted quote read (tail ++ rest) = (read.reverse ++ tail, rest) := by
  induction h with
  | close =>
      intro read
      rw [List.singleton_append, cutQuoted, if_pos rfl, List.reverse_cons]
      exact fun c cs hc _ => hquote hc
  | @escape c cs _ _ ih =>
      intro read
      rw [List.cons_append, List.cons_append, cutQuoted, ih]
      simp
  | @plain c cs hne hslash _ _ ih =>
      intro read
      rw [List.cons_append, cutQuoted, if_neg hne, ih]
      · simp
      · exact fun d ds hc _ => hslash hc

end Segment

/-! ## The text behind a segment -/

/-- A gap that is a block comment just if the flag says so. -/
inductive InGap : Bool → Gap → Prop
  | between : InGap false .between
  | block (opened : Pos) : InGap true (.blockComment opened)

section Behind

variable {p : Pos} {c : Char} {cs content : List Char} {ts : List Token}

theorem reads_behind_newline {inComment : Bool} {g : Gap} (hg : InGap inComment g)
    (h : Reads g p ('\n' :: cs) ts) : ∃ p', Reads g p' cs ts := by
  cases hg with
  | between =>
      cases h with
      | blank _ h => exact ⟨_, h⟩
      | lexeme hblank _ _ _ => exact absurd hblank (by decide)
  | block opened =>
      cases h with
      | blockChar _ h => exact ⟨_, h⟩

theorem reads_behind_lineComment (h : Reads .lineComment p (content ++ '\n' :: cs) ts)
    (hcontent : '\n' ∉ content) : ∃ p', Reads .between p' ('\n' :: cs) ts := by
  induction content generalizing p with
  | nil =>
      cases h with
      | lineEnd h => exact ⟨_, .blank (by decide) h⟩
      | lineChar hc _ => exact absurd rfl hc
  | cons c content ih =>
      have hc : c ≠ '\n' := fun e => hcontent (e ▸ List.mem_cons_self)
      cases h with
      | lineEnd _ => exact absurd rfl hc
      | lineChar _ h => exact ih h fun m => hcontent (List.mem_cons_of_mem _ m)

/-- A block comment ends where the segment says, or not on the line. -/
theorem reads_behind_blockComment {opened : Pos} {read chars rest : List Char} {closed : Bool}
    (h : Reads (.blockComment opened) p (content ++ '\n' :: cs) ts)
    (hcut : Segment.cutComment read content = (chars, rest, closed)) :
    ∃ g p', InGap (!closed) g ∧ Reads g p' (rest ++ '\n' :: cs) ts := by
  fun_induction Segment.cutComment read content generalizing p with
  | case1 read content =>
      cases hcut
      cases h with
      | closeBlock h => exact ⟨_, _, .between, h⟩
      | blockChar hc _ => exact absurd ⟨rfl, rfl⟩ hc
  | case2 read c content hopen ih =>
      rw [List.cons_append] at h
      generalize hbehind : content ++ '\n' :: cs = behind at h ih
      cases h with
      | closeBlock h =>
          cases content with
          | nil => cases hbehind
          | cons d content =>
              cases hbehind
              exact (hopen _ rfl rfl).elim
      | blockChar _ h => exact ih h hcut
  | case3 read =>
      cases hcut
      exact ⟨_, _, .block opened, h⟩

/-- A class of characters that holds those of words and at most the dot besides. -/
structure RunClass (q : Char → Bool) : Prop where
  part : ∀ c, Lexeme.isWordPart c = true → q c = true
  only : ∀ c, q c = true → Lexeme.isWordPart c = true ∨ c = '.'

theorem RunClass.not_of {q : Char → Bool} (hq : RunClass q) {c : Char}
    (hpart : Lexeme.isWordPart c = false) (hdot : c ≠ '.') : q c = false := by
  cases hc : q c with
  | false => rfl
  | true =>
      rcases hq.only c hc with h | h
      · exact absurd h (Bool.eq_false_iff.mp hpart)
      · exact absurd h hdot

theorem runClass_isWordPart : RunClass Lexeme.isWordPart :=
  ⟨fun _ h => h, fun _ h => .inl h⟩

theorem runClass_isNumberPart : RunClass Segment.isNumberPart := by
  refine ⟨fun c h => by rw [Segment.isNumberPart, h, Bool.true_or], fun c h => ?_⟩
  simpa [Segment.isNumberPart] using h

/-- A lexeme that begins in a run ends in it. -/
theorem split_in_run {q : Char → Bool} {run rest tail behind : List Char}
    (hrest : ∀ d ∈ rest.head?, q d = false) (htail : ∀ d ∈ tail, q d = true)
    (h : run ++ rest = tail ++ behind) : ∃ run', run = tail ++ run' ∧ behind = run' ++ rest := by
  rcases List.append_eq_append_iff.mp h with ⟨more, rfl, hmore⟩ | ⟨run', hrun, hbehind⟩
  · cases more with
    | nil => exact ⟨[], by simp, by simpa using hmore.symm⟩
    | cons d more =>
        have hd := htail d (List.mem_append_right _ List.mem_cons_self)
        have hd' := hrest d (by rw [hmore]; rfl)
        rw [hd] at hd'
        cases hd'
  · exact ⟨run', hrun, hbehind⟩

/-- A run of such characters is used up by whole lexemes. -/
theorem reads_behind_run {q : Char → Bool} (hq : RunClass q) {rest : List Char}
    (hrest : ∀ d ∈ rest.head?, q d = false) :
    ∀ (run : List Char) {p : Pos} {ts : List Token}, (∀ d ∈ run, q d = true) →
      Reads .between p (run ++ rest) ts → ∃ p' ts', Reads .between p' rest ts'
  | [], p, ts, _, h => ⟨p, ts, h⟩
  | c :: run, p, ts, hrun, h => by
      obtain ⟨hc, hrun'⟩ := List.forall_mem_cons.mp hrun
      by_cases hblank : Text.isBlank c = true
      · exact reads_behind_run hq hrest run hrun' (h.of_blank hblank)
      · have hslash : c ≠ '/' := by
          rintro rfl
          exact absurd hc (Bool.eq_false_iff.mp (hq.not_of (by decide) (by decide)))
        obtain ⟨l, ts', hscan, hreads⟩ :=
          h.exists_lexeme (Bool.eq_false_iff.mpr hblank) fun hopens => hslash hopens.1
        obtain ⟨tail, hspans, hshape⟩ := Lexeme.spans_of_scan hscan
        have htail : ∀ d ∈ tail, q d = true := by
          cases hshape with
          | symbol _ => simp
          | operator hkind =>
              have hdot : c ≠ '.' := by
                rintro rfl
                simp [Lexeme.twoCharKind?] at hkind
              have hpart := (Lexeme.isMark_of_twoCharKind? hkind).1.1
              exact absurd hc (Bool.eq_false_iff.mp (hq.not_of hpart hdot))
          | quoted hquote _ =>
              rcases hquote with rfl | rfl
              · exact absurd hc (Bool.eq_false_iff.mp (hq.not_of (by decide) (by decide)))
              · exact absurd hc (Bool.eq_false_iff.mp (hq.not_of (by decide) (by decide)))
          | parts _ htail => exact fun d hd => hq.part d (htail d hd)
        obtain ⟨run', hsplit, hl⟩ := split_in_run hrest htail hspans.split
        have hsub : ∀ d ∈ run', q d = true := fun d hd =>
          hrun' d (hsplit ▸ List.mem_append_right _ hd)
        have hlength : run'.length ≤ run.length := by
          rw [hsplit, List.length_append]
          exact Nat.le_add_left _ _
        exact reads_behind_run hq hrest run' hsub (hl ▸ hreads)
termination_by run => run.length

/-! ## The text behind a line -/

/-- Where the tokens go on behind a segment: in front of a comment or literal, or within a
comment, and with the rest of the line still to come. -/
def GoesOn (rest cs : List Char) (inComment : Bool) : Prop :=
  ∃ g p ts, InGap inComment g ∧ Reads g p (rest ++ '\n' :: cs) ts

theorem goesOn_quoted (h : Reads .between p (c :: (content ++ '\n' :: cs)) ts)
    (hcontent : '\n' ∉ content) (hc : c = '"' ∨ c = '\'') :
    ∃ s rest, Segment.next c content = (s, rest, false) ∧ GoesOn rest cs false := by
  have hblank : Text.isBlank c = false := by rcases hc with rfl | rfl <;> decide
  have hslash : c ≠ '/' := by rcases hc with rfl | rfl <;> decide
  obtain ⟨l, ts', hscan, hrest⟩ := h.exists_lexeme hblank fun hopens => hslash hopens.1
  obtain ⟨tail, hspans, hshape⟩ := Lexeme.spans_of_scan hscan
  have hline : ∀ d ∈ tail, (d != '\n') = true := by
    intro d hd
    have hnewline := hspans.newline
    rw [hspans.chars] at hnewline
    simpa using fun e : d = '\n' => hnewline (List.mem_cons_of_mem _ (e ▸ hd))
  obtain ⟨rest, rfl, hl⟩ := split_in_run (q := (· != '\n')) (by simp) hline hspans.split
  have hcut := Segment.cutQuoted_of_quoted (hshape.quoted_of hc)
    (by rcases hc with rfl | rfl <;> decide) rest [c]
  refine ⟨.quoted (c :: tail), rest, ?_, .between, _, _, .between, hl ▸ hrest⟩
  simp [Segment.next, hc, hcut]

theorem head_append_newline {q : Char → Bool} (hq : q '\n' = false) {rest : List Char}
    (hrest : ∀ d ∈ rest.head?, q d = false) : ∀ d ∈ (rest ++ '\n' :: cs).head?, q d = false := by
  cases rest with
  | nil => simpa using hq
  | cons d rest => exact hrest

theorem goesOn_run {q : Char → Bool} (hq : RunClass q) (hc : q c = true)
    (h : Reads .between p (c :: (content ++ '\n' :: cs)) ts) :
    GoesOn (content.dropWhile q) cs false := by
  have hline : q '\n' = false := hq.not_of (by decide) (by decide)
  have hrest : ∀ d ∈ (content.dropWhile q ++ '\n' :: cs).head?, q d = false :=
    head_append_newline hline head?_dropWhile
  have hrun : ∀ d ∈ c :: content.takeWhile q, q d = true :=
    List.forall_mem_cons.mpr ⟨hc, fun d hd => List.all_eq_true.mp List.all_takeWhile d hd⟩
  have hsplit : c :: (content ++ '\n' :: cs) =
      (c :: content.takeWhile q) ++ (content.dropWhile q ++ '\n' :: cs) := by
    rw [List.cons_append, ← List.append_assoc, List.takeWhile_append_dropWhile]
  obtain ⟨p', ts', hreads⟩ := reads_behind_run hq hrest _ hrun (hsplit ▸ h)
  exact ⟨_, _, _, .between, hreads⟩

theorem next_of_not (hquote : ¬ (c = '"' ∨ c = '\'')) (hopens : ¬ OpensComment c content) :
    Segment.next c content =
      if c.isDigit then
        (.number (c :: content.takeWhile Segment.isNumberPart),
          content.dropWhile Segment.isNumberPart, false)
      else if Lexeme.isWordStart c then
        (.word (c :: content.takeWhile Lexeme.isWordPart),
          content.dropWhile Lexeme.isWordPart, false)
      else (.other c, content, false) := by
  rw [Segment.next, if_neg (by simpa using hquote), if_neg, if_neg]
  · intro hblock
    simp only [Bool.and_eq_true, decide_eq_true_eq, beq_iff_eq] at hblock
    exact hopens ⟨hblock.1, .inr hblock.2⟩
  · intro hline
    simp only [Bool.and_eq_true, decide_eq_true_eq, beq_iff_eq] at hline
    exact hopens ⟨hline.1, .inl hline.2⟩

/-- Behind one segment, or behind the two that an operator is cut into, the tokens go on. -/
theorem reads_behind_segment (h : Reads .between p (c :: (content ++ '\n' :: cs)) ts)
    (hcontent : '\n' ∉ content) :
    (∃ s rest inComment, Segment.next c content = (s, rest, inComment) ∧
      GoesOn rest cs inComment) ∨
    ∃ d rest, content = d :: rest ∧ Segment.next c content = (.other c, content, false) ∧
      Segment.next d rest = (.other d, rest, false) ∧ GoesOn rest cs false := by
  by_cases hquote : c = '"' ∨ c = '\''
  · obtain ⟨s, rest, hnext, hrest⟩ := goesOn_quoted h hcontent hquote
    exact .inl ⟨s, rest, false, hnext, hrest⟩
  by_cases hopens : OpensComment c content
  · obtain ⟨rfl, hhead⟩ := hopens
    rcases hhead with hhead | hhead
    · obtain ⟨rest, rfl⟩ := List.head?_eq_some_iff.mp hhead
      have hrest : '\n' ∉ rest := fun m => hcontent (List.mem_cons_of_mem _ m)
      refine .inl ⟨.comment ('/' :: '/' :: rest), [], false, by simp [Segment.next], ?_⟩
      cases h with
      | blank hblank _ => exact absurd hblank (by decide)
      | openLine h =>
          obtain ⟨p', hreads⟩ := reads_behind_lineComment h hrest
          exact ⟨_, _, _, .between, hreads⟩
      | lexeme _ hopens _ _ => exact absurd ⟨rfl, .inl rfl⟩ hopens
    · obtain ⟨rest, rfl⟩ := List.head?_eq_some_iff.mp hhead
      refine .inl ⟨.comment ['/', '*'], rest, true, by simp [Segment.next], ?_⟩
      cases h with
      | blank hblank _ => exact absurd hblank (by decide)
      | openBlock h => exact ⟨_, _, _, .block _, h⟩
      | lexeme _ hopens _ _ => exact absurd ⟨rfl, .inr rfl⟩ hopens
  have hnext := next_of_not hquote hopens
  by_cases hdigit : c.isDigit = true
  · have hpart := runClass_isNumberPart.part c (Lexeme.isWordPart_of_isDigit hdigit)
    rw [if_pos hdigit] at hnext
    exact .inl ⟨_, _, _, hnext, goesOn_run runClass_isNumberPart hpart h⟩
  by_cases hword : Lexeme.isWordStart c = true
  · have hpart := Lexeme.isWordPart_of_isWordStart hword
    rw [if_neg hdigit, if_pos hword] at hnext
    exact .inl ⟨_, _, _, hnext, goesOn_run runClass_isWordPart hpart h⟩
  rw [if_neg hdigit, if_neg hword] at hnext
  by_cases hblank : Text.isBlank c = true
  · exact .inl ⟨_, _, _, hnext, _, _, _, .between, h.of_blank hblank⟩
  have hopens' : ¬ OpensComment c (content ++ '\n' :: cs) := by
    rintro ⟨hc, hhead⟩
    cases content with
    | nil => rcases hhead with hhead | hhead <;> cases hhead
    | cons d content => exact hopens ⟨hc, hhead⟩
  obtain ⟨l, ts', hscan, hreads⟩ := h.exists_lexeme (Bool.eq_false_iff.mpr hblank) hopens'
  obtain ⟨tail, hspans, hshape⟩ := Lexeme.spans_of_scan hscan
  have hsplit := hspans.split
  cases hshape with
  | symbol _ =>
      rw [List.nil_append] at hsplit
      exact .inl ⟨_, _, _, hnext, _, _, _, .between, hsplit ▸ hreads⟩
  | @operator d _ hkind =>
      obtain ⟨-, hd, -, hslash⟩ := Lexeme.isMark_of_twoCharKind? hkind
      rw [List.singleton_append] at hsplit
      cases content with
      | nil =>
          obtain ⟨rfl, -⟩ := List.cons.inj hsplit
          exact absurd rfl hd.2.2.2.1
      | cons e rest =>
          rw [List.cons_append] at hsplit
          obtain ⟨rfl, hrest⟩ := List.cons.inj hsplit
          have hnext' := @next_of_not _ rest (fun hq => hq.elim hd.2.1 hd.2.2.1)
            fun hopens => hslash hopens.1
          rw [hd.not_isDigit, hd.not_isWordStart] at hnext'
          exact .inr ⟨e, rest, rfl, hnext, hnext', _, _, _, .between, hrest ▸ hreads⟩
  | quoted hc _ => exact absurd hc hquote
  | parts hc _ => exact absurd hc (not_or.mpr ⟨hdigit, hword⟩)

end Behind

/-- The preprocessor knows at the end of a line whether a comment is open there. -/
theorem reads_behind_line {cs : List Char} : ∀ {fuel : Nat} {done : List Segment}
    {inComment : Bool} {content : List Char}, GoesOn content cs inComment → '\n' ∉ content →
      content.length ≤ fuel →
        ∃ g p ts, InGap (Segment.cut fuel done inComment content).2 g ∧ Reads g p cs ts
  | fuel, done, inComment, [], h, _, _ => by
      obtain ⟨g, p, ts, hg, hreads⟩ := h
      obtain ⟨p', hrest⟩ := reads_behind_newline hg hreads
      rw [Segment.cut]
      exact ⟨g, p', ts, hg, hrest⟩
  | 0, _, _, _ :: _, _, _, hfuel => absurd hfuel (by simp)
  | fuel + 1, done, true, c :: content, h, hcontent, hfuel => by
      obtain ⟨g, p, ts, hg, hreads⟩ := h
      cases hg with
      | block opened =>
          rw [Segment.cut]
          · cases hcut : Segment.cutComment [] (c :: content) with
            | mk chars more =>
                obtain ⟨rest, closed⟩ := more
                obtain ⟨g, p', hg, hrest⟩ := reads_behind_blockComment hreads hcut
                obtain ⟨tail, -, hsplit, hne⟩ := Segment.cutComment_spec hcut
                have htail := List.length_pos_iff.mpr (hne (List.cons_ne_nil _ _))
                have hlength := congrArg List.length hsplit
                rw [List.length_append] at hlength
                have hnewline : '\n' ∉ rest := fun m => hcontent (hsplit ▸ List.mem_append_right _ m)
                exact reads_behind_line ⟨g, p', ts, hg, hrest⟩ hnewline (by omega)
          · simp
  | fuel + 1, done, false, c :: content, h, hcontent, hfuel => by
      obtain ⟨g, p, ts, hg, hreads⟩ := h
      have hcontent' : '\n' ∉ content := fun m => hcontent (List.mem_cons_of_mem _ m)
      rw [List.length_cons] at hfuel
      cases hg with
      | between =>
          rcases reads_behind_segment hreads hcontent' with
            ⟨s, rest, inComment, hnext, hrest⟩ | ⟨d, rest, rfl, hnext, hnext', hrest⟩
          · obtain ⟨tail, -, hsplit⟩ := Segment.next_spec hnext
            have hlength := congrArg List.length hsplit
            rw [List.length_append] at hlength
            have hnewline : '\n' ∉ rest := fun m => hcontent' (hsplit ▸ List.mem_append_right _ m)
            rw [Segment.cut, hnext]
            exact reads_behind_line hrest hnewline (by omega)
          · have hnewline : '\n' ∉ rest := fun m => hcontent' (List.mem_cons_of_mem _ m)
            rw [List.length_cons] at hfuel
            obtain ⟨fuel, rfl⟩ : ∃ n, fuel = n + 1 := ⟨fuel - 1, by omega⟩
            rw [Segment.cut, hnext]
            simp only
            rw [Segment.cut, hnext']
            exact reads_behind_line hrest hnewline (by omega)

/-- No line is taken for a directive outside comments: no lexeme begins with the sign. -/
theorem ofLine?_eq_none {ts : List Token} {rest : List Char} :
    ∀ {content : List Char} {p : Pos}, Reads .between p (content ++ rest) ts →
      Directive.ofLine? content = none
  | [], _, _ => rfl
  | c :: content, p, h => by
      by_cases hblank : Text.isBlank c = true
      · have hdrop : Text.dropBlanks (c :: content) = Text.dropBlanks content :=
          List.dropWhile_cons_of_pos hblank
        rw [Directive.ofLine?, hdrop]
        exact ofLine?_eq_none (h.of_blank hblank)
      · have hdrop : Text.dropBlanks (c :: content) = c :: content :=
          List.dropWhile_cons_of_neg hblank
        rw [Directive.ofLine?, hdrop]
        split
        · next hcs =>
            obtain ⟨rfl, -⟩ := List.cons.inj hcs
            obtain ⟨l, ts', hscan, -⟩ :=
              h.exists_lexeme (by decide) fun hopens => absurd hopens.1 (by decide)
            obtain ⟨tail, -, hshape⟩ := Lexeme.spans_of_scan hscan
            cases hshape with
            | symbol hkind => cases hkind
            | operator hkind => cases hkind
            | quoted hc _ => exact absurd hc (by decide)
            | parts hc _ => exact absurd hc (by decide)
        · rfl

end ProbeLang
