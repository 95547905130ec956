import ProbeLang.Proofs.Token.Forms

/-!
# Reading a text character by character

`Reads g p cs ts` says that the text `cs`, met at `p` in the gap `g`, has the tokens `ts`. The
relation takes one character of a gap, or one lexeme, at a time, where `Token.scan` alternates
between whole gaps and lexemes on fuel; `scan_iff_reads` shows that the two agree.
-/

namespace ProbeLang

/-! ## What a lexeme depends on

A lexeme is read from the characters at the head of a text. It never reaches past a line feed,
it never ends in a carriage return, and of what stands behind it at most the first character
matters. So the same lexeme is read when the text behind it is replaced by one that begins in
the same way, by a new line, or by nothing. -/

/-- A text that can stand behind a lexeme in place of `cs`. -/
def Follows (cs cs' : List Char) : Prop :=
  ∀ d ∈ cs'.head?, d = '\n' ∨ d ∈ cs.head?

/-- Behind the characters that are the longest of a class without line feeds may stand whatever
follows. -/
theorem Longest.follows {p : List Char → Prop} {cs rest rest' : List Char} (hp : Stepwise p)
    (hline : ∀ cs, p cs → '\n' ∉ cs) (h : Longest p cs rest) (hrest : Follows rest rest') :
    Longest p cs rest' := by
  rw [longest_iff hp] at h ⊢
  refine ⟨h.1, fun d hd hmore => ?_⟩
  rcases hrest d hd with rfl | hmem
  · exact hline _ hmore (List.mem_append_right _ (List.mem_singleton_self _))
  · exact h.2 d hmem hmore

namespace Lexeme

/-- The text behind `c` begins with `tail`, and `c :: tail` is what the lexeme is read from. -/
structure Spans (p : Pos) (c : Char) (cs : List Char) (l : Lexeme) (tail : List Char) : Prop where
  split : cs = tail ++ l.rest
  chars : l.chars = c :: tail
  newline : '\n' ∉ l.chars
  last : l.chars.getLast? ≠ some '\r'
  again : ∀ cs', Follows l.rest cs' → scan p c (tail ++ cs') = .ok { l with rest := cs' }

/-- The characters of a literal behind its opening quote. -/
inductive Quoted (quote : Char) : List Char → Prop
  | close : Quoted quote [quote]
  | escape {c : Char} {cs : List Char} (hc : c ≠ '\n') :
      Quoted quote cs → Quoted quote ('\\' :: c :: cs)
  | plain {c : Char} {cs : List Char} (hquote : c ≠ quote) (hslash : c ≠ '\\') (hc : c ≠ '\n') :
      Quoted quote cs → Quoted quote (c :: cs)

theorem Quoted.newline_not_mem {quote : Char} (hquote : quote ≠ '\n') :
    ∀ {cs : List Char}, Quoted quote cs → '\n' ∉ cs := by
  intro cs h
  induction h with
  | close => simpa using hquote.symm
  | escape hc _ ih => simpa [ih] using hc.symm
  | plain _ _ hc _ ih => simpa [ih] using hc.symm

theorem Quoted.getLast? {quote : Char} {cs : List Char} (h : Quoted quote cs) (read : List Char) :
    (read ++ cs).getLast? = some quote := by
  induction h generalizing read with
  | close => simp
  | @escape c cs _ _ ih => simpa using ih (read ++ ['\\', c])
  | @plain c cs _ _ _ _ ih => simpa using ih (read ++ [c])

theorem newline_ne_of_escape? {c e : Char} (h : escape? c = some e) : c ≠ '\n' := by
  rintro rfl
  simp [escape?] at h

/-- A literal is quoted whatever its characters stand for. -/
theorem Unescapes.quoted {quote : Char} {body content : List Char}
    (h : Unescapes quote body content) : Quoted quote (body ++ [quote]) := by
  induction h with
  | nil => exact .close
  | escape hc _ ih => exact .escape (newline_ne_of_escape? hc) ih
  | plain hquote hslash hline _ ih => exact .plain hquote hslash hline ih

/-- How a lexeme that begins with `c` goes on. -/
inductive Shape (c : Char) : List Char → Prop
  | symbol {kind : Token.Kind} (hkind : oneCharKind? c = some kind) : Shape c []
  | operator {d : Char} {kind : Token.Kind} (hkind : twoCharKind? c d = some kind) : Shape c [d]
  | quoted {tail : List Char} (hc : c = '"' ∨ c = '\'') (htail : Quoted c tail) : Shape c tail
  | parts {tail : List Char} (hc : c.isDigit = true ∨ isWordStart c = true)
      (htail : ∀ d ∈ tail, isWordPart d = true) : Shape c tail

theorem Shape.quoted_of {c : Char} {tail : List Char} (h : Shape c tail)
    (hc : c = '"' ∨ c = '\'') : Quoted c tail := by
  have hmark : ¬ IsMark c := by
    rcases hc with rfl | rfl <;> simp [IsMark]
  cases h with
  | symbol hkind => exact absurd (isMark_of_oneCharKind? hkind) hmark
  | operator hkind => exact absurd (isMark_of_twoCharKind? hkind).1 hmark
  | quoted _ htail => exact htail
  | parts hstart _ => rcases hc with rfl | rfl <;> exact absurd hstart (by decide)

variable {p : Pos} {c : Char} {cs rest rest' tail content : List Char} {kind : Token.Kind}
  {l : Lexeme}

/-! ### What the shape of a lexeme tells -/

/-- A lexeme has no line feed and does not end in a carriage return. -/
theorem Shape.ends_no_line (h : Shape c tail) :
    '\n' ∉ c :: tail ∧ (c :: tail).getLast? ≠ some '\r' := by
  cases h with
  | symbol hkind =>
      have hc := isMark_of_oneCharKind? hkind
      exact ⟨by simpa using hc.2.2.2.1.symm, by simpa using hc.2.2.2.2⟩
  | operator hkind =>
      obtain ⟨hc, hd, -, -⟩ := isMark_of_twoCharKind? hkind
      exact ⟨by simpa using ⟨hc.2.2.2.1.symm, hd.2.2.2.1.symm⟩, by simpa using hd.2.2.2.2⟩
  | quoted hc htail =>
      constructor
      · rcases hc with rfl | rfl <;> simpa using htail.newline_not_mem (by decide)
      · rw [← List.singleton_append, htail.getLast?]
        rcases hc with rfl | rfl <;> decide
  | parts hc htail =>
      have hpart : isWordPart c = true := hc.elim isWordPart_of_isDigit isWordPart_of_isWordStart
      have hparts : ∀ d ∈ c :: tail, isWordPart d = true := List.forall_mem_cons.mpr ⟨hpart, htail⟩
      constructor
      · intro hmem
        exact absurd (hparts _ hmem) (by decide)
      · intro hlast
        exact absurd (hparts _ (List.mem_of_getLast? hlast)) (by decide)

namespace Form

theorem shape (h : Form rest (c :: tail) kind content) : Shape c tail := by
  generalize hchars : c :: tail = chars at h
  cases h with
  | word h =>
      obtain ⟨⟨d, hd, hstart⟩, hparts⟩ := h.holds
      subst hchars
      cases hd
      exact .parts (.inr hstart) (List.forall_mem_cons.mp hparts).2
  | int _ h _ | long _ _ h _ =>
      rw [← hchars] at h
      have hdigit := h.holds.head c rfl
      refine .parts (.inl hdigit) fun d hd => ?_
      rcases h.holds.isDigit_or d (List.mem_cons_of_mem _ hd) with hd | rfl | rfl
      · exact isWordPart_of_isDigit hd
      · decide
      · decide
  | symbol hkind _ =>
      subst hchars
      have hsign := signKind?_of_mem hkind
      match tail, hsign with
      | [], hsign => exact .symbol hsign
      | [d], hsign => exact .operator hsign
  | string h =>
      obtain ⟨rfl, rfl⟩ := List.cons.inj hchars
      exact .quoted (.inl rfl) h.quoted
  | char h =>
      obtain ⟨rfl, rfl⟩ := List.cons.inj hchars
      exact .quoted (.inr rfl) h.quoted

/-- A lexeme is one in front of whatever may stand behind it. -/
theorem follows (h : Form rest cs kind content) (hrest : Follows rest rest') :
    Form rest' cs kind content := by
  have hnumber : ∀ cs, IsNumber cs → '\n' ∉ cs := by
    intro cs hcs hline
    exact absurd (hcs.isDigit_or _ hline) (by decide)
  cases h with
  | word h =>
      refine .word (h.follows stepwise_isWord (fun cs hcs hline => ?_) hrest)
      exact absurd (hcs.2 _ hline) (by decide)
  | int hdigits h hvalue => exact .int hdigits (h.follows stepwise_isNumber hnumber hrest) hvalue
  | long hdigits hmark h hvalue =>
      exact .long hdigits hmark (h.follows stepwise_isNumber hnumber hrest) hvalue
  | symbol hkind h =>
      refine .symbol hkind (h.follows stepwise_isSymbol (fun cs hcs hline => ?_) hrest)
      obtain ⟨kind, hmem⟩ := hcs
      have hsymbols : ∀ sign ∈ Token.symbols, '\n' ∉ sign.1.toList := by
        decide
      have hsign := hsymbols _ hmem
      rw [String.toList_ofList] at hsign
      exact hsign hline
  | string h => exact .string h
  | char h => exact .char h

end Form

/-- Every lexeme is read from the characters at the head of the text. -/
theorem spans_of_scan (h : scan p c cs = .ok l) : ∃ tail, Spans p c cs l tail ∧ Shape c tail := by
  obtain ⟨hsplit, hform⟩ := form_of_scan h
  obtain ⟨kind, content, chars, rest⟩ := l
  obtain ⟨d, tail, rfl⟩ := List.exists_cons_of_ne_nil hform.ne_nil
  obtain ⟨rfl, rfl⟩ := List.cons.inj hsplit
  obtain ⟨hline, hreturn⟩ := hform.shape.ends_no_line
  exact ⟨tail, ⟨rfl, rfl, hline, hreturn, fun rest' hrest => (hform.follows hrest).scan p⟩,
    hform.shape⟩

end Lexeme

/-! ## Reading -/

/-- A comment begins with `c` in front of `cs`. -/
def OpensComment (c : Char) (cs : List Char) : Prop :=
  c = '/' ∧ (cs.head? = some '/' ∨ cs.head? = some '*')

/-- The tokens of a text from a place in it on. -/
inductive Reads : Gap → Pos → List Char → List Token → Prop
  | stop {p : Pos} : Reads .between p [] [⟨.eof, "", p⟩]
  | blank {p : Pos} {c : Char} {cs : List Char} {ts : List Token} (hc : Text.isBlank c = true) :
      Reads .between (p.advance c) cs ts → Reads .between p (c :: cs) ts
  | openLine {p : Pos} {cs : List Char} {ts : List Token} :
      Reads .lineComment ((p.advance '/').advance '/') cs ts →
        Reads .between p ('/' :: '/' :: cs) ts
  | openBlock {p : Pos} {cs : List Char} {ts : List Token} :
      Reads (.blockComment p) ((p.advance '/').advance '*') cs ts →
        Reads .between p ('/' :: '*' :: cs) ts
  | lexeme {p : Pos} {c : Char} {cs : List Char} {ts : List Token} {l : Lexeme}
      (hblank : Text.isBlank c = false) (hopens : ¬ OpensComment c cs)
      (hscan : Lexeme.scan p c cs = .ok l) :
      Reads .between (p.advanceAll l.chars) l.rest ts →
        Reads .between p (c :: cs) (⟨l.kind, String.ofList l.content, p⟩ :: ts)
  | lineStop {p : Pos} : Reads .lineComment p [] [⟨.eof, "", p⟩]
  | lineEnd {p : Pos} {cs : List Char} {ts : List Token} :
      Reads .between (p.advance '\n') cs ts → Reads .lineComment p ('\n' :: cs) ts
  | lineChar {p : Pos} {c : Char} {cs : List Char} {ts : List Token} (hc : c ≠ '\n') :
      Reads .lineComment (p.advance c) cs ts → Reads .lineComment p (c :: cs) ts
  | closeBlock {opened p : Pos} {cs : List Char} {ts : List Token} :
      Reads .between ((p.advance '*').advance '/') cs ts →
        Reads (.blockComment opened) p ('*' :: '/' :: cs) ts
  | blockChar {opened p : Pos} {c : Char} {cs : List Char} {ts : List Token}
      (hc : ¬ (c = '*' ∧ cs.head? = some '/')) :
      Reads (.blockComment opened) (p.advance c) cs ts →
        Reads (.blockComment opened) p (c :: cs) ts

theorem Reads.of_blank {p : Pos} {c : Char} {cs : List Char} {ts : List Token}
    (h : Reads .between p (c :: cs) ts) (hc : Text.isBlank c = true) :
    Reads .between (p.advance c) cs ts := by
  cases h with
  | blank _ h => exact h
  | openLine _ => exact absurd hc (by decide)
  | openBlock _ => exact absurd hc (by decide)
  | lexeme hblank _ _ _ => exact absurd hc (Bool.eq_false_iff.mp hblank)

theorem Reads.exists_lexeme {p : Pos} {c : Char} {cs : List Char} {ts : List Token}
    (h : Reads .between p (c :: cs) ts) (hblank : Text.isBlank c = false)
    (hopens : ¬ OpensComment c cs) :
    ∃ l ts', Lexeme.scan p c cs = .ok l ∧ Reads .between (p.advanceAll l.chars) l.rest ts' := by
  cases h with
  | blank hc _ => exact absurd hc (Bool.eq_false_iff.mp hblank)
  | openLine _ => exact absurd ⟨rfl, .inl rfl⟩ hopens
  | openBlock _ => exact absurd ⟨rfl, .inr rfl⟩ hopens
  | lexeme _ _ hscan h => exact ⟨_, _, hscan, h⟩

/-! ### What a scan reads -/

theorem skipGap_between {p : Pos} {c : Char} {cs : List Char} (hopens : ¬ OpensComment c cs) :
    skipGap .between p (c :: cs) =
      if Text.isBlank c then skipGap .between (p.advance c) cs else .ok (p, c :: cs) := by
  rw [skipGap.eq_def]
  split
  · next hcs => cases hcs; exact absurd ⟨rfl, .inl rfl⟩ hopens
  · next hcs => cases hcs; exact absurd ⟨rfl, .inr rfl⟩ hopens
  · next hcs => cases hcs; rfl
  · next hcs => cases hcs
  · next hg _ => cases hg
  · next hg _ => cases hg
  · next hg _ => cases hg
  · next hg _ => cases hg
  · next hg _ => cases hg

theorem skipGap_blank {p : Pos} {c : Char} {cs : List Char} (hc : Text.isBlank c = true) :
    skipGap .between p (c :: cs) = skipGap .between (p.advance c) cs := by
  rw [skipGap_between, if_pos hc]
  rintro ⟨rfl, -⟩
  revert hc
  decide

theorem skipGap_lineChar {p : Pos} {c : Char} {cs : List Char} (hc : c ≠ '\n') :
    skipGap .lineComment p (c :: cs) = skipGap .lineComment (p.advance c) cs := by
  show skipGap (if c = '\n' then .between else .lineComment) (p.advance c) cs = _
  rw [if_neg hc]

theorem skipGap_blockChar {opened p : Pos} {c : Char} {cs : List Char}
    (hc : ¬ (c = '*' ∧ cs.head? = some '/')) :
    skipGap (.blockComment opened) p (c :: cs) =
      skipGap (.blockComment opened) (p.advance c) cs := by
  rw [skipGap.eq_def]
  split
  · next hg _ => cases hg
  · next hg _ => cases hg
  · next hg _ => cases hg
  · next hg _ => cases hg
  · next hg _ => cases hg
  · next hg _ => cases hg
  · next hcs => cases hcs; exact absurd ⟨rfl, rfl⟩ hc
  · next hg hcs => cases hg; cases hcs; rfl
  · next hcs => cases hcs

theorem reads_of_skipGap {g : Gap} {p p' : Pos} {cs cs' : List Char} {ts : List Token}
    (h : skipGap g p cs = .ok (p', cs')) (hreads : Reads .between p' cs' ts) : Reads g p cs ts := by
  fun_induction skipGap g p cs with
  | case1 p cs ih => exact .openLine (ih h)
  | case2 p cs ih => exact .openBlock (ih h)
  | case3 p c cs hline hblock hc ih => exact .blank hc (ih h)
  | case4 p c cs hline hblock hc =>
      cases h
      exact hreads
  | case5 p =>
      cases h
      exact hreads
  | case6 p c cs ih =>
      by_cases hc : c = '\n'
      · rw [if_pos hc] at ih h
        exact hc ▸ .lineEnd (hc ▸ ih h)
      · rw [if_neg hc] at ih h
        exact .lineChar hc (ih h)
  | case7 p =>
      cases h
      cases hreads
      exact .lineStop
  | case8 opened p cs ih => exact .closeBlock (ih h)
  | case9 opened p c cs hclose ih =>
      refine .blockChar (fun hc => ?_) (ih h)
      obtain ⟨rest, hrest⟩ := List.head?_eq_some_iff.mp hc.2
      exact hclose rest hc.1 hrest
  | case10 => cases h

theorem head_of_skipGap {g : Gap} {p p' : Pos} {c : Char} {cs cs' : List Char}
    (h : skipGap g p cs = .ok (p', c :: cs')) : Text.isBlank c = false ∧ ¬ OpensComment c cs' := by
  fun_induction skipGap g p cs with
  | case4 p d cs hline hblock hc =>
      cases h
      refine ⟨Bool.eq_false_iff.mpr hc, fun hopens => ?_⟩
      rcases hopens.2 with hhead | hhead
      · obtain ⟨rest, hrest⟩ := List.head?_eq_some_iff.mp hhead
        exact hline rest hopens.1 hrest
      · obtain ⟨rest, hrest⟩ := List.head?_eq_some_iff.mp hhead
        exact hblock rest hopens.1 hrest
  | case1 _ _ ih => exact ih h
  | case2 _ _ ih => exact ih h
  | case3 _ _ _ _ _ _ ih => exact ih h
  | case5 => cases h
  | case6 _ _ _ ih => exact ih h
  | case7 => cases h
  | case8 _ _ _ ih => exact ih h
  | case9 _ _ _ _ _ ih => exact ih h
  | case10 => cases h

/-- What is passed in a gap is what is in front of the text that is left. -/
theorem split_of_skipGap {g : Gap} {p p' : Pos} {cs cs' : List Char}
    (h : skipGap g p cs = .ok (p', cs')) : ∃ gap, cs = gap ++ cs' ∧ p' = p.advanceAll gap := by
  fun_induction skipGap g p cs with
  | case1 _ _ ih | case2 _ _ ih | case8 _ _ _ ih =>
      obtain ⟨gap, rfl, rfl⟩ := ih h
      exact ⟨_ :: _ :: gap, rfl, rfl⟩
  | case3 _ _ _ _ _ _ ih | case6 _ _ _ ih | case9 _ _ _ _ _ ih =>
      obtain ⟨gap, rfl, rfl⟩ := ih h
      exact ⟨_ :: gap, rfl, rfl⟩
  | case4 | case5 | case7 =>
      cases h
      exact ⟨[], rfl, rfl⟩
  | case10 => cases h

theorem Lexeme.Spans.length_rest {p : Pos} {c : Char} {cs tail : List Char} {l : Lexeme}
    (h : l.Spans p c cs tail) : l.rest.length ≤ cs.length := by
  rw [h.split, List.length_append]
  exact Nat.le_add_left _ _

namespace Token

/-- Read tokens from within a gap: the rest of the gap first, then one lexeme, then the rest. -/
def scanBehind (fuel : Nat) (done : List Token) (g : Gap) (p : Pos) (cs : List Char) :
    Except SyntaxError (List Token) := do
  match ← skipGap g p cs with
  | (p, []) => .ok (⟨.eof, "", p⟩ :: done).reverse
  | (p, c :: rest) =>
      let lexeme ← Lexeme.scan p c rest
      let token := ⟨lexeme.kind, String.ofList lexeme.content, p⟩
      scanFrom fuel (token :: done) (p.advanceAll lexeme.chars) lexeme.rest

theorem scanFrom_succ (fuel : Nat) (done : List Token) (p : Pos) (cs : List Char) :
    scanFrom (fuel + 1) done p cs = scanBehind fuel done .between p cs := rfl

theorem reads_of_scanFrom : ∀ {fuel : Nat} {done : List Token} {p : Pos} {cs : List Char}
    {tokens : List Token}, scanFrom fuel done p cs = .ok tokens → cs.length < fuel →
      ∃ ts, tokens = done.reverse ++ ts ∧ Reads .between p cs ts
  | fuel + 1, done, p, cs, tokens, h, hfuel => by
      rw [scanFrom_succ, scanBehind] at h
      cases hgap : skipGap .between p cs with
      | error e =>
          rw [hgap] at h
          cases h
      | ok place =>
          obtain ⟨p', cs'⟩ := place
          rw [hgap] at h
          cases cs' with
          | nil =>
              cases h
              exact ⟨_, List.reverse_cons .., reads_of_skipGap hgap .stop⟩
          | cons c rest =>
              cases hscan : Lexeme.scan p' c rest with
              | error e =>
                  simp only [bind, Except.bind, hscan] at h
                  cases h
              | ok l =>
                  simp only [bind, Except.bind, hscan] at h
                  obtain ⟨tail, hspans, -⟩ := Lexeme.spans_of_scan hscan
                  have hrest := hspans.length_rest
                  obtain ⟨gap, rfl, -⟩ := split_of_skipGap hgap
                  rw [List.length_append, List.length_cons] at hfuel
                  obtain ⟨ts, rfl, hreads⟩ := reads_of_scanFrom h (by omega)
                  obtain ⟨hblank, hopens⟩ := head_of_skipGap hgap
                  refine ⟨_, ?_, reads_of_skipGap hgap (.lexeme hblank hopens hscan hreads)⟩
                  rw [List.reverse_cons, List.append_assoc, List.singleton_append]

theorem scanBehind_congr {g g' : Gap} {p p' : Pos} {cs cs' : List Char}
    (h : skipGap g p cs = skipGap g' p' cs') (fuel : Nat) (done : List Token) :
    scanBehind fuel done g p cs = scanBehind fuel done g' p' cs' := by
  rw [scanBehind, scanBehind, h]

theorem scanBehind_of_reads {g : Gap} {p : Pos} {cs : List Char} {ts : List Token}
    (h : Reads g p cs ts) : ∀ {fuel : Nat} (done : List Token), cs.length ≤ fuel →
      scanBehind fuel done g p cs = .ok (done.reverse ++ ts) := by
  induction h with
  | @stop p =>
      intro fuel done _
      exact congrArg Except.ok List.reverse_cons
  | @lineStop p =>
      intro fuel done _
      exact congrArg Except.ok List.reverse_cons
  | @blank p c cs ts hc _ ih =>
      intro fuel done hfuel
      rw [scanBehind_congr (skipGap_blank hc)]
      exact ih done (Nat.le_of_succ_le hfuel)
  | openLine _ ih =>
      intro fuel done hfuel
      exact ih done (Nat.le_of_succ_le (Nat.le_of_succ_le hfuel))
  | openBlock _ ih =>
      intro fuel done hfuel
      exact ih done (Nat.le_of_succ_le (Nat.le_of_succ_le hfuel))
  | lineEnd _ ih =>
      intro fuel done hfuel
      exact ih done (Nat.le_of_succ_le hfuel)
  | lineChar hc _ ih =>
      intro fuel done hfuel
      rw [scanBehind_congr (skipGap_lineChar hc)]
      exact ih done (Nat.le_of_succ_le hfuel)
  | closeBlock _ ih =>
      intro fuel done hfuel
      exact ih done (Nat.le_of_succ_le (Nat.le_of_succ_le hfuel))
  | blockChar hc _ ih =>
      intro fuel done hfuel
      rw [scanBehind_congr (skipGap_blockChar hc)]
      exact ih done (Nat.le_of_succ_le hfuel)
  | @lexeme p c cs ts l hblank hopens hscan _ ih =>
      intro fuel done hfuel
      obtain ⟨tail, hspans, -⟩ := Lexeme.spans_of_scan hscan
      have hrest := hspans.length_rest
      rw [List.length_cons] at hfuel
      obtain ⟨fuel, rfl⟩ : ∃ n, fuel = n + 1 := ⟨fuel - 1, by omega⟩
      have hnext := @ih fuel (⟨l.kind, String.ofList l.content, p⟩ :: done) (by omega)
      rw [scanBehind, skipGap_between hopens, hblank, if_neg Bool.false_ne_true]
      simp only [bind, Except.bind, hscan, scanFrom_succ]
      rw [hnext, List.reverse_cons, List.append_assoc, List.singleton_append]

/-- The tokens of a text are those that it has when read from its start. -/
theorem scan_iff_reads {text : String} {tokens : List Token} :
    scan text = .ok tokens ↔ Reads .between .start text.toList tokens := by
  constructor
  · intro h
    obtain ⟨ts, rfl, hreads⟩ := reads_of_scanFrom h (Nat.lt_succ_self _)
    exact hreads
  · intro h
    exact scanBehind_of_reads h [] (Nat.le_refl _)

end Token

end ProbeLang
