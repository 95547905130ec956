import ProbeLang.Proofs.Fallible
import ProbeLang.Proofs.Token.Forms
import ProbeLang.Proofs.Token.Reading

/-!
# Texts in parts

A text with tokens is made of blanks, comments and lexemes (`Token.Splits`). Each lexeme gives a
token, which stands where the lines and columns of what is before it say (`Pos.behind`), and the
last token stands behind the whole text. A text has just the tokens of such a division of it
(`Token.scan_iff_splits`), and what is wrong with a text that has none is found at one of its
characters.
-/

namespace ProbeLang

namespace Pos

/-- The place behind the beginning of a text: one more than the line feeds in it, and one more than
the characters behind the last of them. -/
def behind (before : List Char) : Pos :=
  ⟨before.count '\n' + 1, (before.reverse.takeWhile (· ≠ '\n')).length + 1⟩

/-- Whether a place comes before another one in a text. -/
def Before (p q : Pos) : Prop :=
  p.line < q.line ∨ p.line = q.line ∧ p.col < q.col

variable {p q r : Pos} {c : Char} {cs before : List Char}

theorem behind_concat (before : List Char) (c : Char) :
    behind (before ++ [c]) = (behind before).advance c := by
  by_cases hc : c = '\n'
  · rw [advance, if_pos hc]
    simp [behind, hc]
  · rw [advance, if_neg hc]
    simp [behind, hc]

theorem behind_append : ∀ (cs before : List Char),
    behind (before ++ cs) = (behind before).advanceAll cs
  | [], before => by rw [List.append_nil, advanceAll_nil]
  | c :: cs, before => by
      rw [advanceAll_cons, ← behind_concat, ← behind_append cs, List.append_assoc,
        List.singleton_append]

theorem Before.trans (h : p.Before q) (h' : q.Before r) : p.Before r := by
  unfold Before at *
  omega

theorem before_advance (p : Pos) (c : Char) : p.Before (p.advance c) := by
  by_cases hc : c = '\n'
  · rw [advance, if_pos hc]
    exact .inl (Nat.lt_succ_self _)
  · rw [advance, if_neg hc]
    exact .inr ⟨rfl, Nat.lt_succ_self _⟩

/-- Every character moves the place on. -/
theorem before_advanceAll : ∀ (cs : List Char) (p : Pos) (c : Char),
    p.Before (p.advanceAll (c :: cs))
  | [], p, c => before_advance p c
  | d :: cs, p, c => (before_advance p c).trans (before_advanceAll cs (p.advance c) d)

end Pos

namespace Token

/-- The tokens of a text that stands behind another one, by its parts. -/
inductive Splits : List Char → List Char → List Token → Prop
  | stop {before : List Char} : Splits before [] [⟨.eof, "", .behind before⟩]
  | blank {before cs : List Char} {c : Char} {ts : List Token} (hc : Text.isBlank c = true) :
      Splits (before ++ [c]) cs ts → Splits before (c :: cs) ts
  | lineComment {before body cs : List Char} {ts : List Token} (hbody : '\n' ∉ body)
      (hcs : ∀ d ∈ cs.head?, d = '\n') :
      Splits (before ++ '/' :: '/' :: body) cs ts → Splits before ('/' :: '/' :: body ++ cs) ts
  | blockComment {before body cs : List Char} {ts : List Token} (hbody : ¬ ['*', '/'] <:+: body) :
      Splits (before ++ '/' :: '*' :: body ++ ['*', '/']) cs ts →
        Splits before ('/' :: '*' :: body ++ '*' :: '/' :: cs) ts
  | lexeme {before tail rest content : List Char} {c : Char} {kind : Kind} {ts : List Token}
      (hopens : ¬ OpensComment c (tail ++ rest))
      (hform : Lexeme.Form rest (c :: tail) kind content) :
      Splits (before ++ c :: tail) rest ts →
        Splits before (c :: tail ++ rest) (⟨kind, String.ofList content, .behind before⟩ :: ts)

variable {p : Pos} {c : Char} {before body cs rest : List Char} {ts : List Token}

/-! ## Parts and characters -/

theorem reads_lineComment : ∀ {body : List Char} {p : Pos}, '\n' ∉ body →
    (∀ d ∈ cs.head?, d = '\n') → Reads .between (p.advanceAll body) cs ts →
    Reads .lineComment p (body ++ cs) ts
  | [], p, _, hcs, h => by
      cases cs with
      | nil =>
          cases h
          exact .lineStop
      | cons d cs =>
          obtain rfl : d = '\n' := hcs d rfl
          exact .lineEnd (h.of_blank rfl)
  | c :: body, p, hbody, hcs, h => by
      rw [List.mem_cons, not_or] at hbody
      exact .lineChar (Ne.symm hbody.1) (reads_lineComment hbody.2 hcs h)

theorem reads_blockComment {opened : Pos} : ∀ {body : List Char} {p : Pos},
    ¬ ['*', '/'] <:+: body → Reads .between (p.advanceAll (body ++ ['*', '/'])) cs ts →
    Reads (.blockComment opened) p (body ++ '*' :: '/' :: cs) ts
  | [], p, _, h => .closeBlock h
  | c :: body, p, hbody, h => by
      rw [List.infix_cons_iff, not_or] at hbody
      refine .blockChar ?_ (reads_blockComment hbody.2 h)
      rintro ⟨rfl, hhead⟩
      cases body with
      | nil => cases hhead
      | cons d body =>
          cases hhead
          exact hbody.1 ⟨body, rfl⟩

theorem reads_of_splits (h : Splits before cs ts) : Reads .between (.behind before) cs ts := by
  induction h with
  | stop => exact .stop
  | blank hc _ ih =>
      rw [Pos.behind_concat] at ih
      exact .blank hc ih
  | lineComment hbody hcs _ ih =>
      rw [Pos.behind_append] at ih
      exact .openLine (reads_lineComment hbody hcs ih)
  | blockComment hbody _ ih =>
      rw [List.append_assoc, Pos.behind_append] at ih
      exact .openBlock (reads_blockComment hbody ih)
  | lexeme hopens hform _ ih =>
      rw [Pos.behind_append] at ih
      exact .lexeme hform.isBlank hopens (hform.scan _) ih

/-- The tokens of a text that begins in the middle of a gap, by its parts. -/
def SplitsIn (before cs : List Char) (ts : List Token) : Gap → Prop
  | .between => Splits before cs ts
  | .lineComment => ∃ body rest, cs = body ++ rest ∧ '\n' ∉ body ∧ (∀ d ∈ rest.head?, d = '\n') ∧
      Splits (before ++ body) rest ts
  | .blockComment _ => ∃ body rest, cs = body ++ '*' :: '/' :: rest ∧ ¬ ['*', '/'] <:+: body ∧
      Splits (before ++ body ++ ['*', '/']) rest ts

theorem splits_of_reads {g : Gap} (h : Reads g p cs ts) :
    ∀ before, p = .behind before → SplitsIn before cs ts g := by
  induction h with
  | stop =>
      rintro before rfl
      exact .stop
  | blank hc _ ih =>
      rintro before rfl
      exact .blank hc (ih _ (Pos.behind_concat before _).symm)
  | openLine _ ih =>
      rintro before rfl
      obtain ⟨body, rest, rfl, hbody, hrest, hsplits⟩ :=
        ih (before ++ ['/', '/']) (Pos.behind_append ['/', '/'] before).symm
      rw [List.append_assoc] at hsplits
      exact .lineComment hbody hrest hsplits
  | openBlock _ ih =>
      rintro before rfl
      obtain ⟨body, rest, rfl, hbody, hsplits⟩ :=
        ih (before ++ ['/', '*']) (Pos.behind_append ['/', '*'] before).symm
      rw [List.append_assoc before] at hsplits
      exact .blockComment hbody hsplits
  | @lexeme p c cs ts l hblank hopens hscan _ ih =>
      rintro before rfl
      obtain ⟨hsplit, hform⟩ := Lexeme.form_of_scan hscan
      have hsplits := ih (before ++ l.chars) (Pos.behind_append _ _).symm
      obtain ⟨d, tail, hchars⟩ := List.exists_cons_of_ne_nil hform.ne_nil
      rw [hchars] at hsplit hform hsplits
      obtain ⟨rfl, rfl⟩ := List.cons.inj hsplit
      exact .lexeme hopens hform hsplits
  | lineStop =>
      rintro before rfl
      refine ⟨[], [], rfl, List.not_mem_nil, nofun, ?_⟩
      rw [List.append_nil]
      exact .stop
  | lineEnd _ ih =>
      rintro before rfl
      refine ⟨[], _, rfl, List.not_mem_nil, ?_, ?_⟩
      · rintro d ⟨⟩
        rfl
      · rw [List.append_nil]
        exact .blank rfl (ih _ (Pos.behind_concat before _).symm)
  | @lineChar p c cs ts hc _ ih =>
      rintro before rfl
      obtain ⟨body, rest, rfl, hbody, hrest, hsplits⟩ := ih _ (Pos.behind_concat before _).symm
      rw [List.append_assoc] at hsplits
      exact ⟨c :: body, rest, rfl, List.not_mem_cons_of_ne_of_not_mem (Ne.symm hc) hbody, hrest,
        hsplits⟩
  | closeBlock _ ih =>
      rintro before rfl
      refine ⟨[], _, rfl, by simp, ?_⟩
      rw [List.append_nil]
      exact ih _ (Pos.behind_append ['*', '/'] before).symm
  | @blockChar opened p c cs ts hc _ ih =>
      rintro before rfl
      obtain ⟨body, rest, rfl, hbody, hsplits⟩ := ih _ (Pos.behind_concat before _).symm
      rw [List.append_assoc before] at hsplits
      refine ⟨c :: body, rest, rfl, ?_, hsplits⟩
      rw [List.infix_cons_iff, not_or]
      refine ⟨?_, hbody⟩
      rintro ⟨more, hmore⟩
      obtain ⟨rfl, htail⟩ := List.cons.inj hmore
      exact hc ⟨rfl, by rw [← htail]; rfl⟩

/-- A text has just the tokens of its parts. -/
theorem scan_iff_splits {text : String} {tokens : List Token} :
    scan text = .ok tokens ↔ Splits [] text.toList tokens := by
  rw [scan_iff_reads]
  constructor
  · intro h
    exact splits_of_reads h [] rfl
  · intro h
    exact reads_of_splits h

/-! ## Places of tokens -/

namespace Splits

/-- Every token stands behind what is before the text. -/
theorem pos_eq (h : Splits before cs ts) : ∀ t ∈ ts, ∃ more, t.pos = .behind (before ++ more) := by
  induction h with
  | @stop before =>
      refine List.forall_mem_singleton.mpr ⟨[], ?_⟩
      rw [List.append_nil]
  | blank _ _ ih | lineComment _ _ _ ih | blockComment _ _ ih =>
      intro t ht
      obtain ⟨more, hmore⟩ := ih t ht
      simp only [List.append_assoc] at hmore
      exact ⟨_, hmore⟩
  | lexeme _ _ _ ih =>
      refine List.forall_mem_cons.mpr ⟨⟨[], by rw [List.append_nil]⟩, fun t ht => ?_⟩
      obtain ⟨more, hmore⟩ := ih t ht
      rw [List.append_assoc] at hmore
      exact ⟨_, hmore⟩

theorem pairwise (h : Splits before cs ts) : ts.Pairwise fun t t' => t.pos.Before t'.pos := by
  induction h with
  | stop => exact List.pairwise_singleton _ _
  | blank _ _ ih | lineComment _ _ _ ih | blockComment _ _ ih => exact ih
  | lexeme _ _ hrest ih =>
      refine List.pairwise_cons.mpr ⟨fun t ht => ?_, ih⟩
      obtain ⟨more, hmore⟩ := hrest.pos_eq t ht
      rw [hmore, List.append_assoc, Pos.behind_append, List.cons_append]
      exact Pos.before_advanceAll _ _ _

/-- The last token, and no other one, marks the end of the text. -/
theorem ends (h : Splits before cs ts) : ∃ init, ts = init ++ [⟨.eof, "", .behind (before ++ cs)⟩] ∧
    ∀ t ∈ init, t.kind ≠ .eof := by
  induction h with
  | @stop before =>
      refine ⟨[], ?_, List.forall_mem_nil _⟩
      rw [List.append_nil]
      rfl
  | blank _ _ ih | lineComment _ _ _ ih | blockComment _ _ ih =>
      obtain ⟨init, rfl, hinit⟩ := ih
      exact ⟨init, by simp, hinit⟩
  | @lexeme before _ _ content _ kind _ _ hform _ ih =>
      obtain ⟨init, rfl, hinit⟩ := ih
      refine ⟨⟨kind, String.ofList content, .behind before⟩ :: init, ?_,
        List.forall_mem_cons.mpr ⟨hform.kind_ne_eof, hinit⟩⟩
      rw [List.append_assoc, List.cons_append]
      rfl

end Splits

end Token

/-! ## Places of faults -/

/-- Whether a text that begins at `p` has a character with the place `q`. -/
def HasPlace (p : Pos) (cs : List Char) (q : Pos) : Prop :=
  ∃ before c rest, cs = before ++ c :: rest ∧ q = p.advanceAll before

namespace HasPlace

variable {p q : Pos} {c : Char} {cs cs' : List Char}

theorem head : HasPlace p (c :: cs) p :=
  ⟨[], c, cs, rfl, rfl⟩

theorem append (h : HasPlace (p.advanceAll cs) cs' q) : HasPlace p (cs ++ cs') q := by
  obtain ⟨before, c, rest, rfl, rfl⟩ := h
  exact ⟨cs ++ before, c, rest, (List.append_assoc _ _ _).symm, (p.advanceAll_append _ _).symm⟩

theorem cons (h : HasPlace (p.advance c) cs q) : HasPlace p (c :: cs) q := by
  have hsingle : HasPlace (p.advanceAll [c]) cs q := h
  exact hsingle.append

end HasPlace

variable {opened p : Pos} {c : Char} {cs content read : List Char} {e : SyntaxError}

/-- The only fault of a gap is a comment that stays open. -/
theorem hasPlace_of_skipGap {g : Gap} (h : skipGap g p cs = .error e) :
    HasPlace p cs e.pos ∨ g = .blockComment e.pos := by
  fun_induction skipGap g p cs with
  | case1 p cs ih =>
      rcases ih h with hplace | hgap
      · exact .inl hplace.cons.cons
      · cases hgap
  | case2 p cs ih =>
      rcases ih h with hplace | hgap
      · exact .inl hplace.cons.cons
      · cases hgap
        exact .inl .head
  | case3 p c cs _ _ _ ih =>
      rcases ih h with hplace | hgap
      · exact .inl hplace.cons
      · cases hgap
  | case6 p c cs ih =>
      rcases ih h with hplace | hgap
      · exact .inl hplace.cons
      · split at hgap <;> cases hgap
  | case8 opened p cs ih =>
      rcases ih h with hplace | hgap
      · exact .inl hplace.cons.cons
      · cases hgap
  | case9 opened p c cs _ ih => exact (ih h).imp_left HasPlace.cons
  | case10 =>
      cases h
      exact .inr rfl
  | case4 | case5 | case7 => cases h

namespace Lexeme

theorem hasPlace_of_scanString (h : scanString opened content read p cs = .error e) :
    e.pos = opened ∨ HasPlace p cs e.pos := by
  fun_induction scanString opened content read p cs with
  | case2 content read p c rest _ _ ih => exact (ih h).imp_right fun hplace => hplace.cons.cons
  | case3 | case4 =>
      cases h
      exact .inr .head
  | case5 | case7 =>
      cases h
      exact .inl rfl
  | case6 _ _ _ _ _ _ _ _ _ ih => exact (ih h).imp_right HasPlace.cons
  | case1 => cases h

theorem pos_of_closeChar {value : Char} (h : closeChar opened value read cs = .error e) :
    e.pos = opened := by
  unfold closeChar at h
  split at h <;> cases h
  rfl

theorem hasPlace_of_scanChar (h : scanChar opened cs = .error e) :
    HasPlace opened ('\'' :: cs) e.pos := by
  fun_cases scanChar opened cs with
  | case1 c rest value hescape =>
      simp only [scanChar, hescape] at h
      rw [pos_of_closeChar h]
      exact .head
  | case5 c rest hslash hslash' hplain =>
      rw [scanChar.eq_3 _ _ _ hslash hslash', if_neg hplain] at h
      rw [pos_of_closeChar h]
      exact .head
  | case2 c rest hescape =>
      simp only [scanChar, hescape] at h
      cases h
      exact HasPlace.head.cons
  | case3 =>
      simp only [scanChar] at h
      cases h
      exact HasPlace.head.cons
  | case4 c rest hslash hslash' hline =>
      rw [scanChar.eq_3 _ _ _ hslash hslash', if_pos hline] at h
      cases h
      exact .head
  | case6 =>
      simp only [scanChar] at h
      cases h
      exact .head

theorem pos_of_scanNumber (h : scanNumber p cs = .error e) : e.pos = p := by
  unfold scanNumber at h
  simp only at h
  split at h <;> split at h <;> cases h <;> rfl

theorem hasPlace_of_scan (h : Lexeme.scan p c cs = .error e) : HasPlace p (c :: cs) e.pos := by
  unfold Lexeme.scan at h
  split at h
  · cases h
  split at h
  · rcases hasPlace_of_scanString h with hpos | hplace
    · rw [hpos]
      exact .head
    · next hc => exact hc ▸ hplace.cons
  split at h
  · next hc => exact hc ▸ hasPlace_of_scanChar h
  split at h
  · rw [pos_of_scanNumber h]
    exact .head
  split at h
  · cases h
  · cases h
    exact .head

end Lexeme

namespace Token

theorem hasPlace_of_scanFrom : ∀ {fuel : Nat} {done : List Token} {p : Pos} {cs : List Char},
    scanFrom fuel done p cs = .error e → HasPlace p cs e.pos
  | 0, _, _, _, h => nomatch h
  | fuel + 1, done, p, cs, h => by
      rw [scanFrom_succ, scanBehind] at h
      rcases except_bind_error h with hgap | ⟨⟨p', cs'⟩, hgap, h⟩
      · rcases hasPlace_of_skipGap hgap with hplace | hopen
        · exact hplace
        · cases hopen
      obtain ⟨gap, rfl, rfl⟩ := split_of_skipGap hgap
      apply HasPlace.append
      cases cs' with
      | nil => cases h
      | cons c rest =>
          rcases except_bind_error h with hscan | ⟨l, hscan, h⟩
          · exact Lexeme.hasPlace_of_scan hscan
          · have hsplit := (Lexeme.form_of_scan hscan).1
            rw [← hsplit]
            exact (hasPlace_of_scanFrom h).append

/-- A text that has tokens is made of gaps and lexemes and has one token for each lexeme, in order
and in place; the last one alone marks its end. A text that has none has a fault at a character. -/
theorem scan_partitions (text : String) :
    (∀ tokens, scan text = .ok tokens ↔ Splits [] text.toList tokens) ∧
    (∀ tokens, scan text = .ok tokens →
      (tokens.Pairwise fun t t' => t.pos.Before t'.pos) ∧
      ∃ init, tokens = init ++ [⟨.eof, "", .behind text.toList⟩] ∧ ∀ t ∈ init, t.kind ≠ .eof) ∧
    ∀ e, scan text = .error e →
      ∃ before c rest, text.toList = before ++ c :: rest ∧ e.pos = .behind before := by
  refine ⟨fun tokens => scan_iff_splits, ?_, ?_⟩
  · intro tokens h
    have hsplits := scan_iff_splits.mp h
    exact ⟨hsplits.pairwise, hsplits.ends⟩
  · intro e h
    obtain ⟨before, c, rest, htext, hpos⟩ := hasPlace_of_scanFrom h
    refine ⟨before, c, rest, htext, hpos.trans ?_⟩
    exact (Pos.behind_append before []).symm

example : scan "a<=1L//b\n'\\n'" = .ok [⟨.identifier, "a", ⟨1, 1⟩⟩, ⟨.lessEqual, "<=", ⟨1, 2⟩⟩,
    ⟨.longLiteral, "1", ⟨1, 4⟩⟩, ⟨.charLiteral, "\n", ⟨2, 1⟩⟩, ⟨.eof, "", ⟨2, 5⟩⟩] := by
  rfl

end Token

end ProbeLang
