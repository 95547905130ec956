import ProbeLang.Token.Scan

/-!
# Characters of lexemes

What the first character of a lexeme tells of it: a digit or the beginning of a word is a part of a
word, every symbol is made of marks, and no blank is a part of either.
-/

namespace ProbeLang

theorem head?_dropWhile {p : Char → Bool} {cs : List Char} :
    ∀ d ∈ (cs.dropWhile p).head?, p d = false := by
  intro d hd
  induction cs with
  | nil => cases hd
  | cons c cs ih =>
      by_cases hc : p c = true
      · rw [List.dropWhile_cons_of_pos hc] at hd
        exact ih hd
      · rw [List.dropWhile_cons_of_neg hc] at hd
        cases hd
        exact Bool.not_eq_true _ ▸ hc

theorem takeWhile_append_of_head {p : Char → Bool} {cs cs' : List Char} (hcs : ∀ c ∈ cs, p c = true)
    (h : ∀ d ∈ cs'.head?, p d = false) :
    (cs ++ cs').takeWhile p = cs ∧ (cs ++ cs').dropWhile p = cs' := by
  have hstop : cs'.takeWhile p = [] ∧ cs'.dropWhile p = cs' := by
    cases cs' with
    | nil => exact ⟨rfl, rfl⟩
    | cons d cs' =>
        have hd : ¬ p d = true := by
          rw [h d rfl]
          decide
        exact ⟨List.takeWhile_cons_of_neg hd, List.dropWhile_cons_of_neg hd⟩
  rw [List.takeWhile_append_of_pos hcs, List.dropWhile_append_of_pos hcs, hstop.1, hstop.2,
    List.append_nil]
  exact ⟨rfl, rfl⟩

namespace Lexeme

/-! ## Characters of words and symbols -/

theorem isWordPart_of_isDigit {c : Char} (h : c.isDigit = true) : isWordPart c = true := by
  have hlt : c.toNat < 128 := by
    simp only [Char.isDigit, Bool.and_eq_true, decide_eq_true_eq, UInt32.le_iff_toNat_le] at h
    have : c.toNat ≤ 57 := h.2
    omega
  simp [isWordPart, Text.isAlphanumeric, Text.isNumeric, hlt, h]

theorem isWordPart_of_isWordStart {c : Char} (h : isWordStart c = true) : isWordPart c = true := by
  simp only [isWordStart, isWordPart, Text.isAlphanumeric, Bool.or_eq_true] at h ⊢
  rcases h with (h | h) | h <;> simp [h]

/-- A digit begins no word. -/
theorem isDigit_of_isWordStart {c : Char} (h : isWordStart c = true) :
    c.isDigit = false := by
  cases hdigit : c.isDigit with
  | false => rfl
  | true =>
      have hrange : 48 ≤ c.toNat ∧ c.toNat ≤ 57 := by
        simpa [Char.isDigit, UInt32.le_iff_toNat_le] using hdigit
      have hdigits : ∀ n < 58, 48 ≤ n → isWordStart (Char.ofNat n) = false := by
        decide
      have hstart := hdigits c.toNat (by omega) hrange.1
      rw [Char.ofNat_toNat, h] at hstart
      cases hstart

/-- A character that belongs to no word and to no literal and ends no line. -/
def IsMark (c : Char) : Prop :=
  isWordPart c = false ∧ c ≠ '"' ∧ c ≠ '\'' ∧ c ≠ '\n' ∧ c ≠ '\r'

theorem IsMark.not_isDigit {c : Char} (h : IsMark c) : c.isDigit = false := by
  cases hc : c.isDigit with
  | false => rfl
  | true =>
      have hpart := isWordPart_of_isDigit hc
      rw [h.1] at hpart
      cases hpart

theorem IsMark.not_isWordStart {c : Char} (h : IsMark c) : isWordStart c = false := by
  cases hc : isWordStart c with
  | false => rfl
  | true =>
      have hpart := isWordPart_of_isWordStart hc
      rw [h.1] at hpart
      cases hpart

theorem isMark_of_oneCharKind? {c : Char} {kind : Token.Kind} (h : oneCharKind? c = some kind) :
    IsMark c := by
  unfold oneCharKind? at h
  unfold IsMark
  split at h <;> first | decide | cases h

theorem isMark_of_twoCharKind? {c d : Char} {kind : Token.Kind}
    (h : twoCharKind? c d = some kind) : IsMark c ∧ IsMark d ∧ c ≠ '/' ∧ d ≠ '/' := by
  unfold twoCharKind? at h
  unfold IsMark
  split at h <;> first | decide | cases h

theorem scanSymbol?_eq_none {c : Char} {cs : List Char} (h : ¬ IsMark c) :
    scanSymbol? (c :: cs) = none := by
  have hone : oneCharKind? c = none := by
    cases hkind : oneCharKind? c with
    | none => rfl
    | some kind => exact absurd (isMark_of_oneCharKind? hkind) h
  cases cs with
  | nil => simp [scanSymbol?, hone]
  | cons d cs =>
      cases hkind : twoCharKind? c d with
      | none => simp [scanSymbol?, hone, hkind]
      | some kind => exact absurd (isMark_of_twoCharKind? hkind).1 h

/-- A symbol is one character that no operator continues, or an operator of two. -/
theorem scanSymbol?_eq_some {c : Char} {cs : List Char} {l : Lexeme}
    (h : scanSymbol? (c :: cs) = some l) :
    (∃ kind, oneCharKind? c = some kind ∧ l = ⟨kind, [c], [c], cs⟩ ∧
      ∀ d ∈ cs.head?, twoCharKind? c d = none) ∨
    ∃ kind d cs', twoCharKind? c d = some kind ∧ cs = d :: cs' ∧
      l = ⟨kind, [c, d], [c, d], cs'⟩ := by
  cases cs with
  | nil =>
      obtain ⟨kind, hkind, rfl⟩ := Option.map_eq_some_iff.mp h
      exact .inl ⟨kind, hkind, rfl, by simp⟩
  | cons d cs =>
      simp only [scanSymbol?] at h
      split at h
      · next kind hkind => exact .inr ⟨kind, d, cs, hkind, rfl, (Option.some.inj h).symm⟩
      · next hnone =>
          obtain ⟨kind, hkind, rfl⟩ := Option.map_eq_some_iff.mp h
          exact .inl ⟨kind, hkind, rfl, by simpa using hnone⟩

/-- The blanks, by their numbers. -/
theorem mem_of_isBlank {c : Char} (h : Text.isBlank c = true) :
    c.toNat ∈ [9, 10, 11, 12, 13, 32, 133, 160, 5760, 8192, 8193, 8194, 8195, 8196, 8197, 8198,
      8199, 8200, 8201, 8202, 8232, 8233, 8239, 8287, 12288] := by
  simp only [Text.isBlank, Bool.or_eq_true, Bool.and_eq_true, decide_eq_true_eq, beq_iff_eq] at h
  simp only [List.mem_cons, List.not_mem_nil, or_false]
  omega

/-- No blank is a part of a word. -/
theorem isBlank_of_isWordPart {c : Char} (h : isWordPart c = true) :
    Text.isBlank c = false := by
  have hblanks : ∀ n ∈ [9, 10, 11, 12, 13, 32, 133, 160, 5760, 8192, 8193, 8194, 8195, 8196, 8197,
      8198, 8199, 8200, 8201, 8202, 8232, 8233, 8239, 8287, 12288],
      isWordPart (Char.ofNat n) = false := by
    decide +kernel
  cases hblank : Text.isBlank c with
  | false => rfl
  | true =>
      have hpart := hblanks _ (mem_of_isBlank hblank)
      rw [Char.ofNat_toNat, h] at hpart
      cases hpart

/-! ## What a character begins -/

variable {p : Pos} {c : Char} {cs : List Char}

theorem scan_of_isMark (h : IsMark c) :
    scan p c cs = match scanSymbol? (c :: cs) with
      | some l => .ok l
      | none => .error ⟨p, .illegalCharacter c⟩ := by
  unfold scan
  rw [if_neg h.2.1, if_neg h.2.2.1, h.not_isDigit, h.not_isWordStart]
  rfl

theorem scan_of_isWordPart (hpart : isWordPart c = true) :
    scan p c cs =
      if c.isDigit then scanNumber p (c :: cs)
      else if isWordStart c then .ok (scanWord (c :: cs))
      else .error ⟨p, .illegalCharacter c⟩ := by
  have hmark : ¬ IsMark c := fun h => by simp [h.1] at hpart
  have hdouble : c ≠ '"' := by
    rintro rfl
    revert hpart
    decide
  have hsingle : c ≠ '\'' := by
    rintro rfl
    revert hpart
    decide
  rw [scan, scanSymbol?_eq_none hmark, if_neg hdouble, if_neg hsingle]

end Lexeme

end ProbeLang
