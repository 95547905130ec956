import ProbeLang.Proofs.Token.Reading
import ProbeLang.Proofs.Tree.Words

/-!
# Spelling tokens

A token without its place (`Bare`) has a spelling: the text of an identifier, a number or a sign, a
string or character in quotes with its escapes. Tokens that are spelled one after the other, with a
space between any two, are read back as they were (`Bare.scan_written`), as long as each of them
holds what its kind allows (`Bare.Legible`).
-/

namespace ProbeLang

/-- A token without its place. -/
structure Bare where
  kind : Token.Kind
  text : String
  deriving Repr, DecidableEq

/-- A token without its place. -/
def Token.bare (t : Token) : Bare :=
  ⟨t.kind, t.text⟩

namespace Bare

/-- The token of a kind that has one spelling. -/
def sign (kind : Token.Kind) : Bare :=
  ⟨kind, kind.spelling?.getD ""⟩

/-- An identifier. -/
def ident (name : String) : Bare :=
  ⟨.identifier, name⟩

/-- What stands for a character in a literal. -/
def escaped : Char → List Char
  | '\n' => ['\\', 'n']
  | '\t' => ['\\', 't']
  | '\r' => ['\\', 'r']
  | '\x00' => ['\\', '0']
  | '\\' => ['\\', '\\']
  | '"' => ['\\', '"']
  | '\'' => ['\\', '\'']
  | c => [c]

/-- The characters that a token is spelled with. -/
def chars (w : Bare) : List Char :=
  match w.kind with
  | .stringLiteral => '"' :: (w.text.toList.flatMap escaped ++ ['"'])
  | .charLiteral => '\'' :: (w.text.toList.flatMap escaped ++ ['\''])
  | .longLiteral => w.text.toList ++ ['L']
  | _ => w.text.toList

/-- The spelling of a token. -/
def spelling (w : Bare) : String :=
  String.ofList w.chars

/-- Tokens spelled one after the other, with spaces between them. -/
def written (ws : List Bare) : String :=
  " ".intercalate (ws.map spelling)

/-- Whether a token that is not the last one holds what its kind allows. Numbers are written
without leading zeros. -/
def Legible (w : Bare) : Prop :=
  match w.kind with
  | .identifier => Identifier w.text
  | .intLiteral => ∃ n < 0x80000000, w.text = Nat.repr n
  | .longLiteral => ∃ n < 0x8000000000000000, w.text = Nat.repr n
  | .stringLiteral => True
  | .charLiteral => ∃ c, w.text = String.singleton c
  | kind => kind.spelling? = some w.text

/-- Signs and reserved words are legible. -/
theorem legible_sign {kind : Token.Kind} (h : kind.spelling?.isSome = true) :
    (sign kind).Legible := by
  cases kind <;> first | rfl | cases h

theorem legible_ident {name : String} (h : Identifier name) : (ident name).Legible := h

end Bare

/-! ## Characters -/

/-- The digits of a number write it. -/
theorem decimalValue_repr (n : Nat) : Text.decimalValue (Nat.repr n).toList = n := by
  rw [Nat.repr_eq_ofList_toDigits, String.toList_ofList]
  calc Text.decimalValue (Nat.toDigits 10 n)
      = Nat.ofDigitChars 10 (Nat.toDigits 10 n) 0 := Nat.ofDigitChars_eq_foldl.symm
    _ = n := Nat.ofDigitChars_ten_toDigits

theorem isDigit_of_mem_repr {n : Nat} {c : Char} (h : c ∈ (Nat.repr n).toList) :
    c.isDigit = true := by
  rw [Nat.repr_eq_ofList_toDigits, String.toList_ofList] at h
  exact Nat.isDigit_of_mem_toDigits (b := 10) (by decide) (by decide) h

theorem repr_ne_nil (n : Nat) : (Nat.repr n).toList ≠ [] := by
  rw [Nat.repr_eq_ofList_toDigits, String.toList_ofList]
  exact Nat.toDigits_ne_nil

/-! ## Spellings are lexemes -/

/-- What may stand behind a spelling: nothing, or something behind a space. -/
def Apart (k : List Char) : Prop :=
  ∀ d ∈ k.head?, d = ' '

/-- An escaped text stands for the text. -/
theorem Lexeme.unescapes_escaped {quote : Char} (hquote : quote = '"' ∨ quote = '\'') :
    ∀ s : List Char, Unescapes quote (s.flatMap Bare.escaped) s
  | [] => .nil
  | c :: s => by
      have hs := unescapes_escaped hquote s
      rw [List.flatMap_cons]
      unfold Bare.escaped
      split
      all_goals try exact .escape rfl hs
      next hline _ _ _ hslash hdouble hsingle =>
        refine .plain ?_ hslash hline hs
        rcases hquote with rfl | rfl
        · exact hdouble
        · exact hsingle

/-! ## Reading what is written -/

namespace Bare

variable {w : Bare} {c : Char} {cs k : List Char} {kind : Token.Kind} {text : String}
  {content : List Char}

/-- The spellings of the kinds that have one. -/
theorem mem_of_spelling? {kind : Token.Kind} {text : String} (h : kind.spelling? = some text) :
    (text, kind) ∈ Token.keywords ++ Token.symbols := by
  obtain ⟨entry, hmem, hentry⟩ := List.exists_of_findSome?_eq_some h
  obtain ⟨text', kind'⟩ := entry
  dsimp only at hentry
  split at hentry
  · next hkind =>
      cases hentry
      exact hkind ▸ hmem
  · cases hentry

/-- The spelling of a reserved word or of an identifier is a lexeme of its kind. -/
theorem form_word (hkind : Token.Kind.ofWord text = kind) (hword : Word text)
    (hstart : ∃ c ∈ text.toList.head?, Lexeme.isWordStart c = true) (hk : Apart k) :
    Lexeme.Form k text.toList kind text.toList := by
  have hlongest : Longest Lexeme.IsWord text.toList k := by
    refine Lexeme.longest_word_iff.mpr ⟨⟨hstart, hword.2⟩, fun d hd => ?_⟩
    rw [hk d hd]
    decide
  have hform := Lexeme.Form.word hlongest
  rwa [String.ofList_toList, hkind] at hform

/-- Reserved words and signs are lexemes of their kinds. -/
theorem form_fixed (h : kind.spelling? = some text) (hk : Apart k) :
    Lexeme.Form k text.toList kind text.toList := by
  rcases List.mem_append.mp (mem_of_spelling? h) with hmem | hmem
  · have hwords : ∀ word ∈ Token.keywords, Token.Kind.ofWord word.1 = word.2 ∧
        word.1.toList ≠ [] ∧ word.1.toList.all Lexeme.isWordPart = true ∧
        word.1.toList.head?.any Lexeme.isWordStart = true := by
      decide
    obtain ⟨hkind, hne, hparts, hstart⟩ := hwords _ hmem
    exact form_word hkind ⟨hne, List.all_eq_true.mp hparts⟩ ((Option.any_eq_true _ _).mp hstart) hk
  · have hsigns : ∀ sign ∈ Token.symbols, Lexeme.signKind? (sign.1.toList ++ [' ']) = none := by
      decide
    have hsymbol : (String.ofList text.toList, kind) ∈ Token.symbols := by
      rwa [String.ofList_toList]
    refine .symbol hsymbol (Lexeme.longest_symbol_iff.mpr ⟨⟨kind, hsymbol⟩, fun d hd => ?_⟩)
    rw [hk d hd]
    exact hsigns _ hmem

/-- The spelling of a token is a lexeme that gives this token. -/
theorem Legible.form (h : w.Legible) (hk : Apart k) :
    Lexeme.Form k w.chars w.kind w.text.toList := by
  obtain ⟨kind, text⟩ := w
  unfold Legible at h
  dsimp only at h
  split at h
  · exact form_word h.kind h.word h.exists_start hk
  · obtain ⟨n, hn, rfl⟩ := h
    have hdigits : ∀ d ∈ (Nat.repr n).toList, d.isDigit = true := fun d => isDigit_of_mem_repr
    have hvalue : Text.decimalValue (Nat.repr n).toList < 0x80000000 := by
      rwa [decimalValue_repr]
    refine .int hdigits ((Lexeme.longest_digits_iff (repr_ne_nil n) hdigits).mpr ?_) hvalue
    intro d hd
    rw [hk d hd]
    decide
  · obtain ⟨n, hn, rfl⟩ := h
    have hdigits : ∀ d ∈ (Nat.repr n).toList, d.isDigit = true := fun d => isDigit_of_mem_repr
    refine .long hdigits (.inl rfl) (Lexeme.longest_marked (repr_ne_nil n) hdigits (.inl rfl)) ?_
    rwa [decimalValue_repr]
  · exact .string (Lexeme.unescapes_escaped (.inl rfl) _)
  · obtain ⟨c, rfl⟩ := h
    have hescaped := Lexeme.unescapes_escaped (.inr rfl) (String.singleton c).toList
    show Lexeme.Form k ('\'' :: ((String.singleton c).toList.flatMap escaped ++ ['\'']))
      .charLiteral (String.singleton c).toList
    rw [String.toList_singleton] at hescaped ⊢
    exact .char hescaped
  · have hchars : (⟨kind, text⟩ : Bare).chars = text.toList := by
      unfold chars
      dsimp only
      split
      all_goals first | contradiction | rfl
    rw [hchars]
    exact form_fixed h hk

/-- What begins with a lexeme that something apart follows opens no comment. -/
theorem not_opensComment (h : Lexeme.Form k (c :: cs) kind content) (hk : Apart k) :
    ¬ OpensComment c (cs ++ k) := by
  rintro ⟨rfl, hhead⟩
  have hcs : cs = [] := by
    cases h.shape with
    | symbol _ => rfl
    | operator hkind => exact absurd rfl (Lexeme.isMark_of_twoCharKind? hkind).2.2.1
    | quoted hc _ => exact absurd hc (by decide)
    | parts hc _ => exact absurd hc (by decide)
  subst hcs
  rcases hhead with hhead | hhead <;> exact absurd (hk _ hhead) (by decide)

/-- Whether the tokens of a text are those of a list, wherever it begins. -/
def ReadAs (cs : List Char) (ws : List Bare) : Prop :=
  ∀ p, ∃ ts q, Reads .between p cs (ts ++ [⟨.eof, "", q⟩]) ∧ ts.map Token.bare = ws

theorem readAs_nil : ReadAs [] [] :=
  fun p => ⟨[], p, .stop, rfl⟩

theorem ReadAs.space {ws : List Bare} (h : ReadAs cs ws) : ReadAs (' ' :: cs) ws := by
  intro p
  obtain ⟨ts, q, hreads, hts⟩ := h (p.advance ' ')
  exact ⟨ts, q, .blank rfl hreads, hts⟩

theorem ReadAs.cons {ws : List Bare} (h : ReadAs k ws) (hw : w.Legible) (hk : Apart k) :
    ReadAs (w.chars ++ k) (w :: ws) := by
  intro p
  have hform := hw.form hk
  obtain ⟨c, cs, hchars⟩ := List.exists_cons_of_ne_nil hform.ne_nil
  rw [hchars] at hform ⊢
  obtain ⟨ts, q, hreads, hts⟩ := h (p.advanceAll (c :: cs))
  refine ⟨⟨w.kind, w.text, p⟩ :: ts, q, ?_, by rw [List.map_cons, hts, Token.bare]⟩
  have hreads := Reads.lexeme hform.isBlank (not_opensComment hform hk) (hform.scan p) hreads
  rwa [String.ofList_toList] at hreads

/-- Spellings with a space before each of them are read as their tokens. -/
theorem readAs_spaced : ∀ {ws : List Bare}, (∀ w ∈ ws, w.Legible) →
    ReadAs (ws.flatMap fun w => ' ' :: w.chars) ws ∧ Apart (ws.flatMap fun w => ' ' :: w.chars)
  | [], _ => ⟨readAs_nil, nofun⟩
  | w :: ws, h => by
      obtain ⟨hw, hws⟩ := List.forall_mem_cons.mp h
      obtain ⟨hrest, hapart⟩ := readAs_spaced hws
      refine ⟨(hrest.cons hw hapart).space, ?_⟩
      rintro d ⟨⟩
      rfl

theorem toList_written (w : Bare) : ∀ ws : List Bare,
    (written (w :: ws)).toList = w.chars ++ ws.flatMap fun w => ' ' :: w.chars := by
  have hchars (w : Bare) : w.spelling.toList = w.chars := String.toList_ofList
  intro ws
  induction ws generalizing w with
  | nil => simp [written, hchars]
  | cons w' ws ih =>
      have hrest := ih w'
      simp only [written, String.toList_intercalate, List.map_cons, hchars] at hrest ⊢
      rw [List.intercalate_cons_cons, hrest]
      simp

/-- Tokens that are legible are read back as they were written. -/
theorem scan_written {ws : List Bare} (h : ∀ w ∈ ws, w.Legible) :
    ∃ ts q, Token.scan (written ws) = .ok (ts ++ [⟨.eof, "", q⟩]) ∧ ts.map Token.bare = ws := by
  have hread : ReadAs (written ws).toList ws := by
    cases ws with
    | nil => exact readAs_nil
    | cons w ws =>
        obtain ⟨hw, hws⟩ := List.forall_mem_cons.mp h
        obtain ⟨hrest, hapart⟩ := readAs_spaced hws
        rw [toList_written]
        exact hrest.cons hw hapart
  obtain ⟨ts, q, hreads, hts⟩ := hread .start
  exact ⟨ts, q, Token.scan_iff_reads.mpr hreads, hts⟩

end Bare

end ProbeLang
