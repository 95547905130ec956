import ProbeLang.Proofs.Token.Characters

/-!
# The forms of lexemes

What a lexeme is, said without a scanner (`Lexeme.Form`): a word, a number or a symbol that is the
longest one of its class in front of the text behind it, or a literal in quotes with what its
characters stand for. The scanner reads a lexeme of some form just if the text begins with one
(`Lexeme.scan_iff_form`), so a text begins with one lexeme at most.
-/

namespace ProbeLang

/-- Whether the characters in front of a text are in a class, and with more of the text are not. -/
structure Longest (p : List Char → Prop) (cs rest : List Char) : Prop where
  holds : p cs
  no_more : ∀ more, more <+: rest → p (cs ++ more) → more = []

/-- Whether a class has what is between two of its members, one of which begins with the other, up
to one more character. -/
def Stepwise (p : List Char → Prop) : Prop :=
  ∀ cs d more, p cs → p (cs ++ d :: more) → p (cs ++ [d])

/-- Of such a class the characters are the longest if the next one does not go on with them. -/
theorem longest_iff {p : List Char → Prop} {cs rest : List Char} (hp : Stepwise p) :
    Longest p cs rest ↔ p cs ∧ ∀ d ∈ rest.head?, ¬ p (cs ++ [d]) := by
  constructor
  · intro h
    refine ⟨h.holds, fun d hd hmore => ?_⟩
    obtain ⟨tail, rfl⟩ := List.head?_eq_some_iff.mp hd
    cases h.no_more [d] ⟨tail, rfl⟩ hmore
  · rintro ⟨hcs, hhead⟩
    refine ⟨hcs, fun more hprefix hmore => ?_⟩
    cases more with
    | nil => rfl
    | cons d more =>
        obtain ⟨tail, rfl⟩ := hprefix
        exact absurd (hp cs d more hcs hmore) (hhead d rfl)

/-- A word is an identifier unless it is reserved. -/
theorem Token.Kind.ofWord_cases (word : String) :
    Token.Kind.ofWord word = .identifier ∨ (word, Token.Kind.ofWord word) ∈ Token.keywords := by
  unfold Token.Kind.ofWord
  cases hlookup : Token.keywords.lookup word with
  | none => exact .inl rfl
  | some kind =>
      obtain ⟨before, after, hsplit, -⟩ := List.lookup_eq_some_iff.mp hlookup
      exact .inr (by simp [hsplit])

namespace Lexeme

/-- The mark that makes a number a `long`. -/
def IsLongMark (mark : List Char) : Prop :=
  mark = [] ∨ mark = ['L'] ∨ mark = ['l']

/-- Whether characters spell an identifier or a keyword. -/
def IsWord (cs : List Char) : Prop :=
  (∃ c ∈ cs.head?, isWordStart c = true) ∧ ∀ d ∈ cs, isWordPart d = true

/-- Whether characters spell a number. -/
def IsNumber (cs : List Char) : Prop :=
  ∃ digits mark, cs = digits ++ mark ∧ digits ≠ [] ∧ (∀ d ∈ digits, d.isDigit = true) ∧
    IsLongMark mark

/-- Whether characters spell a bracket, a separator or an operator. -/
def IsSymbol (cs : List Char) : Prop :=
  ∃ kind, (String.ofList cs, kind) ∈ Token.symbols

/-- What the characters between two quotes stand for. -/
inductive Unescapes (quote : Char) : List Char → List Char → Prop
  | nil : Unescapes quote [] []
  | escape {c e : Char} {body content : List Char} (hc : escape? c = some e) :
      Unescapes quote body content → Unescapes quote ('\\' :: c :: body) (e :: content)
  | plain {c : Char} {body content : List Char} (hquote : c ≠ quote) (hslash : c ≠ '\\')
      (hline : c ≠ '\n') :
      Unescapes quote body content → Unescapes quote (c :: body) (c :: content)

/-- Whether the characters in front of a text are a lexeme, of which kind and with which content. -/
inductive Form (rest : List Char) : List Char → Token.Kind → List Char → Prop
  | word {cs : List Char} (h : Longest IsWord cs rest) :
      Form rest cs (Token.Kind.ofWord (String.ofList cs)) cs
  | int {digits : List Char} (hdigits : ∀ d ∈ digits, d.isDigit = true)
      (h : Longest IsNumber digits rest) (hvalue : Text.decimalValue digits < 0x80000000) :
      Form rest digits .intLiteral digits
  | long {digits : List Char} {mark : Char} (hdigits : ∀ d ∈ digits, d.isDigit = true)
      (hmark : mark = 'L' ∨ mark = 'l') (h : Longest IsNumber (digits ++ [mark]) rest)
      (hvalue : Text.decimalValue digits < 0x8000000000000000) :
      Form rest (digits ++ [mark]) .longLiteral digits
  | symbol {cs : List Char} {kind : Token.Kind} (hkind : (String.ofList cs, kind) ∈ Token.symbols)
      (h : Longest IsSymbol cs rest) : Form rest cs kind cs
  | string {body content : List Char} (h : Unescapes '"' body content) :
      Form rest ('"' :: (body ++ ['"'])) .stringLiteral content
  | char {body : List Char} {c : Char} (h : Unescapes '\'' body [c]) :
      Form rest ('\'' :: (body ++ ['\''])) .charLiteral [c]

variable {p opened : Pos} {c d : Char} {cs rest digits body content read : List Char} {l : Lexeme}
  {kind : Token.Kind}

/-! ## Words -/

theorem isWord_concat (h : IsWord cs) : IsWord (cs ++ [d]) ↔ isWordPart d = true := by
  obtain ⟨⟨c, hc, hstart⟩, hparts⟩ := h
  constructor
  · exact fun hmore => hmore.2 d (by simp)
  · intro hd
    obtain ⟨tail, rfl⟩ := List.head?_eq_some_iff.mp hc
    exact ⟨⟨c, rfl, hstart⟩, List.forall_mem_append.mpr ⟨hparts, List.forall_mem_singleton.mpr hd⟩⟩

theorem stepwise_isWord : Stepwise IsWord :=
  fun _ d _ hcs hmore => (isWord_concat hcs).mpr (hmore.2 d (by simp))

theorem longest_word_iff : Longest IsWord cs rest ↔
    IsWord cs ∧ ∀ d ∈ rest.head?, isWordPart d = false := by
  rw [longest_iff stepwise_isWord]
  refine and_congr_right fun hword => ?_
  simp only [isWord_concat hword, Bool.not_eq_true]

theorem form_scanWord (hstart : isWordStart c = true) :
    Form (scanWord (c :: cs)).rest (scanWord (c :: cs)).chars (scanWord (c :: cs)).kind
      (scanWord (c :: cs)).content := by
  refine .word (longest_word_iff.mpr ⟨⟨⟨c, ?_, hstart⟩, ?_⟩, head?_dropWhile⟩)
  · simp only [scanWord, List.takeWhile_cons_of_pos (isWordPart_of_isWordStart hstart)]
    rfl
  · exact fun d hd => List.all_eq_true.mp List.all_takeWhile d hd

theorem scan_word (hcs : IsWord (c :: cs)) (hrest : ∀ d ∈ rest.head?, isWordPart d = false) :
    scan p c (cs ++ rest) =
      .ok ⟨Token.Kind.ofWord (String.ofList (c :: cs)), c :: cs, c :: cs, rest⟩ := by
  obtain ⟨⟨_, ⟨⟩, hstart⟩, hparts⟩ := hcs
  have hpart := isWordPart_of_isWordStart hstart
  obtain ⟨htake, hdrop⟩ := takeWhile_append_of_head hparts hrest
  rw [scan_of_isWordPart hpart, isDigit_of_isWordStart hstart, if_neg Bool.false_ne_true,
    if_pos hstart, scanWord, ← List.cons_append, htake, hdrop]

/-! ## Numbers -/

theorem IsNumber.isDigit_or (h : IsNumber cs) : ∀ d ∈ cs, d.isDigit = true ∨ d = 'L' ∨ d = 'l' := by
  obtain ⟨digits, mark, rfl, -, hdigits, hmark⟩ := h
  intro d hd
  rcases List.mem_append.mp hd with hd | hd
  · exact .inl (hdigits d hd)
  · rcases hmark with rfl | rfl | rfl
    · cases hd
    · exact .inr (.inl (List.mem_singleton.mp hd))
    · exact .inr (.inr (List.mem_singleton.mp hd))

theorem IsNumber.ne_nil (h : IsNumber cs) : cs ≠ [] := by
  obtain ⟨digits, mark, rfl, hne, -⟩ := h
  exact List.append_ne_nil_of_left_ne_nil hne _

theorem IsNumber.head (h : IsNumber cs) : ∀ d ∈ cs.head?, d.isDigit = true := by
  obtain ⟨digits, mark, rfl, hne, hdigits, -⟩ := h
  obtain ⟨c, digits, rfl⟩ := List.exists_cons_of_ne_nil hne
  rintro d ⟨⟩
  exact hdigits c List.mem_cons_self

/-- Nothing but digits stands before the last character of a number. -/
theorem IsNumber.dropLast (h : IsNumber cs) : ∀ d ∈ cs.dropLast, d.isDigit = true := by
  obtain ⟨digits, mark, rfl, -, hdigits, rfl | rfl | rfl⟩ := h
  · rw [List.append_nil]
    exact fun d hd => hdigits d ((List.dropLast_sublist _).subset hd)
  · rwa [List.dropLast_concat]
  · rwa [List.dropLast_concat]

theorem isNumber_digits (hne : digits ≠ []) (hdigits : ∀ d ∈ digits, d.isDigit = true) :
    IsNumber digits :=
  ⟨digits, [], (List.append_nil _).symm, hne, hdigits, .inl rfl⟩

theorem isNumber_concat (hne : digits ≠ []) (hdigits : ∀ d ∈ digits, d.isDigit = true) :
    IsNumber (digits ++ [d]) ↔ d.isDigit = true ∨ d = 'L' ∨ d = 'l' := by
  constructor
  · exact fun h => h.isDigit_or d (by simp)
  · rintro (hd | rfl | rfl)
    · exact isNumber_digits (List.append_ne_nil_of_left_ne_nil hne _)
        (List.forall_mem_append.mpr ⟨hdigits, List.forall_mem_singleton.mpr hd⟩)
    · exact ⟨digits, ['L'], rfl, hne, hdigits, .inr (.inl rfl)⟩
    · exact ⟨digits, ['l'], rfl, hne, hdigits, .inr (.inr rfl)⟩

theorem stepwise_isNumber : Stepwise IsNumber := by
  intro cs d more hcs hmore
  have hdigits : ∀ e ∈ cs, e.isDigit = true := by
    intro e he
    refine hmore.dropLast e ?_
    rw [List.dropLast_append_of_ne_nil (List.cons_ne_nil _ _)]
    exact List.mem_append_left _ he
  exact (isNumber_concat hcs.ne_nil hdigits).mpr (hmore.isDigit_or d (by simp))

theorem longest_digits_iff (hne : digits ≠ []) (hdigits : ∀ d ∈ digits, d.isDigit = true) :
    Longest IsNumber digits rest ↔
      ∀ d ∈ rest.head?, d.isDigit = false ∧ d ≠ 'L' ∧ d ≠ 'l' := by
  rw [longest_iff stepwise_isNumber]
  simp only [isNumber_digits hne hdigits, isNumber_concat hne hdigits, true_and, not_or,
    Bool.not_eq_true, ne_eq]

/-- Nothing goes on behind the mark of a `long`. -/
theorem longest_marked {mark : Char} (hne : digits ≠ [])
    (hdigits : ∀ d ∈ digits, d.isDigit = true) (hmark : mark = 'L' ∨ mark = 'l') :
    Longest IsNumber (digits ++ [mark]) rest := by
  rw [longest_iff stepwise_isNumber]
  refine ⟨(isNumber_concat hne hdigits).mpr (.inr hmark), fun d _ hmore => ?_⟩
  have hdigit : mark.isDigit = true := by
    refine hmore.dropLast mark ?_
    rw [List.dropLast_concat]
    exact List.mem_append_right _ (List.mem_singleton_self _)
  rcases hmark with rfl | rfl <;> exact absurd hdigit (by decide)

theorem form_scanNumber (hc : c.isDigit = true) (h : scanNumber p (c :: cs) = .ok l) :
    l.chars ++ l.rest = c :: cs ∧ Form l.rest l.chars l.kind l.content := by
  have hdigits : ∀ d ∈ (c :: cs).takeWhile Char.isDigit, d.isDigit = true :=
    fun d hd => List.all_eq_true.mp List.all_takeWhile d hd
  have hne : (c :: cs).takeWhile Char.isDigit ≠ [] := by
    rw [List.takeWhile_cons_of_pos hc]
    exact List.cons_ne_nil _ _
  have hsplit : (c :: cs).takeWhile Char.isDigit ++ (c :: cs).dropWhile Char.isDigit = c :: cs :=
    List.takeWhile_append_dropWhile
  have hhead : ∀ d ∈ ((c :: cs).dropWhile Char.isDigit).head?, d.isDigit = false :=
    head?_dropWhile
  unfold scanNumber at h
  simp only at h
  generalize (c :: cs).takeWhile Char.isDigit = digits at *
  split at h
  · next rest hrest =>
      split at h <;> cases h
      next hvalue =>
      refine ⟨?_, .long hdigits (.inl rfl) (longest_marked hne hdigits (.inl rfl)) hvalue⟩
      rw [← hsplit, hrest, List.append_assoc]
      rfl
  · next rest hrest =>
      split at h <;> cases h
      next hvalue =>
      refine ⟨?_, .long hdigits (.inr rfl) (longest_marked hne hdigits (.inr rfl)) hvalue⟩
      rw [← hsplit, hrest, List.append_assoc]
      rfl
  · next hbig hsmall =>
      split at h <;> cases h
      next hvalue =>
      refine ⟨hsplit, .int hdigits ((longest_digits_iff hne hdigits).mpr fun d hd => ?_) hvalue⟩
      obtain ⟨tail, htail⟩ := List.head?_eq_some_iff.mp hd
      refine ⟨hhead d hd, ?_, ?_⟩
      · rintro rfl
        exact hbig tail htail
      · rintro rfl
        exact hsmall tail htail

theorem scan_int (hdigits : ∀ d ∈ c :: cs, d.isDigit = true)
    (hrest : ∀ d ∈ rest.head?, d.isDigit = false ∧ d ≠ 'L' ∧ d ≠ 'l')
    (hvalue : Text.decimalValue (c :: cs) < 0x80000000) :
    scan p c (cs ++ rest) = .ok ⟨.intLiteral, c :: cs, c :: cs, rest⟩ := by
  have hdigit := hdigits c List.mem_cons_self
  obtain ⟨htake, hdrop⟩ := takeWhile_append_of_head hdigits fun d hd => (hrest d hd).1
  rw [scan_of_isWordPart (isWordPart_of_isDigit hdigit), if_pos hdigit, scanNumber,
    ← List.cons_append, htake, hdrop]
  split
  · exact absurd rfl (hrest 'L' rfl).2.1
  · exact absurd rfl (hrest 'l' rfl).2.2
  · exact if_pos hvalue

theorem scan_long {mark : Char} (hdigits : ∀ d ∈ c :: cs, d.isDigit = true)
    (hmark : mark = 'L' ∨ mark = 'l')
    (hvalue : Text.decimalValue (c :: cs) < 0x8000000000000000) :
    scan p c (cs ++ mark :: rest) = .ok ⟨.longLiteral, c :: cs, c :: cs ++ [mark], rest⟩ := by
  have hdigit := hdigits c List.mem_cons_self
  have hhead : ∀ d ∈ (mark :: rest).head?, d.isDigit = false := by
    rintro d ⟨⟩
    rcases hmark with rfl | rfl <;> rfl
  obtain ⟨htake, hdrop⟩ := takeWhile_append_of_head hdigits hhead
  rw [scan_of_isWordPart (isWordPart_of_isDigit hdigit), if_pos hdigit, scanNumber,
    ← List.cons_append, htake, hdrop]
  rcases hmark with rfl | rfl <;> exact if_pos hvalue

/-! ## Symbols -/

/-- The kind of a symbol, by its characters. -/
def signKind? : List Char → Option Token.Kind
  | [c] => oneCharKind? c
  | [c, d] => twoCharKind? c d
  | _ => none

theorem signKind?_of_mem (h : (String.ofList cs, kind) ∈ Token.symbols) :
    signKind? cs = some kind := by
  have hsigns : ∀ sign ∈ Token.symbols, signKind? sign.1.toList = some sign.2 := by
    decide
  have hsign := hsigns _ h
  rwa [String.toList_ofList] at hsign

theorem mem_of_signKind? (h : signKind? cs = some kind) :
    (String.ofList cs, kind) ∈ Token.symbols := by
  unfold signKind? at h
  split at h
  · unfold oneCharKind? at h
    split at h <;> cases h <;> decide
  · unfold twoCharKind? at h
    split at h <;> cases h <;> decide
  · cases h

theorem isSymbol_iff : IsSymbol cs ↔ ∃ kind, signKind? cs = some kind :=
  ⟨fun ⟨kind, h⟩ => ⟨kind, signKind?_of_mem h⟩, fun ⟨kind, h⟩ => ⟨kind, mem_of_signKind? h⟩⟩

/-- No symbol begins with a blank. -/
theorem isBlank_of_signKind? (h : signKind? (c :: cs) = some kind) : Text.isBlank c = false := by
  unfold signKind? at h
  split at h
  · next hcs =>
      cases hcs
      unfold oneCharKind? at h
      split at h <;> first | rfl | cases h
  · next hcs =>
      cases hcs
      unfold twoCharKind? at h
      split at h <;> first | rfl | cases h
  · cases h

theorem stepwise_isSymbol : Stepwise IsSymbol := by
  intro cs d more hcs hmore
  obtain ⟨kind, hkind⟩ := isSymbol_iff.mp hcs
  obtain ⟨kind', hkind'⟩ := isSymbol_iff.mp hmore
  match cs, more with
  | [], _ => cases hkind
  | [_], [] => exact hmore
  | [_], _ :: _ => cases hkind'
  | [_, _], _ => cases hkind'
  | _ :: _ :: _ :: _, _ => cases hkind

theorem longest_symbol_iff : Longest IsSymbol cs rest ↔
    IsSymbol cs ∧ ∀ d ∈ rest.head?, signKind? (cs ++ [d]) = none := by
  rw [longest_iff stepwise_isSymbol]
  simp only [isSymbol_iff, not_exists, Option.eq_none_iff_forall_ne_some, ne_eq]

theorem form_scanSymbol (h : scanSymbol? (c :: cs) = some l) :
    l.chars ++ l.rest = c :: cs ∧ Form l.rest l.chars l.kind l.content := by
  rcases scanSymbol?_eq_some h with ⟨kind, hkind, rfl, hhead⟩ | ⟨kind, d, cs, hkind, rfl, rfl⟩
  · have hmem : (String.ofList [c], kind) ∈ Token.symbols := mem_of_signKind? hkind
    exact ⟨rfl, .symbol hmem (longest_symbol_iff.mpr ⟨⟨kind, hmem⟩, hhead⟩)⟩
  · have hmem : (String.ofList [c, d], kind) ∈ Token.symbols := mem_of_signKind? hkind
    exact ⟨rfl, .symbol hmem (longest_symbol_iff.mpr ⟨⟨kind, hmem⟩, fun _ _ => rfl⟩)⟩

theorem scan_symbol (hkind : signKind? (c :: cs) = some kind)
    (hrest : ∀ d ∈ rest.head?, signKind? (c :: cs ++ [d]) = none) :
    scan p c (cs ++ rest) = .ok ⟨kind, c :: cs, c :: cs, rest⟩ := by
  match cs with
  | [] =>
      have hsymbol : scanSymbol? (c :: rest) = some ⟨kind, [c], [c], rest⟩ := by
        have hone : oneCharKind? c = some kind := hkind
        cases rest with
        | nil => simp [scanSymbol?, hone]
        | cons d rest =>
            have htwo : twoCharKind? c d = none := hrest d rfl
            simp [scanSymbol?, hone, htwo]
      rw [List.nil_append, scan_of_isMark (isMark_of_oneCharKind? hkind), hsymbol]
  | [d] =>
      have htwo : twoCharKind? c d = some kind := hkind
      rw [List.singleton_append, scan_of_isMark (isMark_of_twoCharKind? htwo).1]
      simp [scanSymbol?, htwo]
  | _ :: _ :: _ => cases hkind

/-! ## Literals -/

theorem unescapes_of_scanString (h : scanString opened content read p cs = .ok l) :
    ∃ body value, cs = body ++ '"' :: l.rest ∧ l.chars = read.reverse ++ body ++ ['"'] ∧
      l.kind = .stringLiteral ∧ l.content = content.reverse ++ value ∧
        Unescapes '"' body value := by
  fun_induction scanString opened content read p cs with
  | case1 content read p rest =>
      cases h
      exact ⟨[], [], rfl, by simp, rfl, by simp, .nil⟩
  | case2 content read p c rest e hescape ih =>
      obtain ⟨body, value, rfl, hchars, hkind, hcontent, hbody⟩ := ih h
      exact ⟨'\\' :: c :: body, e :: value, rfl, by simp [hchars], hkind, by simp [hcontent],
        .escape hescape hbody⟩
  | case6 content read p c rest hquote hslash hslash' hline ih =>
      obtain ⟨body, value, rfl, hchars, hkind, hcontent, hbody⟩ := ih h
      have hc : c ≠ '\\' := by
        rintro rfl
        cases hrest : body ++ '"' :: l.rest with
        | nil => exact hslash' rfl hrest
        | cons d rest => exact hslash d rest rfl hrest
      exact ⟨c :: body, c :: value, rfl, by simp [hchars], hkind, by simp [hcontent],
        .plain hquote hc hline hbody⟩
  | case3 => cases h
  | case4 => cases h
  | case5 => cases h
  | case7 => cases h

theorem scanString_of_unescapes {value : List Char} (h : Unescapes '"' body value) :
    ∀ content read p, scanString opened content read p (body ++ '"' :: rest) =
      .ok ⟨.stringLiteral, content.reverse ++ value, read.reverse ++ body ++ ['"'], rest⟩ := by
  induction h with
  | nil =>
      intro content read p
      simp [scanString]
  | @escape c e body value hc _ ih =>
      intro content read p
      rw [List.cons_append, List.cons_append, scanString.eq_2, hc]
      simp [ih]
  | @plain c body value hquote hslash hline _ ih =>
      intro content read p
      rw [List.cons_append, scanString.eq_4 _ _ _ _ _ _ hquote (fun _ _ h _ => hslash h)
        (fun h _ => hslash h), if_neg hline]
      simp [ih]

theorem closeChar_ok {value : Char} (h : closeChar opened value read cs = .ok l) :
    ∃ rest, cs = '\'' :: rest ∧ l = ⟨.charLiteral, [value], read ++ ['\''], rest⟩ := by
  unfold closeChar at h
  split at h
  · cases h
    exact ⟨_, rfl, rfl⟩
  · cases h

theorem unescapes_of_scanChar (h : scanChar opened cs = .ok l) :
    ∃ body value, cs = body ++ '\'' :: l.rest ∧ l.chars = '\'' :: body ++ ['\''] ∧
      l.kind = .charLiteral ∧ l.content = [value] ∧ Unescapes '\'' body [value] := by
  fun_cases scanChar opened cs with
  | case1 c rest e hescape =>
      simp only [scanChar, hescape] at h
      obtain ⟨rest, rfl, rfl⟩ := closeChar_ok h
      exact ⟨['\\', c], e, rfl, rfl, rfl, rfl, .escape hescape .nil⟩
  | case5 c rest hslash hslash' hplain =>
      rw [scanChar.eq_3 _ _ _ hslash hslash', if_neg hplain] at h
      obtain ⟨rest, rfl, rfl⟩ := closeChar_ok h
      simp only [Bool.or_eq_true, decide_eq_true_eq, not_or] at hplain
      have hc : c ≠ '\\' := fun hc => hslash _ _ hc rfl
      exact ⟨[c], c, rfl, rfl, rfl, rfl, .plain hplain.1 hc hplain.2 .nil⟩
  | case2 c rest hescape =>
      simp only [scanChar, hescape] at h
      cases h
  | case3 =>
      simp only [scanChar] at h
      cases h
  | case4 c rest hslash hslash' hline =>
      rw [scanChar.eq_3 _ _ _ hslash hslash', if_pos hline] at h
      cases h
  | case6 =>
      simp only [scanChar] at h
      cases h

theorem scanChar_of_unescapes {value : Char} (h : Unescapes '\'' body [value]) :
    scanChar opened (body ++ '\'' :: rest) =
      .ok ⟨.charLiteral, [value], '\'' :: body ++ ['\''], rest⟩ := by
  cases h with
  | escape hc hbody =>
      cases hbody
      simp only [List.cons_append, List.nil_append, scanChar, hc, closeChar]
  | plain hquote hslash hline hbody =>
      cases hbody
      have hplain : ¬ (decide (value = '\'') || decide (value = '\n')) = true := by
        simpa using ⟨hquote, hline⟩
      rw [List.singleton_append, scanChar.eq_3 _ _ _ (fun _ _ h _ => hslash h)
        (fun h _ => hslash h), if_neg hplain]
      rfl

theorem scan_double : scan p '"' cs = scanString p [] ['"'] (p.advance '"') cs := by
  rw [scan, scanSymbol?_eq_none (by simp [IsMark]), if_pos rfl]

theorem scan_single : scan p '\'' cs = scanChar p cs := by
  rw [scan, scanSymbol?_eq_none (by simp [IsMark]), if_neg (by decide), if_pos rfl]

/-! ## Lexemes of any form -/

/-- A lexeme takes a character. -/
theorem Form.ne_nil (h : Form rest cs kind content) : cs ≠ [] := by
  cases h with
  | word h =>
      rintro rfl
      obtain ⟨⟨c, hc, -⟩, -⟩ := h.holds
      cases hc
  | int _ h _ => exact h.holds.ne_nil
  | symbol _ h =>
      rintro rfl
      obtain ⟨kind, hkind⟩ := h.holds
      have hsymbols : ∀ sign ∈ Token.symbols, sign.1 ≠ "" := by
        decide
      exact hsymbols _ hkind rfl
  | long | string | char => simp

/-- No lexeme begins with a blank. -/
theorem Form.isBlank (h : Form rest (c :: cs) kind content) : Text.isBlank c = false := by
  generalize hchars : c :: cs = chars at h
  have hc : ∀ d ∈ chars.head?, d = c := by
    rw [← hchars]
    rintro d ⟨⟩
    rfl
  cases h with
  | word h =>
      obtain ⟨⟨d, hd, hstart⟩, -⟩ := h.holds
      rw [← hc d hd]
      exact isBlank_of_isWordPart (isWordPart_of_isWordStart hstart)
  | int _ h _ | long _ _ h _ =>
      rw [← hchars] at h
      exact isBlank_of_isWordPart (isWordPart_of_isDigit (h.holds.head c rfl))
  | symbol hkind _ =>
      rw [← hchars] at hkind
      exact isBlank_of_signKind? (signKind?_of_mem hkind)
  | string _ | char _ =>
      rw [← hc _ rfl]
      rfl

/-- The mark of the end is no lexeme. -/
theorem Form.kind_ne_eof (h : Form rest cs kind content) : kind ≠ .eof := by
  cases h with
  | word _ =>
      have hkeywords : ∀ word ∈ Token.keywords, word.2 ≠ .eof := by
        decide
      rcases Token.Kind.ofWord_cases (String.ofList cs) with hkind | hkind
      · rw [hkind]
        decide
      · exact hkeywords _ hkind
  | symbol hkind _ =>
      have hsymbols : ∀ sign ∈ Token.symbols, sign.2 ≠ .eof := by
        decide
      exact hsymbols _ hkind
  | int | long | string | char => decide

/-- What is scanned is a lexeme of some form. -/
theorem form_of_scan (h : scan p c cs = .ok l) :
    l.chars ++ l.rest = c :: cs ∧ Form l.rest l.chars l.kind l.content := by
  unfold scan at h
  split at h
  · next hsymbol =>
      cases h
      exact form_scanSymbol hsymbol
  split at h
  · next hc =>
      subst hc
      obtain ⟨body, value, rfl, hchars, hkind, hcontent, hbody⟩ := unescapes_of_scanString h
      rw [hchars, hkind, hcontent]
      exact ⟨by simp, .string hbody⟩
  split at h
  · next hc =>
      subst hc
      obtain ⟨body, value, rfl, hchars, hkind, hcontent, hbody⟩ := unescapes_of_scanChar h
      rw [hchars, hkind, hcontent]
      exact ⟨by simp, .char hbody⟩
  split at h
  · next hc => exact form_scanNumber hc h
  split at h
  · next hstart =>
      cases h
      exact ⟨List.takeWhile_append_dropWhile, form_scanWord hstart⟩
  · cases h

/-- A lexeme of some form is scanned wherever it stands. -/
theorem Form.scan (h : Form rest (c :: cs) kind content) (p : Pos) :
    scan p c (cs ++ rest) = .ok ⟨kind, content, c :: cs, rest⟩ := by
  generalize hchars : c :: cs = chars at h
  cases h with
  | word h =>
      obtain ⟨hword, hrest⟩ := longest_word_iff.mp h
      subst hchars
      exact scan_word hword hrest
  | int hdigits h hvalue =>
      subst hchars
      exact scan_int hdigits ((longest_digits_iff (List.cons_ne_nil _ _) hdigits).mp h) hvalue
  | long hdigits hmark h hvalue =>
      cases content with
      | nil =>
          obtain ⟨rfl, rfl⟩ := List.cons.inj hchars
          have hdigit := h.holds.head
          rcases hmark with rfl | rfl <;> exact absurd (hdigit _ rfl) (by decide)
      | cons d digits =>
          rw [List.cons_append] at hchars
          obtain ⟨rfl, rfl⟩ := List.cons.inj hchars
          rw [List.append_assoc]
          exact scan_long hdigits hmark hvalue
  | symbol hkind h =>
      subst hchars
      exact scan_symbol (signKind?_of_mem hkind) (longest_symbol_iff.mp h).2
  | string h =>
      obtain ⟨rfl, rfl⟩ := List.cons.inj hchars
      rw [scan_double, List.append_assoc]
      exact scanString_of_unescapes h [] _ _
  | char h =>
      obtain ⟨rfl, rfl⟩ := List.cons.inj hchars
      rw [scan_single, List.append_assoc]
      exact scanChar_of_unescapes h

/-- A lexeme is scanned just if the text begins with one of some form. -/
theorem scan_iff_form : Lexeme.scan p c cs = .ok l ↔
    l.chars ++ l.rest = c :: cs ∧ Form l.rest l.chars l.kind l.content := by
  constructor
  · exact form_of_scan
  · rintro ⟨hsplit, h⟩
    obtain ⟨kind, content, chars, rest⟩ := l
    obtain ⟨d, tail, rfl⟩ := List.exists_cons_of_ne_nil h.ne_nil
    obtain ⟨rfl, rfl⟩ := List.cons.inj hsplit
    exact h.scan p

end Lexeme

end ProbeLang
