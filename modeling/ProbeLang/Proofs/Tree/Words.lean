import ProbeLang.Proofs.Token.Partition

/-!
# Words

An identifier is a word (`Word`): letters, digits and two signs, at least one of them. It does not
begin with a digit and is none of the reserved words (`Identifier`). The name of a class is words
with dots between them (`Spelled`), so none of the signs of a code word is in it.
-/

namespace ProbeLang

/-- Whether a text is what an identifier may be. -/
def Word (s : String) : Prop :=
  s.toList ≠ [] ∧ ∀ c ∈ s.toList, Lexeme.isWordPart c = true

/-- Whether a text has only the characters of words and dots, and at least one of them. -/
def Spelled (s : String) : Prop :=
  s.toList ≠ [] ∧ ∀ c ∈ s.toList, Lexeme.isWordPart c = true ∨ c = '.'

/-! ## The characters of names -/

theorem Word.spelled {s : String} (h : Word s) : Spelled s :=
  ⟨h.1, fun c hc => .inl (h.2 c hc)⟩

theorem Word.not_mem {s : String} {c : Char} (h : Word s) (hc : Lexeme.isWordPart c = false) :
    c ∉ s.toList := by
  intro hmem
  rw [h.2 c hmem] at hc
  cases hc

theorem Spelled.not_mem {s : String} {c : Char} (h : Spelled s) (hc : Lexeme.isWordPart c = false)
    (hdot : c ≠ '.') : c ∉ s.toList := by
  intro hmem
  rcases h.2 c hmem with hpart | rfl
  · rw [hpart] at hc
    cases hc
  · exact hdot rfl

theorem Word.append {s t : String} (hs : Word s) (ht : Word t) : Word (s ++ t) := by
  constructor
  · rw [String.toList_append]
    exact fun h => hs.1 (List.append_eq_nil_iff.mp h).1
  · intro c hc
    rw [String.toList_append] at hc
    exact (List.mem_append.mp hc).elim (hs.2 c) (ht.2 c)

/-- Whether a name is spelled can be computed. -/
theorem spelled_of_all {s : String} (hne : s.toList ≠ [])
    (h : s.toList.all (fun c => Lexeme.isWordPart c || c == '.') = true) : Spelled s := by
  refine ⟨hne, fun c hc => ?_⟩
  have hpart := List.all_eq_true.mp h c hc
  rwa [Bool.or_eq_true, beq_iff_eq] at hpart

theorem Spelled.append {s t : String} (hs : Spelled s) (ht : Spelled t) : Spelled (s ++ t) := by
  constructor
  · rw [String.toList_append]
    exact fun h => hs.1 (List.append_eq_nil_iff.mp h).1
  · intro c hc
    rw [String.toList_append] at hc
    exact (List.mem_append.mp hc).elim (hs.2 c) (ht.2 c)

theorem spelled_dot : Spelled "." :=
  ⟨by decide, by simp⟩

theorem word_dollar : Word "$" :=
  ⟨by decide, by simp [Lexeme.isWordPart]⟩

/-- A dotted name that begins with a name is spelled if its segments are words. -/
theorem spelled_intercalate {first : String} (hfirst : Spelled first) :
    ∀ {rest : List String}, (∀ s ∈ rest, Word s) → Spelled (".".intercalate (first :: rest))
  | [], _ => hfirst
  | second :: rest, hrest => by
      obtain ⟨hsecond, hrest⟩ := List.forall_mem_cons.mp hrest
      exact spelled_intercalate ((hfirst.append spelled_dot).append hsecond.spelled) hrest

/-! ## Tokens -/

/-- What an identifier may be: a word with a beginning of its own that is not reserved. -/
structure Identifier (s : String) : Prop where
  word : Word s
  start : ∀ c ∈ s.toList.head?, Lexeme.isWordStart c = true
  kind : Token.Kind.ofWord s = .identifier

theorem Identifier.exists_start {s : String} (h : Identifier s) :
    ∃ c ∈ s.toList.head?, Lexeme.isWordStart c = true := by
  obtain ⟨c, cs, hs⟩ := List.exists_cons_of_ne_nil h.word.1
  have hc : c ∈ s.toList.head? := by
    rw [hs]
    rfl
  exact ⟨c, hc, h.start c hc⟩

/-- Whether a token holds what its kind allows: an identifier if it is one, and a number in the
range of its type. -/
structure Token.Worded (t : Token) : Prop where
  ident : t.kind = .identifier → Identifier t.text
  int : t.kind = .intLiteral → Text.decimalValue t.text.toList < 0x80000000
  long : t.kind = .longLiteral → Text.decimalValue t.text.toList < 0x8000000000000000

/-- Tokens of most kinds hold nothing that could be wrong. -/
theorem Token.worded_of_kind {t : Token}
    (h : t.kind ∉ [Token.Kind.identifier, .intLiteral, .longLiteral]) : t.Worded := by
  constructor <;>
  · intro hkind
    rw [hkind] at h
    exact absurd h (by decide)

/-- What a lexeme gives holds what its kind allows. -/
theorem Lexeme.Form.worded {rest cs content : List Char} {kind : Token.Kind} {p : Pos}
    (h : Form rest cs kind content) : (⟨kind, String.ofList content, p⟩ : Token).Worded := by
  cases h with
  | word h =>
      obtain ⟨⟨c, hc, hstart⟩, hparts⟩ := h.holds
      obtain ⟨tail, rfl⟩ := List.head?_eq_some_iff.mp hc
      have hkeywords : ∀ word ∈ Token.keywords,
          word.2 ∉ [Token.Kind.identifier, .intLiteral, .longLiteral] := by
        decide
      rcases Token.Kind.ofWord_cases (String.ofList (c :: tail)) with hkind | hmem
      · rw [hkind]
        refine ⟨fun _ => ⟨⟨by simp, ?_⟩, ?_, hkind⟩, nofun, nofun⟩
        · rwa [String.toList_ofList]
        · rw [String.toList_ofList]
          rintro d ⟨⟩
          exact hstart
      · exact Token.worded_of_kind (hkeywords _ hmem)
  | int _ _ hvalue =>
      refine ⟨nofun, fun _ => ?_, nofun⟩
      rwa [String.toList_ofList]
  | long _ _ _ hvalue =>
      refine ⟨nofun, nofun, fun _ => ?_⟩
      rwa [String.toList_ofList]
  | symbol hkind _ =>
      have hsymbols : ∀ sign ∈ Token.symbols,
          sign.2 ∉ [Token.Kind.identifier, .intLiteral, .longLiteral] := by
        decide
      exact Token.worded_of_kind (hsymbols _ hkind)
  | string _ | char _ => exact Token.worded_of_kind (by simp)

theorem Token.Splits.worded {before cs : List Char} {ts : List Token} (h : Splits before cs ts) :
    ∀ t ∈ ts, t.Worded := by
  induction h with
  | stop => exact List.forall_mem_singleton.mpr (worded_of_kind (by simp))
  | blank _ _ ih | lineComment _ _ _ ih | blockComment _ _ ih => exact ih
  | lexeme _ hform _ ih => exact List.forall_mem_cons.mpr ⟨hform.worded, ih⟩

/-- The tokens of a text hold what their kinds allow. -/
theorem Token.worded_scan {text : String} {tokens : List Token} (h : scan text = .ok tokens) :
    ∀ t ∈ tokens, t.Worded :=
  (scan_iff_splits.mp h).worded

end ProbeLang
