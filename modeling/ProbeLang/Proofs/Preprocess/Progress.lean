import ProbeLang.Proofs.Fallible
import ProbeLang.Preprocess

/-!
# Processing line by line

To speak of the place where a line is read, the lines of a source are processed from one
`Progress` to the next. What a line does there is said once, by one rule for each kind of
directive and one for the other lines. `FileState.Includes` tells the lines in whose place a file
is put.
-/

namespace ProbeLang

/-! ## Sources -/

/-- How far the lines of a source have been processed. -/
structure Progress where
  /-- The number of the next line. -/
  number : Nat
  state : FileState
  macros : Macros
  out : String

namespace Progress

/-- No line has been processed. -/
def start (macros : Macros) : Progress := ⟨1, .start, macros, ""⟩

/-- The line is replaced by a text, and what is open and which macros are in force changes. -/
def next (p : Progress) (state : FileState) (macros : Macros) (text : String) : Progress :=
  ⟨p.number + 1, state, macros, p.out ++ text⟩

/-- Process one line. A fault comes with the macros in force then. -/
def step (origin : String) (splice : String → Macros → Processed) (p : Progress)
    (line : Bytes) : Except (Macros × PreprocessFault) Progress :=
  match Utf8.decode line with
  | .error _ => .error (p.macros, .io .streamNotText)
  | .ok cs =>
      match lineEffect origin p.number p.state p.macros (dropLineEnd cs) with
      | .error fault => .error (p.macros, fault)
      | .ok (.emit st macros text) => .ok (p.next st macros (text ++ "\n"))
      | .ok (.splice target) =>
          match splice target p.macros with
          | (macros, .error fault) => .error (macros, fault)
          | (macros, .ok text) => .ok (p.next p.state macros text)

/-- No line is left. -/
def finish (origin : String) (p : Progress) : Processed :=
  match p.state.conditionals with
  | [] => (p.macros, .ok p.out)
  | c :: _ => (p.macros, .error (.unbalanced origin c.openedAt .neverClosed))

/-- What has become of the lines of a source. -/
def result (origin : String) : Except (Macros × PreprocessFault) Progress → Processed
  | .error (macros, fault) => (macros, .error fault)
  | .ok p => p.finish origin

end Progress

theorem processLines_eq (origin : String) (splice : String → Macros → Processed)
    (lines : List Bytes) (p : Progress) :
    processLines origin splice p.number p.state p.macros p.out lines =
      Progress.result origin (lines.foldlM (Progress.step origin splice) p) := by
  induction lines generalizing p with
  | nil => rfl
  | cons line rest ih =>
      rw [List.foldlM_cons, processLines, Progress.step]
      cases Utf8.decode line with
      | error _ => rfl
      | ok cs =>
          dsimp only
          cases lineEffect origin p.number p.state p.macros (dropLineEnd cs) with
          | error fault => rfl
          | ok effect =>
              cases effect with
              | emit st macros text =>
                  dsimp only
                  rw [String.append_assoc]
                  exact ih (p.next st macros (text ++ "\n"))
              | splice target =>
                  dsimp only
                  rcases splice target p.macros with ⟨macros, fault | text⟩
                  · rfl
                  · exact ih (p.next p.state macros text)

/-- Process the file that a target names, from a source in which includes may nest `depth`
more levels. -/
def includeTarget (t : FileTree) (search : SearchPath) (limit : Nat) :
    Nat → String → String → Macros → Processed
  | 0, origin, _, macros => (macros, .error (.tooDeep origin limit))
  | depth + 1, origin, target, macros =>
      match search.resolve t target with
      | none => (macros, .error (.fileNotFound origin target))
      | some path =>
          match t.read path with
          | .error fault => (macros, .error (.io fault))
          | .ok content => processSource t search limit depth path macros (logicalLines content)

/-- The source is read up to a line if the lines before it are processed without a fault. -/
def ReadUpTo (t : FileTree) (search : SearchPath) (limit depth : Nat) (origin : String)
    (macros : Macros) (before : List Bytes) (p : Progress) : Prop :=
  before.foldlM (Progress.step origin (includeTarget t search limit depth origin))
    (.start macros) = .ok p

theorem processSource_eq (t : FileTree) (search : SearchPath) (limit depth : Nat)
    (origin : String) (macros : Macros) (lines : List Bytes) :
    processSource t search limit depth origin macros lines =
      Progress.result origin
        (lines.foldlM (Progress.step origin (includeTarget t search limit depth origin))
          (.start macros)) := by
  rw [← processLines_eq]
  cases depth <;> rfl

/-! ## What a line does -/

/-- Whether a directive opens, turns over or closes a conditional. -/
def Directive.isConditional (d : Directive) : Bool :=
  d.name ∈ ["ifdef", "ifndef", "else", "endif"]

/-- What a directive at line `n` does when it is not refused. -/
inductive Directive.Does (n : Nat) (st : FileState) (macros : Macros) : Directive → LineEffect → Prop
  | ifdef {operand : List Char} : isMacroName operand = true →
      Does n st macros ⟨"ifdef", operand⟩
        (.emit { st with conditionals :=
          ⟨st.active && macros.has (String.ofList operand), st.active, false, n⟩ ::
            st.conditionals } macros "")
  | ifndef {operand : List Char} : isMacroName operand = true →
      Does n st macros ⟨"ifndef", operand⟩
        (.emit { st with conditionals :=
          ⟨st.active && !macros.has (String.ofList operand), st.active, false, n⟩ ::
            st.conditionals } macros "")
  | elseBranch {operand : List Char} {c : Conditional} {outer : List Conditional} :
      st.conditionals = c :: outer → c.seenElse = false →
      Does n st macros ⟨"else", operand⟩
        (.emit { st with conditionals :=
          { c with seenElse := true, active := c.parentActive && !c.active } :: outer } macros "")
  | endif {operand : List Char} {c : Conditional} {outer : List Conditional} :
      st.conditionals = c :: outer →
      Does n st macros ⟨"endif", operand⟩ (.emit { st with conditionals := outer } macros "")
  | ignored {d : Directive} : d.isConditional = false → st.active = false →
      Does n st macros d (.emit st macros "")
  | define {operand : List Char} : st.active = true → isMacroName (splitWord operand).1 = true →
      Does n st macros ⟨"define", operand⟩
        (.emit st (macros.put (String.ofList (splitWord operand).1)
          (String.ofList (splitWord operand).2)) "")
  | undef {operand : List Char} : st.active = true → isMacroName operand = true →
      Does n st macros ⟨"undef", operand⟩ (.emit st (macros.erase (String.ofList operand)) "")
  | includes {operand : List Char} {target : String} : st.active = true →
      target? operand = some target → Does n st macros ⟨"include", operand⟩ (.splice target)
  | null {operand : List Char} : st.active = true →
      Does n st macros ⟨"", operand⟩ (.emit st macros "")

theorem Directive.does_of_effect {d : Directive} {origin : String} {n : Nat} {st : FileState}
    {macros : Macros} {e : LineEffect} (h : d.effect origin n st macros = .ok e) :
    d.Does n st macros e := by
  obtain ⟨name, operand⟩ := d
  unfold effect at h
  dsimp only at h
  split at h
  · cases hm : isMacroName operand <;> simp only [hm] at h
    · cases h
    · cases h
      simpa using Does.ifdef hm
  · cases hm : isMacroName operand <;> simp only [hm] at h
    · cases h
    · cases h
      simpa using Does.ifndef hm
  · split at h
    · cases h
    · next c outer hconditionals =>
        split at h
        · cases h
        · next hseen =>
            cases h
            exact .elseBranch hconditionals (Bool.eq_false_iff.mpr hseen)
  · split at h
    · cases h
    · next hconditionals =>
        cases h
        exact .endif hconditionals
  · next hifdef hifndef helse hendif =>
      split at h
      · next hactive =>
          cases h
          refine .ignored ?_ (by simpa using hactive)
          simp only [isConditional, List.mem_cons, List.not_mem_nil, or_false,
            decide_eq_false_iff_not, not_or]
          exact ⟨hifdef, hifndef, helse, hendif⟩
      · next hactive =>
          have hactive : st.active = true := by simpa using hactive
          split at h
          · cases hm : isMacroName (splitWord operand).1 <;> simp only [hm] at h
            · cases h
            · cases h
              exact .define hactive hm
          · cases hm : isMacroName operand <;> simp only [hm] at h
            · cases h
            · cases h
              exact .undef hactive hm
          · cases ht : target? operand with
            | none => rw [ht] at h; cases h
            | some target =>
                rw [ht] at h
                cases h
                exact .includes hactive ht
          · cases h
            exact .null hactive
          · cases h

theorem Directive.Does.effect {d : Directive} {n : Nat} {st : FileState} {macros : Macros}
    {e : LineEffect} (h : d.Does n st macros e) (origin : String) :
    d.effect origin n st macros = .ok e := by
  cases h with
  | ifdef hm => simp [Directive.effect, hm, bind, Except.bind, pure, Except.pure]
  | ifndef hm => simp [Directive.effect, hm, bind, Except.bind, pure, Except.pure]
  | elseBranch hconditionals hseen => simp [Directive.effect, hconditionals, hseen]
  | endif hconditionals => simp [Directive.effect, hconditionals]
  | ignored hd hst =>
      simp only [isConditional, List.mem_cons, List.not_mem_nil, or_false,
        decide_eq_false_iff_not, not_or] at hd
      obtain ⟨hifdef, hifndef, helse, hendif⟩ := hd
      unfold Directive.effect
      split <;> try contradiction
      rw [hst]
      rfl
  | define hst hm => simp [Directive.effect, hst, hm, bind, Except.bind, pure, Except.pure]
  | undef hst hm => simp [Directive.effect, hst, hm, bind, Except.bind, pure, Except.pure]
  | includes hst ht => simp [Directive.effect, hst, ht]
  | null hst => simp [Directive.effect, hst]

/-- A line is a directive outside block comments, or its text is copied in a branch that is taken
and left out in one that is not. -/
theorem lineEffect_eq_ok_iff {origin : String} {n : Nat} {st : FileState} {macros : Macros}
    {line : List Char} {e : LineEffect} :
    lineEffect origin n st macros line = .ok e ↔
      (∃ d, st.inComment = false ∧ Directive.ofLine? line = some d ∧ d.Does n st macros e) ∨
      ((st.inComment = true ∨ Directive.ofLine? line = none) ∧
        e = .emit { st with inComment := (macros.substitute st.inComment line).2 } macros
          (if st.active then (macros.substitute st.inComment line).1 else "")) := by
  unfold lineEffect
  cases hcomment : st.inComment with
  | true =>
      constructor
      · intro h
        exact .inr ⟨.inl rfl, (Except.ok.inj h).symm⟩
      · rintro (⟨d, hfalse, -⟩ | ⟨-, rfl⟩)
        · cases hfalse
        · rfl
  | false =>
      rw [if_neg Bool.false_ne_true]
      cases hdirective : Directive.ofLine? line with
      | none =>
          constructor
          · intro h
            exact .inr ⟨.inr rfl, (Except.ok.inj h).symm⟩
          · rintro (⟨d, -, hsome, -⟩ | ⟨-, rfl⟩)
            · cases hsome
            · rfl
      | some d =>
          constructor
          · intro h
            exact .inl ⟨d, rfl, rfl, Directive.does_of_effect h⟩
          · rintro (⟨_, -, ⟨⟩, hdoes⟩ | ⟨hfalse | hnone, -⟩)
            · exact hdoes.effect origin
            · cases hfalse
            · cases hnone

/-- The source and the line that a fault is about, if it is about a line. -/
def PreprocessFault.place? : PreprocessFault → Option (String × Nat)
  | .unknownDirective origin line _ => some (origin, line)
  | .malformedDirective origin line _ => some (origin, line)
  | .unbalanced origin line _ => some (origin, line)
  | _ => none

theorem Directive.place_of_effect {d : Directive} {origin : String} {n : Nat} {st : FileState}
    {macros : Macros} {fault : PreprocessFault} (h : d.effect origin n st macros = .error fault) :
    fault.place? = some (origin, n) := by
  unfold effect at h
  dsimp only at h
  split at h
  · cases hm : isMacroName d.operand <;> simp only [hm] at h <;> cases h
    rfl
  · cases hm : isMacroName d.operand <;> simp only [hm] at h <;> cases h
    rfl
  · split at h
    · cases h
      rfl
    · split at h <;> cases h
      rfl
  · split at h <;> cases h
    rfl
  · split at h
    · cases h
    · split at h
      · cases hm : isMacroName (splitWord d.operand).1 <;> simp only [hm] at h <;> cases h
        rfl
      · cases hm : isMacroName d.operand <;> simp only [hm] at h <;> cases h
        rfl
      · split at h <;> cases h
        rfl
      · cases h
      · cases h
        rfl

/-- What is wrong with a line is reported with its source and its number. -/
theorem place_of_lineEffect {origin : String} {n : Nat} {st : FileState} {macros : Macros}
    {line : List Char} {fault : PreprocessFault}
    (h : lineEffect origin n st macros line = .error fault) :
    fault.place? = some (origin, n) := by
  unfold lineEffect at h
  split at h
  · exact Directive.place_of_effect h
  · cases h

/-! ## Files in the place of lines -/

/-- The line asks for a file to be put in its place: it is an `#include` with a target, outside
block comments and in a branch that is taken. -/
def FileState.Includes (st : FileState) (line : Bytes) (target : String) : Prop :=
  st.active = true ∧ st.inComment = false ∧ ∃ cs operand, Utf8.decode line = .ok cs ∧
    Directive.ofLine? (dropLineEnd cs) = some ⟨"include", operand⟩ ∧
    Directive.target? operand = some target

theorem lineEffect_eq_splice_iff {origin : String} {n : Nat} {st : FileState} {macros : Macros}
    {line : List Char} {target : String} :
    lineEffect origin n st macros line = .ok (.splice target) ↔
      st.active = true ∧ st.inComment = false ∧ ∃ operand,
        Directive.ofLine? line = some ⟨"include", operand⟩ ∧
        Directive.target? operand = some target := by
  rw [lineEffect_eq_ok_iff]
  constructor
  · rintro (⟨d, hcomment, hline, hdoes⟩ | ⟨-, hemit⟩)
    · cases hdoes with
      | includes hactive htarget => exact ⟨hactive, hcomment, _, hline, htarget⟩
    · cases hemit
  · rintro ⟨hactive, hcomment, operand, hline, htarget⟩
    exact .inl ⟨_, hcomment, hline, .includes hactive htarget⟩

theorem FileState.Includes.lineEffect_eq {st : FileState} {line : Bytes} {target : String}
    (h : st.Includes line target) : ∃ cs, Utf8.decode line = .ok cs ∧
      ∀ (origin : String) (n : Nat) (macros : Macros),
        lineEffect origin n st macros (dropLineEnd cs) = .ok (.splice target) := by
  obtain ⟨hactive, hcomment, cs, operand, hline, hdirective, htarget⟩ := h
  refine ⟨cs, hline, ?_⟩
  intro origin n macros
  exact lineEffect_eq_splice_iff.mpr ⟨hactive, hcomment, operand, hdirective, htarget⟩

theorem FileState.includes_of_lineEffect {origin : String} {n : Nat} {st : FileState}
    {macros : Macros} {line : Bytes} {cs : List Char} {target : String}
    (hline : Utf8.decode line = .ok cs)
    (h : lineEffect origin n st macros (dropLineEnd cs) = .ok (.splice target)) :
    st.Includes line target := by
  obtain ⟨hactive, hcomment, operand, hdirective, htarget⟩ := lineEffect_eq_splice_iff.mp h
  exact ⟨hactive, hcomment, cs, operand, hline, hdirective, htarget⟩

/-- A line that is processed leaves a text and a line end, or what the file it asks for leaves. -/
theorem Progress.step_eq_ok {origin : String} {splice : String → Macros → Processed}
    {p q : Progress} {line : Bytes} (h : p.step origin splice line = .ok q) :
    ∃ cs, Utf8.decode line = .ok cs ∧
      ((∃ st macros text,
        lineEffect origin p.number p.state p.macros (dropLineEnd cs) = .ok (.emit st macros text) ∧
          q = p.next st macros (text ++ "\n")) ∨
      ∃ target macros text, p.state.Includes line target ∧
        splice target p.macros = (macros, .ok text) ∧ q = p.next p.state macros text) := by
  unfold step at h
  split at h
  · cases h
  · next cs hline =>
      refine ⟨cs, hline, ?_⟩
      split at h
      · cases h
      · next st macros text heffect =>
          cases h
          exact .inl ⟨st, macros, text, heffect, rfl⟩
      · next target heffect =>
          split at h
          · cases h
          · next macros text hsplice =>
              cases h
              exact .inr ⟨target, macros, text, FileState.includes_of_lineEffect hline heffect,
                hsplice, rfl⟩

theorem Progress.step_of_includes {p : Progress} {line : Bytes} {target : String}
    (h : p.state.Includes line target) (origin : String) (splice : String → Macros → Processed) :
    p.step origin splice line =
      match splice target p.macros with
      | (macros, .error fault) => .error (macros, fault)
      | (macros, .ok text) => .ok (p.next p.state macros text) := by
  obtain ⟨cs, hline, heffect⟩ := h.lineEffect_eq
  simp only [step, hline, heffect]

theorem includeTarget_eq_ok {t : FileTree} {search : SearchPath} {limit depth : Nat}
    {origin target text : String} {macros macros' : Macros}
    (h : includeTarget t search limit depth origin target macros = (macros', .ok text)) :
    ∃ (below : Nat) (path : String) (content : Bytes), depth = below + 1 ∧
      search.resolve t target = some path ∧
      t.read path = .ok content ∧
      processSource t search limit below path macros (logicalLines content) =
        (macros', .ok text) := by
  cases depth with
  | zero => cases h
  | succ below =>
      simp only [includeTarget] at h
      split at h
      · cases h
      · next path hpath =>
          split at h
          · cases h
          · next content hcontent => exact ⟨below, path, content, rfl, hpath, hcontent, h⟩

/-! ## Reading up to a line -/

section ReadUpTo

variable {t : FileTree} {search : SearchPath} {limit depth : Nat} {origin : String}
  {macros : Macros} {before : List Bytes} {p q : Progress}

theorem readUpTo_append_iff {lines : List Bytes} :
    ReadUpTo t search limit depth origin macros (before ++ lines) q ↔
      ∃ p, ReadUpTo t search limit depth origin macros before p ∧
        lines.foldlM (Progress.step origin (includeTarget t search limit depth origin)) p =
          .ok q := by
  unfold ReadUpTo
  rw [List.foldlM_append]
  constructor
  · exact except_bind_ok
  · rintro ⟨p, hp, hq⟩
    rw [hp]
    exact hq

theorem readUpTo_concat_iff {line : Bytes} :
    ReadUpTo t search limit depth origin macros (before ++ [line]) q ↔
      ∃ p, ReadUpTo t search limit depth origin macros before p ∧
        p.step origin (includeTarget t search limit depth origin) line = .ok q := by
  rw [readUpTo_append_iff]
  refine exists_congr ?_
  intro p
  rw [List.foldlM_cons]
  cases p.step origin (includeTarget t search limit depth origin) line with
  | error e => rfl
  | ok r => rfl

theorem ReadUpTo.unique (hp : ReadUpTo t search limit depth origin macros before p)
    (hq : ReadUpTo t search limit depth origin macros before q) : p = q :=
  Except.ok.inj (hp.symm.trans hq)

/-- A source is processed if it is read to its end with no conditional open there. -/
theorem processSource_eq_ok_iff {lines : List Bytes} {macros' : Macros} {out : String} :
    processSource t search limit depth origin macros lines = (macros', .ok out) ↔
      ∃ p, ReadUpTo t search limit depth origin macros lines p ∧ p.state.conditionals = [] ∧
        p.macros = macros' ∧ p.out = out := by
  rw [processSource_eq]
  unfold ReadUpTo
  cases lines.foldlM (Progress.step origin (includeTarget t search limit depth origin))
    (.start macros) with
  | error e =>
      constructor
      · intro h
        cases h
      · rintro ⟨p, hp, -⟩
        cases hp
  | ok p =>
      simp only [Except.ok.injEq, exists_eq_left']
      show p.finish origin = _ ↔ _
      unfold Progress.finish
      split
      · next hnil => simp [hnil]
      · next hcons => simp [hcons]

end ReadUpTo

end ProbeLang
