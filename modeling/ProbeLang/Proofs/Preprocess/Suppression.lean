import ProbeLang.Proofs.Preprocess.Progress

/-!
# Suppressed lines

A line in a branch that is not taken has no influence: with an empty line in its place the
source has the same result and the same macros are in force afterwards. Directives of such a
branch are not looked at, malformed ones included, and the others only count for the
conditionals they open, turn over and close.
-/

namespace ProbeLang

/-! ## A suppressed line -/

/-- A line that is read in a branch that is not taken, is no directive for conditionals, and
has no block comment open at its start and its end. A directive opens no comment. -/
structure Suppressed (p : Progress) (line : List Char) : Prop where
  inactive : p.state.active = false
  outside : p.state.inComment = false
  closed : Directive.ofLine? line = none → (p.macros.substitute false line).2 = false
  unconditional : ∀ d, Directive.ofLine? line = some d → d.isConditional = false

/-- A suppressed line leaves an empty line behind, and nothing else changes. -/
theorem Suppressed.lineEffect_eq {p : Progress} {line : List Char} (h : Suppressed p line)
    (origin : String) :
    lineEffect origin p.number p.state p.macros line = .ok (.emit p.state p.macros "") := by
  have hinactive := h.inactive
  have houtside := h.outside
  unfold lineEffect
  rw [houtside]
  cases hdirective : Directive.ofLine? line with
  | some d =>
      have hignored : d.Does p.number p.state p.macros (.emit p.state p.macros "") :=
        .ignored (h.unconditional d hdirective) hinactive
      exact hignored.effect origin
  | none =>
      have hclosed := h.closed hdirective
      simp only [hclosed, hinactive, Bool.false_eq_true, if_false]
      rw [← houtside]

theorem Suppressed.step_eq {p : Progress} {line : Bytes} {cs : List Char}
    (h : Suppressed p (dropLineEnd cs)) (hline : Utf8.decode line = .ok cs) (origin : String)
    (splice : String → Macros → Processed) :
    p.step origin splice line = .ok (p.next p.state p.macros "\n") := by
  simp only [Progress.step, hline, h.lineEffect_eq origin]
  rfl

/-- An empty line is suppressed wherever a line is. -/
theorem Suppressed.empty {p : Progress} {line : List Char} (h : Suppressed p line) :
    Suppressed p (dropLineEnd ['\n']) where
  inactive := h.inactive
  outside := h.outside
  closed _ := rfl
  unconditional _ := nofun

/-- With an empty line in the place of a suppressed one, a source has the same result and leaves
the same macros. -/
theorem processSource_suppressed {t : FileTree} {search : SearchPath} {limit depth : Nat}
    {origin : String} {macros : Macros} {before : List Bytes} {p : Progress} {line : Bytes}
    {cs : List Char} (hbefore : ReadUpTo t search limit depth origin macros before p)
    (hline : Utf8.decode line = .ok cs) (h : Suppressed p (dropLineEnd cs))
    (after : List Bytes) :
    processSource t search limit depth origin macros (before ++ line :: after) =
      processSource t search limit depth origin macros (before ++ [lineFeed] :: after) := by
  have hempty : Utf8.decode [lineFeed] = .ok ['\n'] := rfl
  simp only [processSource_eq, List.foldlM_append, List.foldlM_cons]
  rw [show before.foldlM _ _ = _ from hbefore]
  show Progress.result origin (p.step _ _ line >>= _) = Progress.result origin (p.step _ _ _ >>= _)
  rw [h.step_eq hline, h.empty.step_eq hempty]

/-- A source with a line in the second branch of a conditional that stands in a branch not
taken. -/
def nestedBranch (line : String) : Bytes :=
  .ofString ("#ifdef A\n#ifndef B\n#else\n" ++ line ++ "\n#endif\n#endif\nA\n")

/-- How far that source has been processed in front of the line. -/
def nestedProgress : Progress :=
  ⟨4, ⟨[⟨false, false, true, 2⟩, ⟨false, true, false, 1⟩], false⟩, [], "\n\n\n"⟩

theorem processSource_suppressed_nested :
    Suppressed nestedProgress "#include <x /* A */".toList ∧
      preprocess .empty ⟨[]⟩ defaultIncludeDepth [] "A.probe" (nestedBranch "#include <x /* A */") =
        preprocess .empty ⟨[]⟩ defaultIncludeDepth [] "A.probe" (nestedBranch "") := by
  have hdirective : Directive.ofLine? "#include <x /* A */".toList =
      some ⟨"include", "<x /* A */".toList⟩ := by decide +kernel
  have hsuppressed : Suppressed nestedProgress "#include <x /* A */".toList := by
    refine ⟨rfl, rfl, ?_, ?_⟩
    · intro hnone
      rw [hdirective] at hnone
      cases hnone
    · intro d hd
      obtain rfl := Option.some.inj (hdirective.symm.trans hd)
      rfl
  have hlines : logicalLines (nestedBranch "#include <x /* A */") =
      ["#ifdef A\n", "#ifndef B\n", "#else\n"].map Bytes.ofString ++
        .ofString "#include <x /* A */\n" ::
          ["#endif\n", "#endif\n", "A\n"].map Bytes.ofString := by decide +kernel
  have hempty : logicalLines (nestedBranch "") =
      ["#ifdef A\n", "#ifndef B\n", "#else\n"].map Bytes.ofString ++
        [lineFeed] :: ["#endif\n", "#endif\n", "A\n"].map Bytes.ofString := by decide +kernel
  have hread : ReadUpTo .empty ⟨[]⟩ defaultIncludeDepth defaultIncludeDepth "A.probe" []
      (["#ifdef A\n", "#ifndef B\n", "#else\n"].map Bytes.ofString) nestedProgress := by
    unfold ReadUpTo
    rfl
  have hline : Utf8.decode (.ofString "#include <x /* A */\n") =
      .ok "#include <x /* A */\n".toList := rfl
  rw [preprocess, preprocess, hlines, hempty]
  exact ⟨hsuppressed, processSource_suppressed hread hline hsuppressed _⟩

end ProbeLang
