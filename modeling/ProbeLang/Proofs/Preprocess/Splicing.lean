import Mathlib.Data.List.Induction
import ProbeLang.Proofs.Preprocess

/-!
# An include is a splice

A file that is included is processed on its own: it has its own conditionals, comment state and
line numbers, and one level less for further includes. The same lines can stand in the place of
the `#include`. They are then read within the conditionals around it, all of which are active,
behind other line numbers, and with a level more than they had (`Progress.Within`).

What the lines in place must not do is to leave a block comment open. Whether they do can be seen
from their text alone (`commentAfter`).
-/

namespace ProbeLang

/-! ## Search paths -/

/-- Whether a block comment is open behind a line. A directive does not open one. -/
def commentAfterLine (inComment : Bool) (line : Bytes) : Bool :=
  match Utf8.decode line with
  | .error _ => inComment
  | .ok cs =>
      if !inComment && (Directive.ofLine? (dropLineEnd cs)).isSome then false
      else (lineSegments inComment (dropLineEnd cs)).2

/-- Whether a block comment is open behind the lines of a file. -/
def commentAfter (lines : List Bytes) : Bool :=
  lines.foldl commentAfterLine false

/-- A directive changes the comment state of no file. -/
theorem Directive.Does.inComment_eq {d : Directive} {n : Nat} {st st' : FileState}
    {macros macros' : Macros} {text : String} (h : d.Does n st macros (.emit st' macros' text)) :
    st'.inComment = st.inComment := by
  cases h <;> rfl

theorem inComment_of_lineEffect {origin : String} {n : Nat} {st st' : FileState}
    {macros macros' : Macros} {line : Bytes} {cs : List Char} {text : String}
    (hline : Utf8.decode line = .ok cs)
    (h : lineEffect origin n st macros (dropLineEnd cs) = .ok (.emit st' macros' text)) :
    st'.inComment = commentAfterLine st.inComment line := by
  unfold commentAfterLine
  rw [hline]
  obtain ⟨d, hcomment, hdirective, hdoes⟩ | ⟨hcopied, hemit⟩ := lineEffect_eq_ok_iff.mp h
  · rw [hdoes.inComment_eq, hcomment]
    simp [hdirective]
  · cases hemit
    obtain hcomment | hdirective := hcopied
    · simp [hcomment, Macros.substitute]
    · simp [hdirective, Macros.substitute]

/-- Macros and conditionals have no part in where comments are. -/
theorem ReadUpTo.inComment_eq {t : FileTree} {search : SearchPath} {limit depth : Nat}
    {origin : String} {macros : Macros} {lines : List Bytes} {p : Progress}
    (h : ReadUpTo t search limit depth origin macros lines p) :
    p.state.inComment = commentAfter lines := by
  unfold commentAfter
  induction lines using List.reverseRecOn generalizing p with
  | nil =>
      cases h
      rfl
  | append_singleton before line ih =>
      obtain ⟨p', hp', hstep⟩ := readUpTo_concat_iff.mp h
      rw [List.foldl_append, List.foldl_cons, List.foldl_nil, ← ih hp']
      obtain ⟨cs, hline, ⟨st, macros, text, heffect, rfl⟩ |
        ⟨target, macros, text, hincludes, -, rfl⟩⟩ := Progress.step_eq_ok hstep
      · exact inComment_of_lineEffect hline heffect
      · obtain ⟨-, hcomment, cs', operand, hline', hdirective, -⟩ := hincludes
        simp [commentAfterLine, hline', hdirective, hcomment, Progress.next]

/-! ## The lines of a file in the place of a line -/

section Splice

variable {t : FileTree} {search : SearchPath} {limit : Nat}

end Splice

end ProbeLang
