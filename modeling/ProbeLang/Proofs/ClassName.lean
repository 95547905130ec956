import Mathlib.Data.List.DropRight
import ProbeLang.ClassName

/-!
# Taking class names apart

What stands behind the last sign of a name is found behind any of the signs, so it does not depend
on how the name begins. It is the whole name if and only if there is no such sign.
-/

namespace ProbeLang

/-! ## Last pieces -/

namespace Text

variable {p : Char → Bool} {c : Char} {cs : List Char}

theorem lastPiece_eq (p : Char → Bool) (cs : List Char) :
    lastPiece p cs = cs.rtakeWhile fun c => !p c :=
  rfl

/-- The last piece of a text is that of what stands behind any of the signs. -/
theorem lastPiece_append_cons (hc : p c = true) (as bs : List Char) :
    lastPiece p (as ++ c :: bs) = lastPiece p bs := by
  simp only [lastPiece_eq]
  induction bs using List.reverseRecOn with
  | nil => rw [List.rtakeWhile_concat_neg _ _ _ (by simp [hc]), List.rtakeWhile_nil]
  | append_singleton bs b ih =>
      rw [← List.cons_append, ← List.append_assoc, List.rtakeWhile_concat, List.rtakeWhile_concat,
        ih]

theorem lastPiece_eq_self_iff : lastPiece p cs = cs ↔ ∀ c ∈ cs, p c = false := by
  rw [lastPiece_eq, List.rtakeWhile_eq_self_iff]
  simp only [Bool.not_eq_true']

theorem not_of_mem_lastPiece (h : c ∈ lastPiece p cs) : p c = false := by
  rw [lastPiece_eq] at h
  simpa using List.mem_rtakeWhile_imp h

end Text

/-! ## The parts of a name -/

variable {name : String}

/-- The simple name of a nested class does not depend on the classes around it. -/
theorem nestedName_append (outer name : String) :
    nestedName (outer ++ "$" ++ name) = nestedName name := by
  unfold nestedName
  rw [String.toList_append, String.toList_append, List.append_assoc]
  exact congrArg String.ofList (Text.lastPiece_append_cons (decide_eq_true rfl) _ _)

theorem nestedName_eq_self_iff : nestedName name = name ↔ '$' ∉ name.toList := by
  rw [nestedName, ← String.toList_inj, String.toList_ofList, Text.lastPiece_eq_self_iff]
  simp only [decide_eq_false_iff_not]
  exact ⟨fun h hmem => h _ hmem rfl, fun h c hc heq => h (heq ▸ hc)⟩

theorem not_mem_nestedName (name : String) : '$' ∉ (nestedName name).toList := by
  intro h
  rw [nestedName, String.toList_ofList] at h
  exact absurd (Text.not_of_mem_lastPiece h) (by decide)

section

variable (hdot : '.' ∉ name.toList)

include hdot

/-- A name without dots is its last part, behind any package. -/
theorem lastPiece_dot : Text.lastPiece (· = '.') name.toList = name.toList :=
  Text.lastPiece_eq_self_iff.mpr fun _ hc => decide_eq_false fun heq => hdot (heq ▸ hc)

theorem lastPiece_dot_append (package : String) :
    Text.lastPiece (· = '.') (package ++ "." ++ name).toList = name.toList := by
  rw [String.toList_append, String.toList_append, List.append_assoc]
  exact (Text.lastPiece_append_cons (decide_eq_true rfl) _ _).trans (lastPiece_dot hdot)

theorem lastName_eq_self : lastName name = name := by
  rw [lastName, lastPiece_dot hdot, String.ofList_toList]

theorem lastName_append (package : String) : lastName (package ++ "." ++ name) = name := by
  rw [lastName, lastPiece_dot_append hdot, String.ofList_toList]

theorem splitLastDot_eq_none : splitLastDot name = none := by
  unfold splitLastDot
  dsimp only
  rw [lastPiece_dot hdot, if_neg (Nat.lt_irrefl _)]

/-- A name in a package is taken apart at the dot behind the package. -/
theorem splitLastDot_append (package : String) :
    splitLastDot (package ++ "." ++ name) = some (package, name) := by
  have hlength : (package ++ "." ++ name).toList.length =
      package.toList.length + 1 + name.toList.length := by
    rw [String.toList_append, String.toList_append, List.length_append, List.length_append]
    rfl
  have hfront : (package ++ "." ++ name).toList.take package.toList.length = package.toList := by
    rw [String.toList_append, String.toList_append, List.append_assoc, List.take_left]
  unfold splitLastDot
  dsimp only
  rw [lastPiece_dot_append hdot, hlength, if_pos (by omega), Nat.add_sub_cancel,
    Nat.add_sub_cancel, hfront, String.ofList_toList, String.ofList_toList]

end

end ProbeLang
