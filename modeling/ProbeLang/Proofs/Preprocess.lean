import Mathlib.Data.List.Forall2
import ProbeLang.Proofs.Preprocess.Progress

/-!
# Where a source is processed

A source can be processed under another name, with more levels left for includes, behind other
lines, or within conditionals that are active. None of that shows in what its lines do, except in
faults. The two runs go side by side from line to line (`Progress.Within`): the same macros are in
force, the same text is added, and the same conditionals are open within those around.
-/

namespace ProbeLang

/-! ## Lines within conditionals -/

/-- The same conditional, perhaps opened at another line. -/
structure Conditional.Alike (c c' : Conditional) : Prop where
  active : c'.active = c.active
  parentActive : c'.parentActive = c.parentActive
  seenElse : c'.seenElse = c.seenElse

theorem Conditional.Alike.refl (c : Conditional) : c.Alike c := ⟨rfl, rfl, rfl⟩

/-- The state `st'` is `st` within the conditionals `around`. -/
structure FileState.Within (around : List Conditional) (st st' : FileState) : Prop where
  inComment : st'.inComment = st.inComment
  conditionals : ∃ inner, st'.conditionals = inner ++ around ∧
    List.Forall₂ Conditional.Alike st.conditionals inner

namespace FileState.Within

variable {around : List Conditional} {st st' : FileState}

protected theorem refl (st : FileState) : st.Within [] st :=
  ⟨rfl, st.conditionals, (List.append_nil _).symm, List.forall₂_same.mpr fun c _ => .refl c⟩

theorem active_eq (h : st.Within around st')
    (haround : FileState.active ⟨around, false⟩ = true) : st'.active = st.active := by
  obtain ⟨conditionals, inComment⟩ := st
  obtain ⟨-, inner, hinner, halike⟩ := h
  unfold FileState.active
  rw [hinner]
  cases halike with
  | nil => exact haround
  | cons hc _ => exact hc.active

theorem cons {c : Conditional} {outer : List Conditional} (h : st.Within around st')
    (hst : st.conditionals = c :: outer) : ∃ c' outer', st'.conditionals = c' :: outer' ∧
      c.Alike c' ∧ ∀ b, FileState.Within around ⟨outer, b⟩ ⟨outer', b⟩ := by
  obtain ⟨-, inner, hinner, halike⟩ := h
  rw [hst] at halike
  obtain ⟨c', outer', hc, houter, rfl⟩ := List.forall₂_cons_left_iff.mp halike
  exact ⟨c', outer' ++ around, hinner, hc, fun b => ⟨rfl, outer', rfl, houter⟩⟩

theorem push {c c' : Conditional} {outer outer' : List Conditional} {b b' : Bool}
    (h : FileState.Within around ⟨outer, b⟩ ⟨outer', b'⟩) (hc : c.Alike c') :
    FileState.Within around ⟨c :: outer, b⟩ ⟨c' :: outer', b'⟩ := by
  obtain ⟨hcomment, inner, hinner, halike⟩ := h
  exact ⟨hcomment, c' :: inner, congrArg (c' :: ·) hinner, .cons hc halike⟩

end FileState.Within

/-- What a line does, within some conditionals: the same text and macros, or the same file. -/
inductive LineEffect.Within (around : List Conditional) : LineEffect → LineEffect → Prop
  | emit {st st' : FileState} {macros : Macros} {text : String} : st.Within around st' →
      Within around (.emit st macros text) (.emit st' macros text)
  | splice {target : String} : Within around (.splice target) (.splice target)

section Within

variable {around : List Conditional} {st st' : FileState} {macros : Macros} {e : LineEffect}
  {n : Nat}

/-- A directive does the same within conditionals that are active. -/
theorem Directive.Does.within {d : Directive} (h : d.Does n st macros e)
    (hstate : st.Within around st') (haround : FileState.active ⟨around, false⟩ = true)
    (n' : Nat) : ∃ e', d.Does n' st' macros e' ∧ e.Within around e' := by
  have hactive := hstate.active_eq haround
  cases h with
  | ifdef hname =>
      refine ⟨_, .ifdef hname, .emit (hstate.push ⟨?_, hactive, rfl⟩)⟩
      rw [hactive]
  | ifndef hname =>
      refine ⟨_, .ifndef hname, .emit (hstate.push ⟨?_, hactive, rfl⟩)⟩
      rw [hactive]
  | elseBranch hst hseen =>
      obtain ⟨c', outer', hst', hc, houter⟩ := hstate.cons hst
      refine ⟨_, .elseBranch hst' (hc.seenElse.trans hseen), .emit ?_⟩
      rw [hstate.inComment]
      refine (houter _).push ⟨?_, hc.parentActive, rfl⟩
      rw [hc.parentActive, hc.active]
  | endif hst =>
      obtain ⟨c', outer', hst', -, houter⟩ := hstate.cons hst
      refine ⟨_, .endif hst', .emit ?_⟩
      rw [hstate.inComment]
      exact houter _
  | ignored hd hst => exact ⟨_, .ignored hd (hactive.trans hst), .emit hstate⟩
  | define hst hname => exact ⟨_, .define (hactive.trans hst) hname, .emit hstate⟩
  | undef hst hname => exact ⟨_, .undef (hactive.trans hst) hname, .emit hstate⟩
  | includes hst htarget => exact ⟨_, .includes (hactive.trans hst) htarget, .splice⟩
  | null hst => exact ⟨_, .null (hactive.trans hst), .emit hstate⟩

theorem lineEffect_within {origin : String} {line : List Char}
    (h : lineEffect origin n st macros line = .ok e) (hstate : st.Within around st')
    (haround : FileState.active ⟨around, false⟩ = true) (origin' : String) (n' : Nat) :
    ∃ e', lineEffect origin' n' st' macros line = .ok e' ∧ e.Within around e' := by
  have hactive := hstate.active_eq haround
  have hcomment := hstate.inComment
  obtain ⟨d, hopen, hdirective, hdoes⟩ | ⟨hcopied, rfl⟩ := lineEffect_eq_ok_iff.mp h
  · obtain ⟨e', hdoes', he⟩ := hdoes.within hstate haround n'
    exact ⟨e', lineEffect_eq_ok_iff.mpr (.inl ⟨d, hcomment.trans hopen, hdirective, hdoes'⟩), he⟩
  · rw [← hcomment, ← hactive]
    rw [← hcomment] at hcopied
    exact ⟨_, lineEffect_eq_ok_iff.mpr (.inr ⟨hcopied, rfl⟩), .emit ⟨rfl, hstate.conditionals⟩⟩

end Within

/-- The run `p'` is at the same place as `p`, within some conditionals and behind some text. -/
structure Progress.Within (around : List Conditional) (front : String) (p p' : Progress) :
    Prop where
  state : p.state.Within around p'.state
  macros : p'.macros = p.macros
  out : p'.out = front ++ p.out

protected theorem Progress.Within.refl (p : Progress) : p.Within [] "" p :=
  ⟨.refl p.state, rfl, String.empty_append.symm⟩

/-- Side by side with nothing around, both runs end alike. -/
theorem Progress.Within.finished {p q : Progress} (h : p.Within [] "" q)
    (hclosed : p.state.conditionals = []) :
    q.state.conditionals = [] ∧ q.macros = p.macros ∧ q.out = p.out := by
  obtain ⟨⟨-, inner, hinner, halike⟩, hmacros, hout⟩ := h
  rw [hclosed, List.forall₂_nil_left_iff] at halike
  refine ⟨?_, hmacros, ?_⟩
  · rw [hinner, halike]
    rfl
  · rw [hout, String.empty_append]

section Run

variable {around : List Conditional} {front origin : String}
  {splice splice' : String → Macros → Processed} {p p' q : Progress}

theorem Progress.Within.next (h : p.Within around front p') {st st' : FileState}
    (hstate : st.Within around st') (macros : Macros) (text : String) :
    (p.next st macros text).Within around front (p'.next st' macros text) where
  state := hstate
  macros := rfl
  out := by
    show p'.out ++ text = front ++ (p.out ++ text)
    rw [h.out, String.append_assoc]

theorem Progress.Within.step (h : p.Within around front p') {line : Bytes}
    (hstep : p.step origin splice line = .ok q)
    (haround : FileState.active ⟨around, false⟩ = true)
    (hsplice : ∀ target macros macros' text, splice target macros = (macros', .ok text) →
      splice' target macros = (macros', .ok text)) (origin' : String) :
    ∃ q', p'.step origin' splice' line = .ok q' ∧ q.Within around front q' := by
  obtain ⟨cs, hline, ⟨st, macros, text, heffect, rfl⟩ |
    ⟨target, macros, text, hincludes, htext, rfl⟩⟩ := step_eq_ok hstep
  · obtain ⟨e', heffect', he⟩ :=
      lineEffect_within heffect h.state haround origin' p'.number
    cases he with
    | emit hstate =>
        refine ⟨_, ?_, h.next hstate macros (text ++ "\n")⟩
        simp only [Progress.step, hline, h.macros, heffect']
  · obtain ⟨hactive, hcomment, hdirective⟩ := hincludes
    have hincludes' : p'.state.Includes line target :=
      ⟨(h.state.active_eq haround).trans hactive, h.state.inComment.trans hcomment, hdirective⟩
    refine ⟨_, ?_, h.next h.state macros text⟩
    rw [step_of_includes hincludes', h.macros, hsplice target p.macros macros text htext]

theorem Progress.Within.run (haround : FileState.active ⟨around, false⟩ = true)
    (hsplice : ∀ target macros macros' text, splice target macros = (macros', .ok text) →
      splice' target macros = (macros', .ok text)) (origin' : String) :
    ∀ (lines : List Bytes) {p p' : Progress}, p.Within around front p' →
      lines.foldlM (Progress.step origin splice) p = .ok q →
      ∃ q', lines.foldlM (Progress.step origin' splice') p' = .ok q' ∧ q.Within around front q' := by
  intro lines
  induction lines with
  | nil =>
      intro p p' h hrun
      cases hrun
      exact ⟨p', rfl, h⟩
  | cons line rest ih =>
      intro p p' h hrun
      rw [List.foldlM_cons] at hrun
      obtain ⟨r, hstep, hrest⟩ := except_bind_ok hrun
      obtain ⟨r', hstep', hr⟩ := h.step hstep haround hsplice origin'
      obtain ⟨q', hrest', hq⟩ := ih hr hrest
      refine ⟨q', ?_, hq⟩
      rw [List.foldlM_cons, hstep']
      exact hrest'

end Run

/-! ## Names and levels -/

section Source

variable {t : FileTree} {search : SearchPath} {limit limit' depth depth' : Nat}
  {name name' target text out : String} {macros macros' : Macros} {lines : List Bytes}

/-- A source is processed in the same way wherever the files that its lines ask for are. -/
theorem processSource_of_includes
    (hincludes : ∀ target macros macros' text,
      includeTarget t search limit depth name target macros = (macros', .ok text) →
      includeTarget t search limit' depth' name' target macros = (macros', .ok text))
    (h : processSource t search limit depth name macros lines = (macros', .ok out)) :
    processSource t search limit' depth' name' macros lines = (macros', .ok out) := by
  obtain ⟨p, hread, hclosed, rfl, rfl⟩ := processSource_eq_ok_iff.mp h
  obtain ⟨q, hread', hq⟩ :=
    Progress.Within.run rfl hincludes name' lines (.refl (.start macros)) hread
  exact processSource_eq_ok_iff.mpr ⟨q, hread', hq.finished hclosed⟩

/-- What is put in the place of a line with some levels left is put there in the same way with
more of them. -/
theorem includeTarget_mono (hdepth : depth ≤ depth')
    (h : includeTarget t search limit depth name target macros = (macros', .ok text)) :
    includeTarget t search limit' depth' name' target macros = (macros', .ok text) := by
  induction depth generalizing depth' name name' target macros macros' text with
  | zero => cases h
  | succ depth ih =>
      obtain ⟨below, path, content, hbelow, hpath, hcontent, hfile⟩ := includeTarget_eq_ok h
      obtain rfl := Nat.succ.inj hbelow
      obtain ⟨below', rfl⟩ : ∃ k, depth' = k + 1 := ⟨depth' - 1, by omega⟩
      simp only [includeTarget, hpath, hcontent]
      refine processSource_of_includes ?_ hfile
      intro target macros macros' text hok
      exact ih (Nat.le_of_succ_le_succ hdepth) hok

theorem processSource_mono (hdepth : depth ≤ depth')
    (h : processSource t search limit depth name macros lines = (macros', .ok out)) :
    processSource t search limit' depth' name' macros lines = (macros', .ok out) := by
  refine processSource_of_includes ?_ h
  intro target macros macros' text hok
  exact includeTarget_mono hdepth hok

/-- A text that can be preprocessed has the same result under every name. -/
theorem preprocessText_name {result : String}
    (h : preprocessText t search name text = .ok result) (name' : String) :
    preprocessText t search name' text = .ok result := by
  have hsame : preprocess t search defaultIncludeDepth [] name' (.ofString text) =
      ((preprocess t search defaultIncludeDepth [] name (.ofString text)).1, .ok result) :=
    processSource_mono (Nat.le_refl _) (Prod.ext rfl h)
  rw [preprocessText, hsame]

end Source

end ProbeLang
