import ProbeLang.Proofs.Lines.Stream
import ProbeLang.Proofs.Preprocess.Nesting
import ProbeLang.Proofs.Preprocess.Segments
import ProbeLang.Proofs.Table

/-!
# The lines of the output

Every logical line leaves a piece in the output: an `#include` that is carried out the text of its
file, and every other line one line (`Leaves`). So the lines of a source without includes keep
their numbers, and these are the numbers that faults name.

One line of text must stay one line. A line feed stands nowhere but at the end of a logical line,
and no part of a line that becomes the text of a macro has one; so if the macros at the start have
none (`Macros.SingleLine`), no macro ever has, through all files that are included.
-/

namespace ProbeLang

/-! ## Text without line feeds -/

/-- No line feed stands in the text of a macro. -/
def Macros.SingleLine (macros : Macros) : Prop :=
  ∀ entry ∈ macros, '\n' ∉ entry.2.toList

instance (macros : Macros) : Decidable macros.SingleLine :=
  inferInstanceAs (Decidable (∀ entry ∈ macros, '\n' ∉ entry.2.toList))

/-- No line feed stands in a line but at its end. -/
def FeedOnlyAtEnd (line : Bytes) : Prop :=
  ∀ cs, Utf8.decode line = .ok cs → '\n' ∉ dropLineEnd cs

theorem PhysicalLines.of_mem {input line : Bytes} {lines : List Bytes}
    (h : PhysicalLines input lines) (hline : line ∈ lines) :
    ∃ content, lineFeed ∉ content ∧ (line = content ∨ line = content ++ [lineFeed]) := by
  induction h with
  | nil => cases hline
  | @last content _ hcontent =>
      obtain rfl := List.mem_singleton.mp hline
      exact ⟨line, hcontent, .inl rfl⟩
  | @line content _ _ hcontent _ ih =>
      obtain rfl | hline := List.mem_cons.mp hline
      · exact ⟨content, hcontent, .inr rfl⟩
      · exact ih hline

theorem dropRightWhile_subset (p : Char → Bool) (cs : List Char) :
    Text.dropRightWhile p cs ⊆ cs := by
  intro c hc
  have hmem := (List.dropWhile_sublist p).subset (List.mem_reverse.mp hc)
  exact List.mem_reverse.mp hmem

theorem trimBlanks_subset (cs : List Char) : Text.trimBlanks cs ⊆ cs := by
  intro c hc
  exact (List.dropWhile_sublist _).subset (dropRightWhile_subset _ _ hc)

theorem feedOnlyAtEnd_of_mem {input line : Bytes} (h : line ∈ logicalLines input) :
    FeedOnlyAtEnd line := by
  intro cs hcs
  have hencode := Utf8.encode_of_decode hcs
  -- The line is the UTF-8 form of its characters, so they are cut where the bytes are.
  obtain ⟨content, hcontent, rfl | rfl⟩ := (physicalLines_splitLines _).of_mem h
  · intro hmem
    rw [← hencode] at hcontent
    exact Utf8.newline_not_mem hcontent (dropRightWhile_subset _ _ hmem)
  · obtain ⟨before, after, rfl, hbefore, hafter⟩ := Utf8.encode_eq_append_cons hencode (by decide)
    obtain rfl : after = [] := Utf8.eq_ascii hafter (by simp)
    have hending : ∀ c ∈ [Char.ofNat lineFeed.toNat], c = '\n' ∨ c = '\r' := by
      intro c hc
      exact .inl (List.mem_singleton.mp hc)
    rw [dropLineEnd_append hending]
    intro hmem
    rw [← hbefore] at hcontent
    exact Utf8.newline_not_mem hcontent (dropRightWhile_subset _ _ hmem)

theorem operand_subset {line : List Char} {d : Directive} (h : Directive.ofLine? line = some d) :
    d.operand ⊆ line := by
  unfold Directive.ofLine? at h
  split at h
  · next rest hline =>
      cases h
      intro c hc
      have hrest : c ∈ rest :=
        trimBlanks_subset _ ((List.dropWhile_sublist _).subset (trimBlanks_subset _ hc))
      have hmem : c ∈ Text.dropBlanks line := by
        rw [hline]
        exact List.mem_cons_of_mem _ hrest
      exact (List.dropWhile_sublist _).subset hmem
  · cases h

/-! ## Macros of one line -/

namespace Macros.SingleLine

variable {macros : Macros}

theorem put (h : macros.SingleLine) {value : String} (hvalue : '\n' ∉ value.toList)
    (name : String) : SingleLine (Table.put macros name value) := by
  intro entry hentry
  unfold Table.put at hentry
  split at hentry
  · obtain ⟨old, hold, rfl⟩ := List.mem_map.mp hentry
    dsimp only
    split
    · exact hvalue
    · exact h old hold
  · obtain hold | hnew := List.mem_append.mp hentry
    · exact h entry hold
    · obtain rfl := List.mem_singleton.mp hnew
      exact hvalue

theorem erase (h : macros.SingleLine) (name : String) : SingleLine (Table.erase macros name) := by
  intro entry hentry
  exact h entry (List.mem_of_mem_filter hentry)

/-- A directive puts a part of its line into a macro. -/
theorem does (h : macros.SingleLine) {d : Directive} {n : Nat} {st st' : FileState}
    {macros' : Macros} {text : String} (hdoes : d.Does n st macros (.emit st' macros' text))
    (hoperand : '\n' ∉ d.operand) : macros'.SingleLine := by
  cases hdoes with
  | @define operand _ _ =>
      refine h.put ?_ _
      rw [String.toList_ofList]
      intro hmem
      exact hoperand ((List.dropWhile_sublist _).subset (trimBlanks_subset _ hmem))
  | undef _ _ => exact h.erase _
  | _ => exact h

theorem substitute (h : macros.SingleLine) {line : List Char} (hline : '\n' ∉ line)
    (inComment : Bool) : '\n' ∉ (macros.substitute inComment line).1.toList := by
  show '\n' ∉ (String.join ((lineSegments inComment line).1.map _)).toList
  rw [String.toList_join, List.mem_flatMap]
  rintro ⟨text, htext, hmem⟩
  obtain ⟨s, hs, rfl⟩ := List.mem_map.mp htext
  have hchars : ∀ c ∈ s.chars, c ∈ line := by
    intro c hc
    have happend := @Segment.cut_append line.length [] inComment line (Nat.le_refl _)
    rw [List.reverse_nil, List.flatMap_nil, List.nil_append] at happend
    rw [← happend]
    exact List.mem_flatMap.mpr ⟨s, hs, hc⟩
  have hkept : '\n' ∉ (String.ofList s.chars).toList := by
    rw [String.toList_ofList]
    intro hc
    exact hline (hchars _ hc)
  cases s with
  | word cs =>
      cases hfind : macros.find? (String.ofList cs) with
      | some value =>
          rw [Segment.substitute, hfind] at hmem
          exact h _ (Table.mem_of_find? hfind) hmem
      | none =>
          rw [Segment.substitute, hfind] at hmem
          exact hkept hmem
  | _ => exact hkept hmem

end Macros.SingleLine

section SingleLine

variable {origin : String} {splice : String → Macros → Processed}

theorem Macros.SingleLine.step {p q : Progress} {line : Bytes} (h : p.macros.SingleLine)
    (hline : FeedOnlyAtEnd line)
    (hsplice : ∀ target macros macros' text, Macros.SingleLine macros →
      splice target macros = (macros', .ok text) → macros'.SingleLine)
    (hstep : p.step origin splice line = .ok q) : q.macros.SingleLine := by
  obtain ⟨cs, hcs, ⟨st, macros, text, heffect, rfl⟩ |
    ⟨target, macros, text, -, htext, rfl⟩⟩ := Progress.step_eq_ok hstep
  · obtain ⟨d, -, hdirective, hdoes⟩ | ⟨-, hemit⟩ := lineEffect_eq_ok_iff.mp heffect
    · refine h.does hdoes ?_
      intro hmem
      exact hline cs hcs (operand_subset hdirective hmem)
    · cases hemit
      exact h
  · exact hsplice target p.macros macros text h htext

theorem Macros.SingleLine.lines
    (hsplice : ∀ target macros macros' text, Macros.SingleLine macros →
      splice target macros = (macros', .ok text) → macros'.SingleLine) :
    ∀ (lines : List Bytes) {p q : Progress}, (∀ line ∈ lines, FeedOnlyAtEnd line) →
      p.macros.SingleLine → lines.foldlM (Progress.step origin splice) p = .ok q →
      q.macros.SingleLine := by
  intro lines
  induction lines with
  | nil =>
      intro p q _ h hrun
      cases hrun
      exact h
  | cons line rest ih =>
      intro p q hlines h hrun
      obtain ⟨hline, hrest⟩ := List.forall_mem_cons.mp hlines
      rw [List.foldlM_cons] at hrun
      obtain ⟨r, hstep, hrun⟩ := except_bind_ok hrun
      exact ih hrest (h.step hline hsplice hstep) hrun

end SingleLine

section Source

variable {t : FileTree} {search : SearchPath} {limit depth : Nat} {origin : String}

/-- Processing files never gives a macro more than one line. -/
theorem Macros.SingleLine.includeTarget : ∀ {depth : Nat} {origin target text : String}
    {macros macros' : Macros}, macros.SingleLine →
    includeTarget t search limit depth origin target macros = (macros', .ok text) →
    macros'.SingleLine := by
  intro depth
  induction depth with
  | zero =>
      intro origin target text macros macros' _ h
      cases h
  | succ depth ih =>
      intro origin target text macros macros' hmacros h
      obtain ⟨below, path, content, hdepth, -, -, hfile⟩ := includeTarget_eq_ok h
      obtain rfl := Nat.succ.inj hdepth
      obtain ⟨p, hread, -, rfl, -⟩ := processSource_eq_ok_iff.mp hfile
      exact Macros.SingleLine.lines (fun _ _ _ _ hsingle hok => ih hsingle hok)
        (logicalLines content) (fun _ hline => feedOnlyAtEnd_of_mem hline) hmacros hread

/-! ## What a line leaves -/

/-- What a line leaves in the output: the text of a file, or one line. -/
inductive Leaves (t : FileTree) (search : SearchPath) (limit depth : Nat) (p : Progress)
    (line : Bytes) : String → Prop
  | file {target path text : String} {content : Bytes} {macros : Macros} :
      p.state.Includes line target → search.resolve t target = some path →
      t.read path = .ok content →
      processSource t search limit (depth - 1) path p.macros (logicalLines content) =
        (macros, .ok text) →
      Leaves t search limit depth p line text
  | directive {cs : List Char} {d : Directive} : (∀ target, ¬ p.state.Includes line target) →
      p.state.inComment = false → Utf8.decode line = .ok cs →
      Directive.ofLine? (dropLineEnd cs) = some d → Leaves t search limit depth p line "\n"
  | leftOut : p.state.active = false → Leaves t search limit depth p line "\n"
  | copied {cs : List Char} {text : String} {inComment : Bool} : p.state.active = true →
      Utf8.decode line = .ok cs →
      (p.state.inComment = true ∨ Directive.ofLine? (dropLineEnd cs) = none) →
      p.macros.substitute p.state.inComment (dropLineEnd cs) = (text, inComment) →
      '\n' ∉ text.toList → Leaves t search limit depth p line (text ++ "\n")

theorem Directive.Does.text_eq {d : Directive} {n : Nat} {st st' : FileState}
    {macros macros' : Macros} {text : String} (h : d.Does n st macros (.emit st' macros' text)) :
    text = "" := by
  cases h <;> rfl

theorem FileState.not_includes_of_emit {n : Nat} {st st' : FileState} {macros macros' : Macros}
    {line : Bytes} {cs : List Char} {text : String} (hline : Utf8.decode line = .ok cs)
    (h : lineEffect origin n st macros (dropLineEnd cs) = .ok (.emit st' macros' text))
    (target : String) : ¬ st.Includes line target := by
  intro hincludes
  obtain ⟨cs', hline', heffect⟩ := hincludes.lineEffect_eq
  obtain rfl := Except.ok.inj (hline.symm.trans hline')
  rw [heffect] at h
  cases h

theorem exists_leaves {p q : Progress} {line : Bytes} (hmacros : p.macros.SingleLine)
    (hline : FeedOnlyAtEnd line)
    (hstep : p.step origin (includeTarget t search limit depth origin) line = .ok q) :
    ∃ piece, Leaves t search limit depth p line piece ∧ q.out = p.out ++ piece := by
  obtain ⟨cs, hcs, ⟨st, macros, text, heffect, rfl⟩ |
    ⟨target, macros, text, hincludes, htext, rfl⟩⟩ := Progress.step_eq_ok hstep
  · refine ⟨text ++ "\n", ?_, rfl⟩
    obtain ⟨d, hcomment, hdirective, hdoes⟩ | ⟨hplain, hemit⟩ := lineEffect_eq_ok_iff.mp heffect
    · rw [hdoes.text_eq]
      exact .directive (FileState.not_includes_of_emit hcs heffect) hcomment hcs hdirective
    · cases hactive : p.state.active with
      | false =>
          rw [hactive] at hemit
          cases hemit
          exact .leftOut hactive
      | true =>
          rw [hactive] at hemit
          cases hemit
          exact .copied hactive hcs hplain rfl (hmacros.substitute (hline cs hcs) _)
  · obtain ⟨below, path, content, rfl, hpath, hcontent, hfile⟩ := includeTarget_eq_ok htext
    exact ⟨text, .file hincludes hpath hcontent hfile, rfl⟩

/-- A line that no file is put in the place of leaves one line. -/
theorem Leaves.toList_eq {p : Progress} {line : Bytes} {piece : String}
    (h : Leaves t search limit depth p line piece)
    (hincludes : ∀ target, ¬ p.state.Includes line target) :
    ∃ text, '\n' ∉ text ∧ piece.toList = text ++ ['\n'] := by
  cases h with
  | file hfile _ _ _ => exact absurd hfile (hincludes _)
  | directive _ _ _ _ => exact ⟨[], List.not_mem_nil, rfl⟩
  | leftOut _ => exact ⟨[], List.not_mem_nil, rfl⟩
  | @copied _ text _ _ _ _ _ htext => exact ⟨text.toList, htext, String.toList_append⟩

/-! ## What the lines of a source leave -/

/-- The pieces that lines leave, from the place `p` on: each line leaves its piece where it is
read. -/
inductive Accounts (t : FileTree) (search : SearchPath) (limit depth : Nat) (origin : String) :
    Progress → List Bytes → List String → Prop
  | nil (p : Progress) : Accounts t search limit depth origin p [] []
  | cons {p q : Progress} {line : Bytes} {rest : List Bytes} {piece : String}
      {pieces : List String} : Leaves t search limit depth p line piece →
      p.step origin (includeTarget t search limit depth origin) line = .ok q →
      Accounts t search limit depth origin q rest pieces →
      Accounts t search limit depth origin p (line :: rest) (piece :: pieces)

theorem exists_accounts : ∀ {lines : List Bytes} {p q : Progress}, p.macros.SingleLine →
    (∀ line ∈ lines, FeedOnlyAtEnd line) →
    lines.foldlM (Progress.step origin (includeTarget t search limit depth origin)) p = .ok q →
    ∃ pieces, Accounts t search limit depth origin p lines pieces ∧
      q.out = p.out ++ String.join pieces := by
  intro lines
  induction lines with
  | nil =>
      intro p q _ _ hrun
      cases hrun
      exact ⟨[], .nil p, String.append_empty.symm⟩
  | cons line rest ih =>
      intro p q hmacros hlines hrun
      obtain ⟨hline, hrest⟩ := List.forall_mem_cons.mp hlines
      rw [List.foldlM_cons] at hrun
      obtain ⟨r, hstep, hrun⟩ := except_bind_ok hrun
      obtain ⟨piece, hleaves, hr⟩ := exists_leaves hmacros hline hstep
      have hsingle := hmacros.step hline (fun _ _ _ _ hsingle hok => hsingle.includeTarget hok) hstep
      obtain ⟨pieces, haccounts, hq⟩ := ih hsingle hrest hrun
      refine ⟨piece :: pieces, .cons hleaves hstep haccounts, ?_⟩
      rw [hq, hr, String.join_cons, String.append_assoc]

/-- No file is put in the place of a line, from the place `p` on. -/
def IncludesNothing (t : FileTree) (search : SearchPath) (limit depth : Nat) (origin : String)
    (p : Progress) (lines : List Bytes) : Prop :=
  ∀ before line after q target, lines = before ++ line :: after →
    before.foldlM (Progress.step origin (includeTarget t search limit depth origin)) p = .ok q →
    ¬ q.state.Includes line target

theorem IncludesNothing.tail {p q : Progress} {line : Bytes} {rest : List Bytes}
    (h : IncludesNothing t search limit depth origin p (line :: rest))
    (hstep : p.step origin (includeTarget t search limit depth origin) line = .ok q) :
    IncludesNothing t search limit depth origin q rest := by
  intro before line' after q' target hrest hrun
  refine h (line :: before) line' after q' target (by rw [hrest]; rfl) ?_
  rw [List.foldlM_cons, hstep]
  exact hrun

theorem Accounts.lines_eq {p : Progress} {lines : List Bytes} {pieces : List String}
    (h : Accounts t search limit depth origin p lines pieces)
    (hnothing : IncludesNothing t search limit depth origin p lines) :
    Text.lines (String.join pieces).toList = pieces.map String.toList := by
  induction h with
  | nil p => rfl
  | @cons p q line rest piece pieces hleaves hstep _ ih =>
      obtain ⟨text, htext, hpiece⟩ :=
        hleaves.toList_eq fun target => hnothing [] line rest p target rfl rfl
      rw [String.join_cons, String.toList_append, hpiece, List.append_assoc,
        List.singleton_append, Text.lines_line htext, ih (hnothing.tail hstep), List.map_cons,
        hpiece]

end Source

/-! ## The line that a fault names -/

/-- The conditional is opened by the line of the source that it says. -/
def Conditional.OpenedIn (lines : List Bytes) (c : Conditional) : Prop :=
  ∃ before line after cs d, lines = before ++ line :: after ∧ c.openedAt = before.length + 1 ∧
    Utf8.decode line = .ok cs ∧ Directive.ofLine? (dropLineEnd cs) = some d ∧
    d.name ∈ ["ifdef", "ifndef"]

/-- A directive that opens a conditional writes down its own line; every other one keeps the lines
that are written down. -/
theorem Directive.Does.openedAt {d : Directive} {n : Nat} {st st' : FileState}
    {macros macros' : Macros} {text : String} (h : d.Does n st macros (.emit st' macros' text))
    {c : Conditional} (hc : c ∈ st'.conditionals) :
    (c.openedAt = n ∧ d.name ∈ ["ifdef", "ifndef"]) ∨
      ∃ c' ∈ st.conditionals, c'.openedAt = c.openedAt := by
  cases h with
  | ifdef hname =>
      obtain rfl | hc := List.mem_cons.mp hc
      · exact .inl ⟨rfl, List.mem_cons_self⟩
      · exact .inr ⟨c, hc, rfl⟩
  | ifndef hname =>
      obtain rfl | hc := List.mem_cons.mp hc
      · exact .inl ⟨rfl, List.mem_cons_of_mem _ List.mem_cons_self⟩
      · exact .inr ⟨c, hc, rfl⟩
  | @elseBranch _ c' _ hst hseen =>
      rw [hst]
      obtain rfl | hc := List.mem_cons.mp hc
      · exact .inr ⟨c', List.mem_cons_self, rfl⟩
      · exact .inr ⟨c, List.mem_cons_of_mem _ hc, rfl⟩
  | endif hst =>
      rw [hst]
      exact .inr ⟨c, List.mem_cons_of_mem _ hc, rfl⟩
  | _ => exact .inr ⟨c, hc, rfl⟩

/-- Every open conditional of a file was opened by a line of it. -/
def OpenFile.Opened (f : OpenFile) : Prop :=
  ∀ c ∈ f.state.conditionals, c.OpenedIn f.lines

theorem OpenFile.Opened.pass {f : OpenFile} {line : Bytes} {rest : List Bytes} {cs : List Char}
    {state : FileState} {macros macros' : Macros} {text : String} (h : f.Opened)
    (hrest : f.rest = line :: rest) (hline : Utf8.decode line = .ok cs)
    (heffect : lineEffect f.name (f.read.length + 1) f.state macros (dropLineEnd cs) =
      .ok (.emit state macros' text)) : (f.pass line rest state).Opened := by
  intro c hc
  rw [f.lines_pass hrest state]
  obtain ⟨d, -, hdirective, hdoes⟩ | ⟨-, hemit⟩ := lineEffect_eq_ok_iff.mp heffect
  · obtain ⟨hnumber, hname⟩ | ⟨c', hc', hsame⟩ := hdoes.openedAt hc
    · refine ⟨f.read.reverse, line, rest, cs, d, ?_, ?_, hline, hdirective, hname⟩
      · rw [OpenFile.lines, hrest]
      · rw [hnumber, List.length_reverse]
    · obtain ⟨before, line', after, cs', d', hlines, hnumber, hopens⟩ := h c' hc'
      exact ⟨before, line', after, cs', d', hlines, hsame ▸ hnumber, hopens⟩
  · cases hemit
    exact h c hc

section Nest

variable {t : FileTree} {search : SearchPath} {limit : Nat}

theorem Nest.opened_step {s s' : Nest} (h : ∀ f ∈ s.files, f.Opened)
    (hstep : s.step t search limit = .ok s') : ∀ f ∈ s'.files, f.Opened := by
  cases does_of_step hstep with
  | leave hfiles _ _ =>
      rw [hfiles] at h
      exact (List.forall_mem_cons.mp h).2
  | emit hfiles hrest hline heffect =>
      rw [hfiles] at h
      obtain ⟨hf, houter⟩ := List.forall_mem_cons.mp h
      exact List.forall_mem_cons.mpr ⟨hf.pass hrest hline heffect, houter⟩
  | @enter f outer line rest _ _ _ hfiles hrest _ _ _ _ =>
      rw [hfiles] at h
      obtain ⟨hf, houter⟩ := List.forall_mem_cons.mp h
      have hpassed : (f.pass line rest f.state).Opened := by
        intro c hc
        rw [f.lines_pass hrest f.state]
        exact hf c hc
      refine List.forall_mem_cons.mpr ⟨?_, List.forall_mem_cons.mpr ⟨hpassed, houter⟩⟩
      intro c hc
      cases hc

theorem Nest.opened_reaches {s s' : Nest} (h : ∀ f ∈ s.files, f.Opened)
    (hreaches : s.Reaches t search limit s') : ∀ f ∈ s'.files, f.Opened := by
  induction hreaches with
  | refl => exact h
  | tail _ hstep ih => exact Nest.opened_step ih hstep

theorem Nest.opened_start (name : String) (macros : Macros) (input : Bytes) :
    ∀ f ∈ (Nest.start name macros input).files, f.Opened := by
  intro f hf c hc
  obtain rfl := List.mem_singleton.mp hf
  cases hc

/-- Why a fault names a line of a file: the line has been reached and is refused, or it opens a
conditional that is open at the end of the file. -/
inductive OpenFile.Blames (f : OpenFile) (macros : Macros) (n : Nat) (line : List Char) :
    PreprocessFault → Prop
  | refused {fault : PreprocessFault} : n = f.read.length + 1 →
      lineEffect f.name n f.state macros line = .error fault → Blames f macros n line fault
  | neverClosed {c : Conditional} {d : Directive} : f.rest = [] → c ∈ f.state.conditionals →
      c.openedAt = n → Directive.ofLine? line = some d → d.name ∈ ["ifdef", "ifndef"] →
      Blames f macros n line (.unbalanced f.name n .neverClosed)

theorem Nest.blames_of_stop {s : Nest} {macros : Macros} {fault : PreprocessFault}
    {origin : String} {n : Nat} (h : ∀ f ∈ s.files, f.Opened)
    (hstop : s.step t search limit = .error (macros, .error fault))
    (hplace : fault.place? = some (origin, n)) :
    ∃ f outer before line after cs, s.files = f :: outer ∧ f.name = origin ∧
      f.lines = before ++ line :: after ∧ n = before.length + 1 ∧ Utf8.decode line = .ok cs ∧
      f.Blames s.macros n (dropLineEnd cs) fault := by
  cases does_of_step hstop with
  | @neverClosed f outer c more hfiles hrest hopen =>
      cases hplace
      have hf : f ∈ s.files := by
        rw [hfiles]
        exact List.mem_cons_self
      have hc : c ∈ f.state.conditionals := by
        rw [hopen]
        exact List.mem_cons_self
      obtain ⟨before, line, after, cs, d, hlines, hnumber, hline, hdirective, hname⟩ := h f hf c hc
      exact ⟨f, outer, before, line, after, cs, hfiles, rfl, hlines, hnumber, hline,
        .neverClosed hrest hc rfl hdirective hname⟩
  | @refused f outer line rest cs _ hfiles hrest hline heffect =>
      have hsame := (place_of_lineEffect heffect).symm.trans hplace
      obtain ⟨rfl, rfl⟩ := Prod.mk.inj (Option.some.inj hsame)
      refine ⟨f, outer, f.read.reverse, line, rest, cs, hfiles, rfl, ?_, ?_, hline,
        .refused rfl heffect⟩
      · rw [OpenFile.lines, hrest]
      · rw [List.length_reverse]
  | notText _ _ _ => cases hplace
  | tooDeep _ _ _ _ => cases hplace
  | notFound _ _ _ _ _ => cases hplace
  | unread _ _ _ _ _ _ => cases hplace

end Nest

/-- The output of a source is what its logical lines leave, one after the other; without includes
that is one line for each of them. A fault that names a line counts the same lines: it names the
number of a logical line of the source or of an included file. -/
theorem preprocess_accounts (t : FileTree) (search : SearchPath) (limit : Nat) (name : String)
    (macros : Macros) (input : Bytes) (hmacros : macros.SingleLine) :
    (∀ macros' out, preprocess t search limit macros name input = (macros', .ok out) →
      ∃ pieces, Accounts t search limit limit name (.start macros) (logicalLines input) pieces ∧
        out = String.join pieces ∧
        (IncludesNothing t search limit limit name (.start macros) (logicalLines input) →
          Text.lines out.toList = pieces.map String.toList)) ∧
    ∀ macros' fault origin n,
      preprocess t search limit macros name input = (macros', .error fault) →
      fault.place? = some (origin, n) →
      ∃ s f outer content before line after cs,
        (Nest.start name macros input).Reaches t search limit s ∧
        s.step t search limit = .error (macros', .error fault) ∧
        s.files = f :: outer ∧ f.name = origin ∧
        (f.name = name ∧ content = input ∨ t.read f.name = .ok content) ∧
        logicalLines content = before ++ line :: after ∧ n = before.length + 1 ∧
        Utf8.decode line = .ok cs ∧ f.Blames s.macros n (dropLineEnd cs) fault := by
  refine ⟨?_, ?_⟩
  · intro macros' out h
    obtain ⟨p, hread, -, -, rfl⟩ := processSource_eq_ok_iff.mp h
    obtain ⟨pieces, haccounts, hout⟩ :=
      exists_accounts hmacros (fun _ hline => feedOnlyAtEnd_of_mem hline) hread
    rw [show (Progress.start macros).out = "" from rfl, String.empty_append] at hout
    refine ⟨pieces, haccounts, hout, ?_⟩
    intro hnothing
    rw [hout]
    exact haccounts.lines_eq hnothing
  · intro macros' fault origin n h hplace
    have hyields := Nest.yields_preprocess t search limit name macros input
    rw [h] at hyields
    obtain ⟨s, hreaches, hstop⟩ := hyields
    obtain ⟨f, outer, before, line, after, cs, hfiles, hname, hlines, hnumber, hline, hblames⟩ :=
      Nest.blames_of_stop (Nest.opened_reaches (Nest.opened_start name macros input) hreaches) hstop
        hplace
    have hbounded : s.Bounded t search limit name input := Nest.bounded_start.reaches hreaches
    obtain ⟨content, hcontent, hsource⟩ := hbounded.innermost hfiles
    exact ⟨s, f, outer, content, before, line, after, cs, hreaches, hstop, hfiles, hname, hsource,
      hcontent.symm.trans hlines, hnumber, hline, hblames⟩

/-- A file that gives a macro another text. -/
def redefiningFile : FileTree where
  entries := [(["a"], .file (.ofString "#define A 2\nint B;"))]

/-- A branch that is left out, a directive within a comment, an include, and a last line that is
continued twice and not ended. -/
def mixedSource : Bytes :=
  .ofString "#ifdef X\nint A;\n#endif\n/*\n#define A\n*/ A\n#include <a>\nA \\\nA\\"

theorem preprocess_accounts_mixed :
    Macros.SingleLine [("A", "1")] ∧
      preprocess redefiningFile ⟨["."]⟩ 1 [("A", "1")] "main" mixedSource =
        ([("A", "2")], .ok "\n\n\n/*\n#define A\n*/ 1\n\nint B;\n2 2\n") ∧
      ∃ pieces, Accounts redefiningFile ⟨["."]⟩ 1 1 "main" (.start [("A", "1")])
          (logicalLines mixedSource) pieces ∧
        "\n\n\n/*\n#define A\n*/ 1\n\nint B;\n2 2\n" = String.join pieces := by
  have hmacros : Macros.SingleLine [("A", "1")] := by decide +kernel
  have hrun : preprocess redefiningFile ⟨["."]⟩ 1 [("A", "1")] "main" mixedSource =
      ([("A", "2")], .ok "\n\n\n/*\n#define A\n*/ 1\n\nint B;\n2 2\n") := by decide +kernel
  obtain ⟨pieces, haccounts, hout, -⟩ :=
    (preprocess_accounts redefiningFile ⟨["."]⟩ 1 "main" [("A", "1")] mixedSource hmacros).1 _ _ hrun
  exact ⟨hmacros, hrun, pieces, haccounts, hout⟩

end ProbeLang
