import Mathlib.Data.List.Chain
import Mathlib.Logic.Relation
import ProbeLang.Proofs.Preprocess
import ProbeLang.Proofs.Preprocess.Progress

/-!
# Includes within includes

`preprocess` is a recursion in which a file is processed while the line that asks for it is. Seen
as a machine, it goes from line to line: the files that are being processed are one within another
(`Nest`), a step reads a line of the innermost one, an `#include` puts a file within it, and a file
is left at its end.

Every run of the machine ends, with what `preprocess` answers: file by file, a run goes through the
lines of the innermost file and yields what is computed for them (`Nest.Yields`). What a step can do
is said once (`Nest.Does`), and what it preserves tells how deep the files can be (`Nest.Bounded`).
A run that ends well does so under every greater limit, in the same way, because a limit only cuts
off.
-/

namespace ProbeLang

/-! ## The machine -/

/-- A file that is being processed. -/
structure OpenFile where
  name : String
  /-- The lines that have been read, the last one first. -/
  read : List Bytes
  /-- The lines that have not been read. -/
  rest : List Bytes
  /-- What is open in front of the rest. -/
  state : FileState

namespace OpenFile

/-- A file of which nothing has been read. -/
def ofBytes (name : String) (content : Bytes) : OpenFile :=
  ⟨name, [], logicalLines content, .start⟩

/-- All lines of the file. -/
def lines (f : OpenFile) : List Bytes :=
  f.read.reverse ++ f.rest

/-- The file behind its next line. -/
def pass (f : OpenFile) (line : Bytes) (rest : List Bytes) (state : FileState) : OpenFile :=
  ⟨f.name, line :: f.read, rest, state⟩

theorem lines_pass {f : OpenFile} {line : Bytes} {rest : List Bytes} (h : f.rest = line :: rest)
    (state : FileState) : (f.pass line rest state).lines = f.lines := by
  simp [lines, pass, h]

end OpenFile

/-- The files that are being processed, the innermost one first, with the macros in force and the
text so far. -/
structure Nest where
  files : List OpenFile
  macros : Macros
  out : String

namespace Nest

/-- Only the source is being processed, and nothing of it has been read. -/
def start (name : String) (macros : Macros) (input : Bytes) : Nest :=
  ⟨[.ofBytes name input], macros, ""⟩

/-- Read a line of the innermost file, or leave the file at its end. Where there is no step the
run is over and has a result. -/
def step (t : FileTree) (search : SearchPath) (limit : Nat) (s : Nest) : Except Processed Nest :=
  let stop (fault : PreprocessFault) : Except Processed Nest := .error (s.macros, .error fault)
  match s.files with
  | [] => .error (s.macros, .ok s.out)
  | f :: outer =>
      match f.rest with
      | [] =>
          match f.state.conditionals with
          | [] => .ok { s with files := outer }
          | c :: _ => stop (.unbalanced f.name c.openedAt .neverClosed)
      | line :: rest =>
          match Utf8.decode line with
          | .error _ => stop (.io .streamNotText)
          | .ok cs =>
              match lineEffect f.name (f.read.length + 1) f.state s.macros (dropLineEnd cs) with
              | .error fault => stop fault
              | .ok (.emit st macros text) =>
                  .ok ⟨f.pass line rest st :: outer, macros, s.out ++ (text ++ "\n")⟩
              | .ok (.splice target) =>
                  if limit ≤ outer.length then stop (.tooDeep f.name limit)
                  else
                    match search.resolve t target with
                    | none => stop (.fileNotFound f.name target)
                    | some path =>
                        match t.read path with
                        | .error fault => stop (.io fault)
                        | .ok content =>
                            .ok { s with
                              files := .ofBytes path content :: f.pass line rest f.state :: outer }

/-- Some steps lead from one nest to another. -/
abbrev Reaches (t : FileTree) (search : SearchPath) (limit : Nat) : Nest → Nest → Prop :=
  Relation.ReflTransGen fun s s' => s.step t search limit = .ok s'

/-! ## The result of a run -/

/-- What the result of the innermost file leads to: behind it the files around go on with its text
added to what was there, or the run ends with its fault. -/
def Yields (t : FileTree) (search : SearchPath) (limit : Nat) (s : Nest) (outer : List OpenFile)
    (out : String) : Processed → Prop
  | (macros, .ok text) => s.Reaches t search limit ⟨outer, macros, out ++ text⟩
  | (macros, .error fault) =>
      ∃ s', s.Reaches t search limit s' ∧ s'.step t search limit = .error (macros, .error fault)

section Yields

variable {t : FileTree} {search : SearchPath} {limit : Nat} {s s' : Nest}
  {outer : List OpenFile} {out : String} {r : Processed}

theorem Yields.of_reaches (h : s'.Yields t search limit outer out r)
    (hreaches : s.Reaches t search limit s') : s.Yields t search limit outer out r := by
  obtain ⟨macros, fault | text⟩ := r
  · obtain ⟨last, hlast, hstop⟩ := h
    exact ⟨last, hreaches.trans hlast, hstop⟩
  · exact hreaches.trans h

theorem Yields.of_step (h : s'.Yields t search limit outer out r)
    (hstep : s.step t search limit = .ok s') : s.Yields t search limit outer out r :=
  h.of_reaches (.single hstep)

theorem Yields.of_stop {macros : Macros} {fault : PreprocessFault}
    (h : s.step t search limit = .error (macros, .error fault)) :
    s.Yields t search limit outer out (macros, .error fault) :=
  ⟨s, .refl, h⟩

/-- The files that the lines of a file ask for have the results that are computed for them. -/
def YieldsIncludes (t : FileTree) (search : SearchPath) (limit depth : Nat)
    (outer : List OpenFile) (name : String) : Prop :=
  ∀ line target read rest state macros out, FileState.Includes state line target →
    Yields t search limit ⟨⟨name, read, line :: rest, state⟩ :: outer, macros, out⟩
      (⟨name, line :: read, rest, state⟩ :: outer) out
      (includeTarget t search limit depth name target macros)

/-- The innermost file has the result that its lines have. -/
theorem yields_lines {depth : Nat} {name : String}
    (hincludes : YieldsIncludes t search limit depth outer name) :
    ∀ (lines read : List Bytes) (p : Progress) (out : String), p.number = read.length + 1 →
      Yields t search limit ⟨⟨name, read, lines, p.state⟩ :: outer, p.macros, out ++ p.out⟩ outer out
        (Progress.result name
          (lines.foldlM (Progress.step name (includeTarget t search limit depth name)) p)) := by
  intro lines
  -- The text of the files around stays in front of `p.out`, so `out` is the same along the lines.
  induction lines with
  | nil =>
      intro read p out hnumber
      show Yields t search limit _ outer out (p.finish name)
      unfold Progress.finish
      split
      · next hnone =>
          apply Relation.ReflTransGen.single
          simp [step, hnone]
      · next c more hopen =>
          apply Yields.of_stop
          simp [step, hopen]
  | cons line rest ih =>
      intro read p out hnumber
      rw [List.foldlM_cons]
      cases hline : Utf8.decode line with
      | error e =>
          simp only [Progress.step, hline]
          apply Yields.of_stop
          simp [step, hline]
      | ok cs =>
          cases heffect : lineEffect name p.number p.state p.macros (dropLineEnd cs) with
          | error fault =>
              simp only [Progress.step, hline, heffect]
              apply Yields.of_stop
              simp [step, hline, hnumber ▸ heffect]
          | ok e =>
              cases e with
              | emit st macros text =>
                  have hrest := ih (line :: read) (p.next st macros (text ++ "\n")) out
                    (by simp [Progress.next, hnumber])
                  simp only [Progress.step, hline, heffect]
                  apply hrest.of_step
                  simp [step, hline, hnumber ▸ heffect, OpenFile.pass, Progress.next,
                    String.append_assoc]
              | splice target =>
                  have hasks := FileState.includes_of_lineEffect hline heffect
                  have hfile := hincludes line target read rest p.state p.macros (out ++ p.out) hasks
                  rw [Progress.step_of_includes hasks]
                  generalize includeTarget t search limit depth name target p.macros = r
                    at hfile ⊢
                  obtain ⟨macros, fault | text⟩ := r
                  · exact hfile
                  · have hrest := ih (line :: read) (p.next p.state macros text) out
                      (by simp [Progress.next, hnumber])
                    apply hrest.of_reaches
                    have hreaches : Nest.Reaches t search limit _ _ := hfile
                    rwa [String.append_assoc] at hreaches

/-- A source of which nothing has been read has the result that is computed for it. -/
theorem yields_source {depth : Nat} {name : String}
    (hincludes : YieldsIncludes t search limit depth outer name) (macros : Macros)
    (content : Bytes) (out : String) :
    Yields t search limit ⟨.ofBytes name content :: outer, macros, out⟩ outer out
      (processSource t search limit depth name macros (logicalLines content)) := by
  have hlines := yields_lines hincludes (logicalLines content) [] (.start macros) out rfl
  rw [← processSource_eq, show (Progress.start macros).out = "" from rfl, String.append_empty]
    at hlines
  exact hlines

/-- A file that is put in the place of a line has one level less for its own includes. -/
theorem yieldsIncludes (t : FileTree) (search : SearchPath) (limit : Nat) :
    ∀ (depth : Nat) (outer : List OpenFile) (name : String), outer.length + depth = limit →
      YieldsIncludes t search limit depth outer name := by
  intro depth
  -- The levels that are left and the files around add up to the limit.
  induction depth with
  | zero =>
      intro outer name hlimit line target read rest state macros out hasks
      obtain ⟨cs, hline, heffect⟩ := hasks.lineEffect_eq
      apply Yields.of_stop
      simp [step, hline, heffect, ← hlimit]
  | succ depth ih =>
      intro outer name hlimit line target read rest state macros out hasks
      obtain ⟨cs, hline, heffect⟩ := hasks.lineEffect_eq
      have hroom : ¬ limit ≤ outer.length := by omega
      rw [includeTarget]
      cases hpath : search.resolve t target with
      | none =>
          apply Yields.of_stop
          simp [step, hline, heffect, hroom, hpath]
      | some path =>
          dsimp only
          cases hcontent : t.read path with
          | error fault =>
              apply Yields.of_stop
              simp [step, hline, heffect, hroom, hpath, hcontent]
          | ok content =>
              have hbelow : YieldsIncludes t search limit depth
                  (⟨name, line :: read, rest, state⟩ :: outer) path := by
                refine ih _ path ?_
                rw [List.length_cons]
                omega
              refine (yields_source hbelow macros content out).of_step ?_
              simp [step, hline, heffect, hroom, hpath, hcontent, OpenFile.pass]

/-- A run ends with what preprocessing answers. -/
theorem yields_preprocess (t : FileTree) (search : SearchPath) (limit : Nat) (name : String)
    (macros : Macros) (input : Bytes) :
    Yields t search limit (.start name macros input) [] ""
      (preprocess t search limit macros name input) :=
  yields_source (yieldsIncludes t search limit limit [] name (Nat.zero_add limit)) macros input ""

/-- All runs are parts of one, which ends with what preprocessing answers. -/
theorem exists_last (name : String) (macros : Macros) (input : Bytes) :
    ∃ last, (∀ s, (start name macros input).Reaches t search limit s →
        s.Reaches t search limit last) ∧
      last.step t search limit = .error (preprocess t search limit macros name input) := by
  obtain ⟨last, hlast, hstop⟩ : ∃ last, (start name macros input).Reaches t search limit last ∧
      last.step t search limit = .error (preprocess t search limit macros name input) := by
    have hyields := yields_preprocess t search limit name macros input
    generalize preprocess t search limit macros name input = r at hyields ⊢
    obtain ⟨macros', fault | text⟩ := r
    · exact hyields
    · exact ⟨⟨[], macros', "" ++ text⟩, hyields, by simp [step]⟩
  refine ⟨last, ?_, hstop⟩
  intro s hs
  have hunique : Relator.RightUnique fun s s' : Nest => s.step t search limit = .ok s' := by
    intro a b c hb hc
    exact Except.ok.inj (hb.symm.trans hc)
  obtain hgoes | hback := Relation.ReflTransGen.total_of_right_unique hunique hs hlast
  · exact hgoes
  · obtain rfl | ⟨s', hstep, -⟩ := Relation.ReflTransGen.cases_head hback
    · exact .refl
    · rw [hstop] at hstep
      cases hstep

end Yields

/-! ## What a step does -/

/-- What a step does: at the end of the innermost file, and at its next line. -/
inductive Does (t : FileTree) (search : SearchPath) (limit : Nat) (s : Nest) :
    Except Processed Nest → Prop
  | over : s.files = [] → Does t search limit s (.error (s.macros, .ok s.out))
  | leave {f : OpenFile} {outer : List OpenFile} : s.files = f :: outer → f.rest = [] →
      f.state.conditionals = [] → Does t search limit s (.ok { s with files := outer })
  | neverClosed {f : OpenFile} {outer : List OpenFile} {c : Conditional}
      {more : List Conditional} : s.files = f :: outer → f.rest = [] →
      f.state.conditionals = c :: more →
      Does t search limit s (.error (s.macros, .error (.unbalanced f.name c.openedAt .neverClosed)))
  | notText {f : OpenFile} {outer : List OpenFile} {line : Bytes} {rest : List Bytes}
      {e : Utf8Fault} : s.files = f :: outer → f.rest = line :: rest →
      Utf8.decode line = .error e → Does t search limit s (.error (s.macros, .error (.io .streamNotText)))
  | refused {f : OpenFile} {outer : List OpenFile} {line : Bytes} {rest : List Bytes}
      {cs : List Char} {fault : PreprocessFault} : s.files = f :: outer → f.rest = line :: rest →
      Utf8.decode line = .ok cs →
      lineEffect f.name (f.read.length + 1) f.state s.macros (dropLineEnd cs) = .error fault →
      Does t search limit s (.error (s.macros, .error fault))
  | emit {f : OpenFile} {outer : List OpenFile} {line : Bytes} {rest : List Bytes}
      {cs : List Char} {state : FileState} {macros : Macros} {text : String} :
      s.files = f :: outer → f.rest = line :: rest → Utf8.decode line = .ok cs →
      lineEffect f.name (f.read.length + 1) f.state s.macros (dropLineEnd cs) =
        .ok (.emit state macros text) →
      Does t search limit s
        (.ok ⟨f.pass line rest state :: outer, macros, s.out ++ (text ++ "\n")⟩)
  | tooDeep {f : OpenFile} {outer : List OpenFile} {line : Bytes} {rest : List Bytes}
      {target : String} : s.files = f :: outer → f.rest = line :: rest →
      f.state.Includes line target → limit ≤ outer.length →
      Does t search limit s (.error (s.macros, .error (.tooDeep f.name limit)))
  | notFound {f : OpenFile} {outer : List OpenFile} {line : Bytes} {rest : List Bytes}
      {target : String} : s.files = f :: outer → f.rest = line :: rest →
      f.state.Includes line target → outer.length < limit → search.resolve t target = none →
      Does t search limit s (.error (s.macros, .error (.fileNotFound f.name target)))
  | unread {f : OpenFile} {outer : List OpenFile} {line : Bytes} {rest : List Bytes}
      {target path : String} {fault : IoFault} : s.files = f :: outer → f.rest = line :: rest →
      f.state.Includes line target → outer.length < limit → search.resolve t target = some path →
      t.read path = .error fault → Does t search limit s (.error (s.macros, .error (.io fault)))
  | enter {f : OpenFile} {outer : List OpenFile} {line : Bytes} {rest : List Bytes}
      {target path : String} {content : Bytes} : s.files = f :: outer → f.rest = line :: rest →
      f.state.Includes line target → outer.length < limit → search.resolve t target = some path →
      t.read path = .ok content →
      Does t search limit s
        (.ok { s with files := .ofBytes path content :: f.pass line rest f.state :: outer })

section Does

variable {t : FileTree} {search : SearchPath} {limit : Nat} {s : Nest}

theorem does_step : s.Does t search limit (s.step t search limit) := by
  unfold step
  dsimp only
  split
  · next hfiles => exact .over hfiles
  · next f outer hfiles =>
      split
      · next hrest =>
          split
          · next hclosed => exact .leave hfiles hrest hclosed
          · next c more hopen => exact .neverClosed hfiles hrest hopen
      · next line rest hrest =>
          split
          · next hline => exact .notText hfiles hrest hline
          · next cs hline =>
              split
              · next heffect => exact .refused hfiles hrest hline heffect
              · next heffect => exact .emit hfiles hrest hline heffect
              · next target heffect =>
                  have hincludes := FileState.includes_of_lineEffect hline heffect
                  split
                  · next hfull => exact .tooDeep hfiles hrest hincludes hfull
                  · next hroom =>
                      have hroom := Nat.lt_of_not_le hroom
                      split
                      · next hpath => exact .notFound hfiles hrest hincludes hroom hpath
                      · next path hpath =>
                          split
                          · next hcontent => exact .unread hfiles hrest hincludes hroom hpath hcontent
                          · next hcontent => exact .enter hfiles hrest hincludes hroom hpath hcontent

theorem does_of_step {r : Except Processed Nest} (h : s.step t search limit = r) :
    s.Does t search limit r :=
  h ▸ does_step

end Does

/-! ## How deep files are -/

/-- The file `f` is put in the place of the line of `g` that has been read last. -/
def PutIn (t : FileTree) (search : SearchPath) (f g : OpenFile) : Prop :=
  ∃ line target content, g.read.head? = some line ∧ g.state.Includes line target ∧
    search.resolve t target = some f.name ∧ t.read f.name = .ok content ∧
    f.lines = logicalLines content

/-- The files are at most as many levels deep as the limit allows, every one is put in the place of
a line of the next, and the outermost one is the source. -/
structure Bounded (t : FileTree) (search : SearchPath) (limit : Nat) (name : String)
    (input : Bytes) (s : Nest) : Prop where
  depth : s.files.length ≤ limit + 1
  nested : s.files.IsChain (PutIn t search)
  source : ∀ f, s.files.getLast? = some f → f.name = name ∧ f.lines = logicalLines input

section Bounded

variable {t : FileTree} {search : SearchPath} {limit : Nat} {name : String} {macros : Macros}
  {input : Bytes} {s s' : Nest}

theorem bounded_start : Bounded t search limit name input (.start name macros input) where
  depth := Nat.le_add_left 1 limit
  nested := .singleton _
  source f hf := by
    cases hf
    exact ⟨rfl, rfl⟩

theorem PutIn.of_same {f f' g : OpenFile} (h : PutIn t search f g) (hname : f'.name = f.name)
    (hlines : f'.lines = f.lines) : PutIn t search f' g := by
  obtain ⟨line, target, content, hread, hincludes, hpath, hcontent, hsame⟩ := h
  exact ⟨line, target, content, hread, hincludes, hname ▸ hpath, hname ▸ hcontent,
    hlines.trans hsame⟩

/-- The innermost file stays where it is while its lines are read. -/
theorem Bounded.pass {f : OpenFile} {outer : List OpenFile} {line : Bytes} {rest : List Bytes}
    (h : Bounded t search limit name input s) (hfiles : s.files = f :: outer)
    (hrest : f.rest = line :: rest) (state : FileState)
    (hs' : s'.files = f.pass line rest state :: outer) : Bounded t search limit name input s' := by
  have hlines := f.lines_pass hrest state
  obtain ⟨hdepth, hnested, hsource⟩ := h
  rw [hfiles] at hdepth hnested hsource
  refine ⟨by simpa [hs'] using hdepth, ?_, ?_⟩
  · rw [hs']
    cases outer with
    | nil => exact .singleton _
    | cons g outer =>
        rw [List.isChain_cons_cons] at hnested ⊢
        exact ⟨hnested.1.of_same rfl hlines, hnested.2⟩
  · intro g hg
    rw [hs'] at hg
    cases outer with
    | nil =>
        obtain rfl := Option.some.inj hg
        obtain ⟨hname, hinput⟩ := hsource f rfl
        exact ⟨hname, hlines.trans hinput⟩
    | cons g' outer =>
        rw [List.getLast?_cons_cons] at hg hsource
        exact hsource g hg

theorem Bounded.step (h : Bounded t search limit name input s)
    (hstep : s.step t search limit = .ok s') : Bounded t search limit name input s' := by
  cases does_of_step hstep with
  | @leave f outer hfiles _ _ =>
      obtain ⟨hdepth, hnested, hsource⟩ := h
      rw [hfiles] at hdepth hnested hsource
      rw [List.length_cons] at hdepth
      refine ⟨Nat.le_of_succ_le hdepth, hnested.tail, ?_⟩
      intro g hg
      cases outer with
      | nil => cases hg
      | cons g' outer => exact hsource g (by rwa [List.getLast?_cons_cons])
  | emit hfiles hrest _ _ => exact h.pass hfiles hrest _ rfl
  | @enter f outer line rest target path content hfiles hrest hincludes hroom hpath hcontent =>
      have hpassed : Bounded t search limit name input
          { s with files := f.pass line rest f.state :: outer } :=
        h.pass hfiles hrest f.state rfl
      refine ⟨?_, ?_, ?_⟩
      · rw [List.length_cons, List.length_cons]
        omega
      · rw [List.isChain_cons_cons]
        exact ⟨⟨line, target, content, rfl, hincludes, hpath, hcontent, rfl⟩, hpassed.nested⟩
      · intro g hg
        rw [List.getLast?_cons_cons] at hg
        exact hpassed.source g hg

theorem Bounded.reaches (h : Bounded t search limit name input s)
    (hreaches : s.Reaches t search limit s') : Bounded t search limit name input s' := by
  induction hreaches with
  | refl => exact h
  | tail _ hstep ih => exact ih.step hstep

/-- The innermost file is the source, or its lines are read from the tree. -/
theorem Bounded.innermost {f : OpenFile} {outer : List OpenFile}
    (h : Bounded t search limit name input s) (hfiles : s.files = f :: outer) :
    ∃ content, f.lines = logicalLines content ∧
      (f.name = name ∧ content = input ∨ t.read f.name = .ok content) := by
  obtain ⟨-, hnested, hsource⟩ := h
  rw [hfiles] at hnested hsource
  cases outer with
  | nil =>
      obtain ⟨hname, hlines⟩ := hsource f rfl
      exact ⟨input, hlines, .inl ⟨hname, rfl⟩⟩
  | cons g outer =>
      obtain ⟨line, target, content, -, -, -, hcontent, hlines⟩ := (List.isChain_cons_cons.mp hnested).1
      exact ⟨content, hlines, .inr hcontent⟩

end Bounded

end Nest

/-! ## The limit -/

section Limit

variable {t : FileTree} {search : SearchPath}

/-- The files that are processed are at most `limit` includes below the source, and the limit only
cuts off. Every run goes on to a last state, which answers; a good answer is the answer under every
greater limit; and the limit is exceeded at an `#include` in a file that is `limit` includes below
the source. -/
theorem nesting_limit (t : FileTree) (search : SearchPath) (limit : Nat) (name : String)
    (macros : Macros) (input : Bytes) :
    (∃ last, (∀ s, (Nest.start name macros input).Reaches t search limit s →
        s.Reaches t search limit last) ∧
      last.step t search limit = .error (preprocess t search limit macros name input)) ∧
    (∀ s, (Nest.start name macros input).Reaches t search limit s →
      s.Bounded t search limit name input) ∧
    (∀ limit' macros' out, limit ≤ limit' →
      preprocess t search limit macros name input = (macros', .ok out) →
      preprocess t search limit' macros name input = (macros', .ok out)) ∧
    ∀ macros' origin n,
      preprocess t search limit macros name input = (macros', .error (.tooDeep origin n)) →
      n = limit ∧ ∃ s f outer line target, (Nest.start name macros input).Reaches t search limit s ∧
        s.step t search limit = .error (macros', .error (.tooDeep origin n)) ∧
        s.files = f :: outer ∧ outer.length = limit ∧ f.name = origin ∧
        f.rest.head? = some line ∧ f.state.Includes line target := by
  refine ⟨Nest.exists_last name macros input, ?_, ?_, ?_⟩
  · intro s hreaches
    exact Nest.bounded_start.reaches hreaches
  · intro limit' macros' out hlimit h
    exact processSource_mono hlimit h
  · intro macros' origin n h
    have hyields := Nest.yields_preprocess t search limit name macros input
    rw [h] at hyields
    obtain ⟨s, hreaches, hstop⟩ := hyields
    have hbounded : s.Bounded t search limit name input := Nest.bounded_start.reaches hreaches
    cases Nest.does_of_step hstop with
    | refused _ _ _ heffect => cases place_of_lineEffect heffect
    | @tooDeep f outer line rest target hfiles hrest hincludes hfull =>
        have hdepth := hbounded.depth
        rw [hfiles, List.length_cons] at hdepth
        have hline : f.rest.head? = some line := by rw [hrest, List.head?_cons]
        exact ⟨rfl, s, f, outer, line, target, hreaches, hstop, hfiles, by omega, rfl, hline,
          hincludes⟩

/-- Two files that ask for each other. -/
def circularFiles : FileTree where
  entries := [
    (["a"], .file (.ofString "int x;\n#include <b>\n")),
    (["b"], .file (.ofString "#include \"a\""))]

example : preprocess circularFiles ⟨["."]⟩ 3 [] "main" (.ofString "#include <a>\n") =
    ([], .error (.tooDeep "./a" 3)) := by
  decide +kernel

end Limit

end ProbeLang
