import ProbeLang.Proofs.Task.Events

/-!
# Units that are read again

A session keeps the URI of each unit that it has entered and loads none of these on demand. A unit
that is no tree is not entered, and nothing is kept of it: when a class of its name is looked for,
the same file is read again and its error reported again.
-/

namespace ProbeLang

/-! ## What is told to be parsed -/

/-- The source that is parsed next, if a notice tells that one is. -/
def Notice.parses? : Notice → Option String
  | .started e => if e.phase = .parse then some e.source else none
  | .finished _ => none

namespace Reading

/-- The name of the source that is read. -/
def source (r : Reading) : String :=
  r.unit.name

theorem parses_entering (r : Reading) : r.entering.filterMap Notice.parses? = [] := by
  unfold entering
  cases r.tree <;> rfl

theorem parses_loading (r : Reading) : r.loading.filterMap Notice.parses? = [r.source] := by
  rw [loading, List.filterMap_append, parses_entering, List.append_nil]
  rfl

end Reading

namespace TaskTrace

theorem parses_analysis (r : TaskTrace) :
    r.analysis.filterMap Notice.parses? = r.readings.map Reading.source := by
  have hgiven : (r.given.flatMap Reading.parsing).filterMap Notice.parses? =
      r.given.map Reading.source := by
    rw [List.filterMap_flatMap, List.map_eq_flatMap]
    exact List.flatMap_congr fun _ _ => rfl
  have hentered : (r.given.flatMap Reading.entering).filterMap Notice.parses? = [] := by
    rw [List.filterMap_flatMap, List.flatMap_eq_nil_iff]
    exact fun x _ => x.parses_entering
  have hanalyses : (r.analyses.flatMap ClassAnalysis.notices).filterMap Notice.parses? =
      r.loads.map Reading.source := by
    rw [loads, List.filterMap_flatMap, List.map_flatMap]
    refine List.flatMap_congr fun a _ => ?_
    have hloads : (a.loads.flatMap Reading.loading).filterMap Notice.parses? =
        a.loads.map Reading.source := by
      rw [List.filterMap_flatMap, List.map_eq_flatMap]
      exact List.flatMap_congr fun x _ => x.parses_loading
    unfold ClassAnalysis.notices
    rw [List.filterMap_cons_none rfl, List.filterMap_append, hloads, List.filterMap_cons_none rfl,
      List.filterMap_nil, List.append_nil]
  rw [analysis, List.filterMap_append, List.filterMap_append, hgiven, hentered, hanalyses,
    List.append_nil, ← List.map_append]
  rfl

/-- What a trace tells to parse are its units, in the order in which they are read. -/
theorem parses_notices (r : TaskTrace) :
    r.notices.filterMap Notice.parses? = r.readings.map Reading.source := by
  have hgeneration : r.generation.filterMap Notice.parses? = [] := by
    unfold generation
    cases r.generated with
    | none => rfl
    | some es =>
        rw [Option.elim_some, List.filterMap_flatMap, List.flatMap_eq_nil_iff]
        exact fun _ _ => rfl
  rw [notices, List.filterMap_append, hgeneration, List.append_nil, parses_analysis]

/-- A unit that is read once more is one of the given ones, or was no tree. -/
theorem LoadsOnce.reread {r : TaskTrace} (h : r.LoadsOnce) {i j : Nat} {x y : Reading} (hij : i < j)
    (hx : r.readings[i]? = some x) (hy : r.readings[j]? = some y)
    (huri : x.unit.uri = y.unit.uri) : j < r.given.length ∨ x.tree = none := by
  rcases Nat.lt_or_ge j r.given.length with hj | hj
  · exact .inl hj
  · right
    by_contra htree
    have htree : x.tree.isSome = true := Option.isSome_iff_ne_none.mpr htree
    have hy : r.loads[j - r.given.length]? = some y := List.getElem?_append_right hj ▸ hy
    rcases Nat.lt_or_ge i r.given.length with hi | hi
    · have hx : r.given[i]? = some x := List.getElem?_append_left hi ▸ hx
      exact h.given x (List.mem_of_getElem? hx) htree y (List.mem_of_getElem? hy) huri
    · have hx : r.loads[i - r.given.length]? = some x := List.getElem?_append_right hi ▸ hx
      obtain ⟨hi', rfl⟩ := List.getElem?_eq_some_iff.mp hx
      obtain ⟨hj', rfl⟩ := List.getElem?_eq_some_iff.mp hy
      exact List.pairwise_iff_getElem.mp h.loads _ _ hi' hj' (by omega) htree huri

end TaskTrace

namespace CompilationTask

open Session

variable {σ : Type} {task : CompilationTask σ} {files : FileTree} {store : UnitStore} {state : σ}
  {r : Except TaskFault Bool} {s u : Session σ}

/-- A task tells to parse the units of a trace that follows from the given ones, or the first of
them if it ends with a fault. A unit that is read once more, by its URI, has been given once more,
or was no tree before. -/
theorem call_rereads (hsetUp : task.setUp files store state = (.ok (), s))
    (hrun : task.call (task.session files store state) = (r, u)) :
    ∃ (trace : TaskTrace) (symbols : SymbolTable),
      trace.Follows task.units symbols ∧ s.Relays trace.notices r u ∧
      trace.notices.filterMap Notice.parses? = trace.readings.map Reading.source ∧
      ∀ {i j : Nat} {x y : Reading}, i < j →
        trace.readings[i]? = some x → trace.readings[j]? = some y →
        x.unit.uri = y.unit.uri → j < task.units.length ∨ x.tree = none := by
  obtain ⟨trace, symbols, honce, hfollows, -, hconveys, -⟩ := call_traces_once hsetUp hrun
  refine ⟨trace, symbols, hfollows, hconveys.relays, trace.parses_notices, fun hij hx hy huri => ?_⟩
  have hlength : trace.given.length = task.units.length := by
    rw [← hfollows.given, List.length_map]
  exact hlength ▸ honce.reread hij hx hy huri

end CompilationTask

/-- A file that is given, and looked for as well, by a class of another unit. -/
def brokenFiles : FileTree :=
  let text := "class A { int }".toList.map fun c => c.toNat.toUInt8
  ⟨[(["lib"], .dir), (["lib", "A.probe"], .file text)], ""⟩

/-- The task that is given the file and the other unit. -/
def brokenTask : CompilationTask (List NoticeRecord) where
  options := { sourcePath := some ["lib"] }
  units := [.ofFile brokenFiles "lib/A.probe" .source,
    .ofText brokenFiles "B.probe" "class B { A f; }" .source]
  listener := some recorder

-- The file is no tree: it is parsed as a given unit and again when its class is looked for, and
-- each time its error is reported.
example :
    let u := (brokenTask.call (brokenTask.session brokenFiles (.inMemory none) [])).2
    (u.state.filter fun n => n.phase == .parse && n.starts).map NoticeRecord.source =
        ["lib/A.probe", "B.probe", "lib/A.probe"] ∧
      u.log.diagnostics.map Diagnostic.source =
        [some "lib/A.probe", some "lib/A.probe", some "B.probe"] := by
  decide +kernel

end ProbeLang
