import Mathlib.Data.List.Induction
import ProbeLang.Proofs.Compiler.Outcome
import ProbeLang.Proofs.Session.Turns

/-!
# What is in the registries

A verifier writes down every class of which it is told that its analysis has finished. So after a
task the registry of each verifier lists the classes of a trace that have been analysed, in their
order and each once; if the task has ended with a fault, it lists the first of them.

A registry begins anew where its verifier is set up, which is where a task begins. A call whose
units cannot be prepared has no task: after it the registries list what they listed before it
(`Compiler.registries_calls`).
-/

namespace ProbeLang

open SessionM

/-! ## Classes that are written down -/

/-- The name of the class whose analysis has finished, if that is what is told. -/
def Notice.examined? : Notice → Option String
  | .started _ => none
  | .finished e =>
      match e.phase, e.unit, e.decl? with
      | .analyze, some tree, some c => some (tree.binaryName c)
      | _, _, _ => none

/-- The classes whose analysis has finished when notices have been told. -/
def examined (ns : List Notice) : List String :=
  ns.filterMap Notice.examined?

theorem examined_append (ns ns' : List Notice) : examined (ns ++ ns') = examined ns ++ examined ns' :=
  List.filterMap_append

theorem examined_flatMap_nil {α : Type} {f : α → List Notice} {xs : List α}
    (h : ∀ x ∈ xs, examined (f x) = []) : examined (xs.flatMap f) = [] := by
  unfold examined
  rw [List.filterMap_flatMap]
  exact List.flatMap_eq_nil_iff.mpr h

/-! ## Traces -/

theorem Reading.examined_parsing (r : Reading) : examined r.parsing = [] := rfl

theorem Reading.examined_entering (r : Reading) : examined r.entering = [] := by
  unfold Reading.entering
  split <;> rfl

theorem Reading.examined_loading (r : Reading) : examined r.loading = [] := by
  rw [Reading.loading, examined_append, r.examined_parsing, r.examined_entering]
  rfl

namespace ClassAnalysis

/-- The name of the class. -/
def name (a : ClassAnalysis) : String := a.cls.type.binary

/-- When a class has been analysed its name is written down. -/
theorem examined_notices {a : ClassAnalysis} {es : List SourceEntry} (h : a.Stands es) :
    examined a.notices = [a.name] := by
  obtain ⟨e, -, -, hnames⟩ := h
  have hafter : typeSymbol a.after a.cls.type.place = some a.cls.type := hnames a.after (by simp)
  obtain ⟨decl, hdecl, htype⟩ := Option.map_eq_some_iff.mp hafter
  have hevent : (a.event a.after).decl? = some decl := hdecl
  have hfinished : (Notice.finished (a.event a.after)).examined? = some a.name := by
    show (match Phase.analyze, some a.after, (a.event a.after).decl? with
      | .analyze, some tree, some c => some (tree.binaryName c)
      | _, _, _ => none) = some a.name
    rw [hevent, name, ← htype]
  have hlast : examined [.finished (a.event a.after)] = [a.name] :=
    List.filterMap_cons_some hfinished
  have hloads := examined_flatMap_nil fun r (_ : r ∈ a.loads) => r.examined_loading
  show examined ([.started (a.event a.before)] ++ (_ ++ [.finished (a.event a.after)])) = _
  rw [examined_append, examined_append, hloads, hlast]
  rfl

theorem examined_generation (es : List SourceEntry) (a : ClassAnalysis) :
    examined (a.generation es) = [] := rfl

end ClassAnalysis

namespace TaskTrace

variable {r : TaskTrace} {units : List CompilationUnit} {symbols : SymbolTable}

/-- When all of a trace has been told, the classes that it analyses have been written down. -/
theorem examined_notices (h : r.AllStand) :
    examined r.notices = r.analyses.map ClassAnalysis.name := by
  have hanalyses : ∀ as : List ClassAnalysis, (∀ a ∈ as, ∃ es, a.Stands es) →
      examined (as.flatMap ClassAnalysis.notices) = as.map ClassAnalysis.name := by
    intro as
    induction as with
    | nil => exact fun _ => rfl
    | cons a as ih =>
        intro hall
        obtain ⟨⟨es, ha⟩, hall⟩ := List.forall_mem_cons.mp hall
        rw [List.flatMap_cons, examined_append, ClassAnalysis.examined_notices ha, ih hall]
        rfl
  have hgeneration : examined r.generation = [] := by
    unfold generation
    cases r.generated with
    | none => rfl
    | some es => exact examined_flatMap_nil fun a _ => a.examined_generation es
  rw [notices, analysis, examined_append, examined_append, examined_append,
    examined_flatMap_nil fun x _ => x.examined_parsing,
    examined_flatMap_nil fun x _ => x.examined_entering, hgeneration, List.append_nil]
  apply hanalyses
  intro a ha
  obtain ⟨i, hi⟩ := List.mem_iff_getElem?.mp ha
  exact ⟨_, h i a hi⟩

theorem entries_readingsUpTo (r : TaskTrace) (i : Nat) :
    entries (r.readingsUpTo i) <+: entries r.readings := by
  have hreadings : r.readings =
      r.readingsUpTo i ++ (r.analyses.drop i).flatMap ClassAnalysis.loads := by
    rw [readingsUpTo, List.append_assoc, ← List.flatMap_append, List.take_append_drop, readings]
  rw [hreadings, entries_append]
  exact List.prefix_append _ _

/-- A class that is analysed has a name of its own. -/
theorem Follows.owns (h : r.Follows units symbols) {a : ClassAnalysis} (ha : a ∈ r.analyses) :
    symbols.owns a.cls.unit [a.cls.type.place] a.name = true := by
  have hkey : (a.cls.unit, a.cls.type.place) ∈ symbols.accepted 0 (entries r.readings) :=
    h.queue ▸ List.mem_map_of_mem ha
  obtain ⟨i, e, type, he, hunit, htype, howns⟩ := SymbolTable.mem_accepted hkey
  obtain ⟨j, hj⟩ := List.mem_iff_getElem?.mp ha
  obtain ⟨e', he', -, hnames⟩ := h.stands j a hj
  obtain ⟨more, hmore⟩ := r.entries_readingsUpTo j
  have hlt := (List.getElem?_eq_some_iff.mp he').1
  rw [← List.getElem?_append_left hlt, hmore, hunit, Nat.zero_add, he] at he'
  cases he'
  have hsame := htype.symm.trans (hnames e.tree List.mem_cons_self)
  cases hsame
  exact howns

/-- No two classes that are analysed have the same name. -/
theorem Follows.nodup_names (h : r.Follows units symbols) :
    (r.analyses.map ClassAnalysis.name).Nodup := by
  have hkeys : r.keys.Nodup := h.queue ▸ symbols.nodup_accepted 0 (entries r.readings)
  refine List.pairwise_map.mpr ((List.pairwise_map.mp hkeys).imp_of_mem fun ha hb hne hname => ?_)
  have howns := eq_of_beq (h.owns ha)
  rw [hname, eq_of_beq (h.owns hb)] at howns
  simp only [Option.some.injEq, Origin.source.injEq, List.cons.injEq, and_true] at howns
  exact hne (Prod.ext howns.1 howns.2).symm

end TaskTrace

/-! ## Listeners -/

namespace TaskListener

variable {l l' : TaskListener ClassRegistries} {i : Nat}

/-- Whether a listener writes the classes that have been analysed down in the registry of a
number. -/
def Notes (l : TaskListener ClassRegistries) (i : Nat) : Prop :=
  ∀ n state log, (l.tell n state log).1[i]? = (state[i]?).map (· ++ examined [n])

/-- Whether a listener leaves the registry of a number as it is. -/
def Leaves (l : TaskListener ClassRegistries) (i : Nat) : Prop :=
  ∀ n state log, (l.tell n state log).1[i]? = state[i]?

theorem Notes.andThen (h : l.Notes i) (h' : l'.Leaves i) : (l.andThen l').Notes i := by
  intro n state log
  rw [tell_andThen, h' n, h n]

theorem Leaves.andThen_notes (h : l.Leaves i) (h' : l'.Notes i) : (l.andThen l').Notes i := by
  intro n state log
  rw [tell_andThen, h' n, h n]

theorem Leaves.andThen (h : l.Leaves i) (h' : l'.Leaves i) : (l.andThen l').Leaves i := by
  intro n state log
  rw [tell_andThen, h' n, h n]

/-- What has been written down when notices have been told. -/
theorem Hears.notes (hl : l.Notes i) {ns : List Notice} {state state' : ClassRegistries}
    {log log' : Log} (h : l.Hears ns state log state' log') :
    state'[i]? = (state[i]?).map (· ++ examined ns) := by
  induction h with
  | done state log => simp [examined]
  | report ds _ ih => exact ih
  | @next n ns _ _ _ _ _ ih =>
      rw [ih, hl n, Option.map_map, show n :: ns = [n] ++ ns from rfl, examined_append]
      simp only [Function.comp_def, List.append_assoc]

end TaskListener

namespace Verifier

theorem tell_listener (v : Verifier) (registry : ClassRegistry ClassRegistries) (n : Notice)
    (state : ClassRegistries) (log : Log) : ((v.listener registry).tell n state log).1 =
      n.examined?.elim state fun name => registry.put (registry.names state ++ [name]) state := by
  cases n with
  | started e => rfl
  | finished e =>
      show ((v.listener registry).finished e state log).1 = _
      unfold listener Notice.examined?
      dsimp only
      generalize e.phase = phase, e.unit = unit, e.decl? = decl
      cases phase <;> cases unit <;> cases decl <;> rfl

/-- A verifier writes down in its own registry, -/
theorem notes_listener (v : Verifier) (i : Nat) : (v.listener (.ofRegistries i)).Notes i := by
  intro n state log
  rw [tell_listener, examined, List.filterMap_cons, List.filterMap_nil]
  cases n.examined? with
  | none => simp
  | some name =>
      show (state.set i ((state[i]?).getD [] ++ [name]))[i]? = _
      rw [List.getElem?_set_self']
      cases state[i]? <;> rfl

/-- and in no other. -/
theorem leaves_listener (v : Verifier) {i j : Nat} (h : j ≠ i) :
    (v.listener (.ofRegistries j)).Leaves i := by
  intro n state log
  rw [tell_listener]
  cases n.examined? with
  | none => rfl
  | some name => exact List.getElem?_set_ne h

end Verifier

namespace Session

variable {s t : Session ClassRegistries} {i j : Nat}

/-- Whether the registry of a number is empty and the listener writes down in it. -/
def Starts (s : Session ClassRegistries) (i : Nat) : Prop :=
  s.state[i]? = some [] ∧ ∃ l, s.listener = some l ∧ l.Notes i

/-- Whether the listener, if there is one, leaves the registry of a number as it is. -/
def Spares (s : Session ClassRegistries) (i : Nat) : Prop :=
  ∀ l, s.listener = some l → l.Leaves i

/-- A session once a verifier with the registry of a number has been set up. -/
def withVerifier (s : Session ClassRegistries) (v : Verifier) (i : Nat) : Session ClassRegistries :=
  { s with
    state := s.state.set i []
    listener := some (v.listenAfter (.ofRegistries i) s.listener) }

theorem Spares.withVerifier (h : s.Spares i) (v : Verifier) (hne : j ≠ i) :
    (s.withVerifier v j).Spares i := by
  rintro l ⟨⟩
  cases hold : s.listener with
  | none => exact v.leaves_listener hne
  | some old => exact (h old hold).andThen (v.leaves_listener hne)

theorem Starts.withVerifier (h : s.Starts i) (v : Verifier) (hne : j ≠ i) :
    (s.withVerifier v j).Starts i := by
  obtain ⟨hempty, l, hl, hnotes⟩ := h
  refine ⟨(List.getElem?_set_ne hne).trans hempty, _, rfl, ?_⟩
  rw [hl]
  exact hnotes.andThen (v.leaves_listener hne)

theorem Spares.starts (h : s.Spares i) (v : Verifier) (hi : i < s.state.length) :
    (s.withVerifier v i).Starts i := by
  refine ⟨List.getElem?_set_self hi, _, rfl, ?_⟩
  cases hold : s.listener with
  | none => exact v.notes_listener i
  | some old => exact (h old hold).andThen_notes (v.notes_listener i)

/-- What a registry lists that was empty when notices began to be told. -/
theorem Starts.told {ns : List Notice} (h : s.Starts i) (htells : s.Tells ns t) :
    t.state[i]? = some (examined ns) := by
  obtain ⟨hempty, l, hl, hnotes⟩ := h
  rw [(htells.heard l hl).notes hnotes, hempty]
  rfl

end Session

namespace SessionM

open Session

/-- Once verifiers have been set up, the registry of each is empty and they write down in it. -/
theorem initPlugins_starts : ∀ (vs : List (Verifier × Nat)) {s t : Session ClassRegistries},
    (vs.map Prod.snd).Nodup → (∀ i ∈ vs.map Prod.snd, i < s.state.length ∧ s.Spares i) →
      (initPlugins (numbered vs)).run.run s = (.ok (), t) →
        (∀ i, i ∉ vs.map Prod.snd → s.Starts i → t.Starts i) ∧ ∀ i ∈ vs.map Prod.snd, t.Starts i
  | [], s, t, _, _, hrun => by
      cases hrun
      exact ⟨fun _ _ => id, List.forall_mem_nil _⟩
  | (v, j) :: rest, s, t, hnodup, hall, hrun => by
      obtain ⟨hj, hnodup⟩ := List.nodup_cons.mp hnodup
      obtain ⟨⟨hlt, hspares⟩, hall⟩ := List.forall_mem_cons.mp hall
      have hall' : ∀ i ∈ rest.map Prod.snd,
          i < (s.withVerifier v j).state.length ∧ (s.withVerifier v j).Spares i := by
        intro i hi
        obtain ⟨hi', hspares'⟩ := hall i hi
        have hne : j ≠ i := fun e => hj (e ▸ hi)
        exact ⟨Nat.lt_of_lt_of_eq hi' List.length_set.symm, hspares'.withVerifier v hne⟩
      have hrest : (initPlugins (numbered rest)).run.run (s.withVerifier v j) = (.ok (), t) := hrun
      obtain ⟨hkept, hstarts⟩ := initPlugins_starts rest hnodup hall' hrest
      refine ⟨fun i hi h => ?_, List.forall_mem_cons.mpr ⟨hkept j hj (hspares.starts v hlt), hstarts⟩⟩
      obtain ⟨hne, hi⟩ := not_or.mp (mt List.mem_cons.mpr hi)
      exact hkept i hi (h.withVerifier v (Ne.symm hne))

end SessionM

/-! ## Calls -/

namespace Compiler

variable {c : Compiler} {registries : ClassRegistries} {options : Options}
  {units : List CompilationUnit} {files : FileTree} {store : UnitStore}

/-- When the task of a compiler has been set up, every registry is empty and its verifier writes
down in it. -/
theorem starts_setUp (h : registries.length = c.verifiers.length) {s : Session ClassRegistries}
    (hsetUp : (c.task options units).setUp files store registries = (.ok (), s)) {i : Nat}
    (hi : i < c.verifiers.length) : s.Starts i := by
  have hplugins : (initPlugins (numbered c.verifiers.zipIdx)).run.run (setLocations.run.run
      { (c.task options units).session files store registries with called := true }).2 =
        (.ok (), s) := by
    rw [← plugins_numbered]
    exact hsetUp
  have hnumbers : c.verifiers.zipIdx.map Prod.snd = List.range' 0 c.verifiers.length :=
    List.zipIdx_map_snd 0 c.verifiers
  refine (initPlugins_starts _ (hnumbers ▸ List.nodup_range') (fun j hj => ?_) hplugins).2 i ?_
  · rw [hnumbers, List.mem_range'_1] at hj
    refine ⟨?_, nofun⟩
    show j < registries.length
    omega
  · rw [hnumbers, List.mem_range'_1]
    exact ⟨Nat.zero_le i, by omega⟩

/-- The task of a call that begins with some registries: how it has been set up and how it ends, a
trace that follows from its units, and what of this trace has been told by then. -/
structure Examination (c : Compiler) (x : CompileCall) (registries : ClassRegistries) where
  units : List CompilationUnit
  options : Options
  start : Session ClassRegistries
  answer : Except TaskFault Bool
  last : Session ClassRegistries
  trace : TaskTrace
  symbols : SymbolTable
  told : List Notice
  prepared : c.requestUnits x.files x.request = .ok units
  given : Options.ofList (taskOptions x.paths) = .ok options
  setUp : (c.task options units).setUp x.files (.inMemory c.includes) registries = (.ok (), start)
  call : (c.task options units).call
    ((c.task options units).session x.files (.inMemory c.includes) registries) = (answer, last)
  follows : trace.Follows units symbols
  tells : start.Tells told last
  first : told <+: trace.notices
  complete : ∀ b, answer = .ok b → told = trace.notices

namespace Examination

variable {x : CompileCall}

/-- The classes whose analysis has finished. -/
def names (e : c.Examination x registries) : List String :=
  examined e.told

/-- Classes are examined in the order of the trace. -/
theorem names_prefix (e : c.Examination x registries) :
    e.names <+: e.trace.analyses.map ClassAnalysis.name := by
  rw [← TaskTrace.examined_notices e.follows.stands]
  exact e.first.filterMap _

/-- No class is examined twice. -/
theorem nodup_names (e : c.Examination x registries) : e.names.Nodup :=
  e.names_prefix.sublist.nodup e.follows.nodup_names

/-- A task that ends with an answer has examined all classes of the trace. -/
theorem names_of_answer (e : c.Examination x registries) {b : Bool} (h : e.answer = .ok b) :
    e.names = e.trace.analyses.map ClassAnalysis.name := by
  rw [names, e.complete b h, TaskTrace.examined_notices e.follows.stands]

/-- When the task ends every registry lists the classes that have been examined. -/
theorem registries_last (e : c.Examination x registries)
    (h : registries.length = c.verifiers.length) :
    e.last.state = c.verifiers.map fun _ => e.names := by
  have hlength : e.last.state.length = c.verifiers.length := call_keeps h e.call
  apply List.ext_getElem?
  intro i
  by_cases hi : i < c.verifiers.length
  · rw [(starts_setUp h e.setUp hi).told e.tells, List.getElem?_map, List.getElem?_eq_getElem hi]
    rfl
  · rw [List.getElem?_eq_none (by omega), List.getElem?_eq_none (by simpa using hi)]

end Examination

/-- After a call every registry lists the classes that its task has examined. Without a task the
registries are as they were. -/
theorem registries_call (h : registries.length = c.verifiers.length) (x : CompileCall) :
    (∃ cause, c.requestUnits x.files x.request = .error cause ∧
        (c.call registries x).registries = registries) ∨
      ∃ e : c.Examination x registries,
        (c.call registries x).registries = c.verifiers.map fun _ => e.names := by
  cases hunits : c.requestUnits x.files x.request with
  | error cause =>
      refine .inl ⟨cause, rfl, ?_⟩
      rw [Compiler.call, compile_eq, hunits]
      rfl
  | ok units =>
      obtain ⟨options, answer, u, hoptions, hcall, hcompile⟩ :=
        compile_eq_conclude registries x.sink x.paths hunits
      obtain ⟨s, hsetUp, -⟩ := setUp_task c options units x.files registries
      obtain ⟨trace, symbols, hfollows, -, hrelays, -⟩ := CompilationTask.call_traces hsetUp hcall
      obtain ⟨told, hpart, hall, htells⟩ := hrelays.told
      let e : c.Examination x registries :=
        ⟨units, options, s, answer, u, trace, symbols, told, hunits, hoptions, hsetUp, hcall,
          hfollows, htells, hpart, hall⟩
      refine .inr ⟨e, ?_⟩
      rw [Compiler.call, hcompile, registries_conclude]
      exact e.registries_last h

/-- The registries of a new compiler after calls. -/
def registriesAfter (c : Compiler) (xs : List CompileCall) : ClassRegistries :=
  xs.foldl (fun registries x => (c.call registries x).registries) c.newRegistries

theorem length_registriesAfter (c : Compiler) (xs : List CompileCall) :
    (c.registriesAfter xs).length = c.verifiers.length := by
  induction xs using List.reverseRecOn with
  | nil => exact List.length_map _
  | append_singleton xs x ih =>
      rw [registriesAfter, List.foldl_append]
      exact (forgets_call ih ih x).2

/-- After any calls, the registry of every verifier lists the classes that have been examined by the
last call that had a task, and nothing if none had one. A call without a task is one whose units
could not be prepared. -/
theorem registries_calls (c : Compiler) (xs : List CompileCall) :
    ((∀ x ∈ xs, ∃ cause, c.requestUnits x.files x.request = .error cause) ∧
        c.registriesAfter xs = c.verifiers.map fun _ => []) ∨
      ∃ before x after, ∃ e : c.Examination x (c.registriesAfter before),
        xs = before ++ x :: after ∧
        (∀ y ∈ after, ∃ cause, c.requestUnits y.files y.request = .error cause) ∧
        c.registriesAfter xs = c.verifiers.map fun _ => e.names := by
  induction xs using List.reverseRecOn with
  | nil => exact .inl ⟨List.forall_mem_nil _, rfl⟩
  | append_singleton xs x ih =>
      have hlast : c.registriesAfter (xs ++ [x]) =
          (c.call (c.registriesAfter xs) x).registries := List.foldl_append
      rw [hlast]
      rcases registries_call (c.length_registriesAfter xs) x with ⟨cause, hcause, hsame⟩ | ⟨e, he⟩
      · have hfails : ∀ y ∈ [x], ∃ cause, c.requestUnits y.files y.request = .error cause :=
          List.forall_mem_singleton.mpr ⟨cause, hcause⟩
        rw [hsame]
        rcases ih with ⟨hall, hempty⟩ | ⟨before, y, after, e, rfl, hall, he⟩
        · exact .inl ⟨List.forall_mem_append.mpr ⟨hall, hfails⟩, hempty⟩
        · exact .inr ⟨before, y, after ++ [x], e, by simp,
            List.forall_mem_append.mpr ⟨hall, hfails⟩, he⟩
      · exact .inr ⟨xs, x, [], e, rfl, List.forall_mem_nil _, he⟩

end Compiler

end ProbeLang
