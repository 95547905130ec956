import ProbeLang.Proofs.Session.Adding
import ProbeLang.Proofs.Task.Queue

/-!
# Traces of tasks

What a task tells its listener has a form of its own. First the given units are parsed and those
that are trees are entered. Then the classes that wait are analysed one after the other; while a
class is analysed more units may be loaded, each of which is parsed and, if it is a tree, entered at
once. Last the code of the analysed classes is generated, if there is no error by then.

A `TaskTrace` is what such a run consists of, and `TaskTrace.notices` is what is told of it. It
`Follows` from the given units if just those top-level classes are analysed that have a name of
their own, each once, in the order in which they were entered, and behind the notices of their unit.
-/

namespace ProbeLang

open SessionM

/-! ## Units that are read -/

/-- A unit that is read: what its parser makes of it. -/
structure Reading where
  unit : CompilationUnit
  tree : Option UnitTree

namespace Reading

/-- What is told when a unit is parsed. -/
def parsing (r : Reading) : List Notice :=
  [.started { phase := .parse, source := r.unit.name },
    .finished { phase := .parse, source := r.unit.name, unit := r.tree }]

/-- What is told when a unit is entered, which it is if it is a tree. -/
def entering (r : Reading) : List Notice :=
  match r.tree with
  | none => []
  | some tree =>
      let event : TaskEvent := { phase := .enter, source := r.unit.name, unit := some tree }
      [.started event, .finished event]

/-- What is told when a unit is loaded on demand. -/
def loading (r : Reading) : List Notice :=
  r.parsing ++ r.entering

/-- The unit as it is entered. -/
def entry? (r : Reading) : Option SourceEntry :=
  r.tree.map fun tree => ⟨r.unit, tree⟩

/-- Whether the tree of a unit is what the parser makes of its text. -/
def Faithful (r : Reading) (files : FileTree) : Prop :=
  ∃ text, r.unit.content files = .ok text ∧
    r.tree = (UnitTree.parse r.unit.name text).toOption

end Reading

/-- The units that are entered, in their order. -/
def entries (rs : List Reading) : List SourceEntry :=
  rs.filterMap Reading.entry?

theorem entries_append (rs rs' : List Reading) : entries (rs ++ rs') = entries rs ++ entries rs' :=
  List.filterMap_append

theorem mem_entries {rs : List Reading} {r : Reading} {tree : UnitTree} (hr : r ∈ rs)
    (htree : r.tree = some tree) : ⟨r.unit, tree⟩ ∈ entries rs :=
  List.mem_filterMap.mpr ⟨r, hr, by simp only [htree, Reading.entry?, Option.map_some]⟩

namespace Reading

/-- Whether none of some units has one of some URIs, or that of a unit in front of it which is a
tree. -/
structure AllNew (uris : List String) (rs : List Reading) : Prop where
  unread : ∀ x ∈ rs, x.unit.uri ∉ uris
  once : rs.Pairwise fun x y => x.tree.isSome = true → x.unit.uri ≠ y.unit.uri

namespace AllNew

variable {uris uris' : List String} {rs rs' : List Reading}

theorem nil (uris : List String) : AllNew uris [] :=
  ⟨List.forall_mem_nil _, .nil⟩

theorem singleton {r : Reading} (h : r.unit.uri ∉ uris) : AllNew uris [r] :=
  ⟨List.forall_mem_singleton.mpr h, List.pairwise_singleton _ _⟩

theorem mono (h : AllNew uris rs) (hsub : uris' ⊆ uris) : AllNew uris' rs :=
  ⟨fun x hx hmem => h.unread x hx (hsub hmem), h.once⟩

/-- Units may be read behind others if the URIs of those that are trees are known by then. -/
theorem append (h : AllNew uris rs) (h' : AllNew uris' rs') (hsub : uris ⊆ uris')
    (hknown : ∀ e ∈ entries rs, e.unit.uri ∈ uris') : AllNew uris (rs ++ rs') where
  unread := List.forall_mem_append.mpr ⟨h.unread, (h'.mono hsub).unread⟩
  once := by
    refine List.pairwise_append.mpr ⟨h.once, h'.once, fun x hx y hy htree heq => ?_⟩
    obtain ⟨tree, htree⟩ := Option.isSome_iff_exists.mp htree
    exact h'.unread y hy (heq ▸ hknown _ (mem_entries hx htree))

end AllNew

end Reading

/-! ## Classes with a name of their own -/

/-- Whether the name of a top-level class of a unit belongs to it, and not to another class. -/
def SymbolTable.accepts (t : SymbolTable) (unit : Nat) (tree : UnitTree) (number : Nat) : Bool :=
  (typeSymbol tree number).any fun type => t.owns unit [number] type.binary

/-- The top-level classes of units that have names of their own. The first unit has the given
number. -/
def SymbolTable.accepted (t : SymbolTable) (unit : Nat) : List SourceEntry → List (Nat × Nat)
  | [] => []
  | e :: rest =>
      ((List.range e.tree.types.length).filter (t.accepts unit e.tree)).map (unit, ·) ++
        accepted t (unit + 1) rest

namespace SymbolTable

variable {t u : SymbolTable}

theorem accepted_append (t : SymbolTable) (unit : Nat) (es es' : List SourceEntry) :
    t.accepted unit (es ++ es') = t.accepted unit es ++ t.accepted (unit + es.length) es' := by
  induction es generalizing unit with
  | nil => rfl
  | cons e es ih =>
      simp only [List.cons_append, accepted, ih, List.append_assoc, List.length_cons]
      rw [Nat.add_right_comm, Nat.add_assoc]

/-- Nothing is accepted but top-level classes, each once. -/
theorem accepted_sublist (t : SymbolTable) (unit : Nat) (es : List SourceEntry) :
    (t.accepted unit es).Sublist (topClasses unit es) := by
  induction es generalizing unit with
  | nil => exact .slnil
  | cons e es ih => exact (List.filter_sublist.map _).append (ih (unit + 1))

theorem nodup_accepted (t : SymbolTable) (unit : Nat) (es : List SourceEntry) :
    (t.accepted unit es).Nodup :=
  (nodup_topClasses unit es).sublist (t.accepted_sublist unit es)

theorem accepts_iff {t : SymbolTable} {unit number : Nat} {tree : UnitTree} :
    t.accepts unit tree number = true ↔
      ∃ type, typeSymbol tree number = some type ∧ t.owns unit [number] type.binary = true := by
  unfold accepts
  cases typeSymbol tree number <;> simp

/-- A class that is accepted stands in one of the units, and its name is its own. -/
theorem mem_accepted {first unit number : Nat} {es : List SourceEntry}
    (h : (unit, number) ∈ t.accepted first es) :
    ∃ i e type, es[i]? = some e ∧ unit = first + i ∧ typeSymbol e.tree number = some type ∧
      t.owns unit [number] type.binary = true := by
  induction es generalizing first with
  | nil => cases h
  | cons e es ih =>
      rcases List.mem_append.mp h with h | h
      · obtain ⟨n, hn, heq⟩ := List.mem_map.mp h
        cases heq
        obtain ⟨type, htype, howns⟩ := accepts_iff.mp (List.mem_filter.mp hn).2
        exact ⟨0, e, type, rfl, rfl, htype, howns⟩
      · obtain ⟨i, e', type, he', hunit, hrest⟩ := ih h
        exact ⟨i + 1, e', type, he', by omega, hrest⟩

/-- A class whose name is its own is accepted. -/
theorem mem_accepted_of_owns {first i number : Nat} {es : List SourceEntry} {e : SourceEntry}
    {type : TypeSymbol} (he : es[i]? = some e) (htype : typeSymbol e.tree number = some type)
    (howns : t.owns (first + i) [number] type.binary = true) :
    (first + i, number) ∈ t.accepted first es := by
  induction es generalizing first i with
  | nil => cases he
  | cons e' es ih =>
      cases i with
      | zero =>
          cases he
          obtain ⟨decl, hdecl, -⟩ := Option.map_eq_some_iff.mp htype
          have hnumber := (List.getElem?_eq_some_iff.mp hdecl).1
          refine List.mem_append_left _ (List.mem_map.mpr ⟨number, ?_, rfl⟩)
          exact List.mem_filter.mpr
            ⟨List.mem_range.mpr hnumber, accepts_iff.mpr ⟨type, htype, howns⟩⟩
      | succ i =>
          rw [← Nat.add_assoc, Nat.add_right_comm] at howns ⊢
          exact List.mem_append_right _ (ih he howns)

/-- What is accepted of units all of whose names are known does not depend on symbols that are added
or completed. -/
theorem accepted_of_entered_prefix (h : t.entered <+: u.entered) {es : List SourceEntry}
    (hes : ∀ e ∈ es, ∀ decl ∈ e.tree.types, t.has (e.tree.binaryName decl) = true) (unit : Nat) :
    u.accepted unit es = t.accepted unit es := by
  induction es generalizing unit with
  | nil => rfl
  | cons e es ih =>
      obtain ⟨he, hes⟩ := List.forall_mem_cons.mp hes
      have haccepts (number : Nat) :
          u.accepts unit e.tree number = t.accepts unit e.tree number := by
        unfold accepts typeSymbol
        cases hdecl : e.tree.types[number]? with
        | none => rfl
        | some decl => exact owns_of_entered_prefix h (he decl (List.mem_of_getElem? hdecl)) _ _
      rw [accepted, accepted, ih hes, List.filter_congr fun number _ => haccepts number]

end SymbolTable

/-! ## Classes that are analysed -/

/-- A class of the queue that is analysed: the tree of its unit before and behind the analysis, and
the units that are loaded meanwhile. -/
structure ClassAnalysis where
  cls : QueuedClass
  before : UnitTree
  after : UnitTree
  loads : List Reading

namespace ClassAnalysis

/-- What is told at the start or the end of the analysis of a class, given the tree of its unit. -/
def event (a : ClassAnalysis) (tree : UnitTree) : TaskEvent :=
  { phase := .analyze, source := a.cls.source, unit := some tree, type := some a.cls.type }

/-- What is told when a class is analysed. -/
def notices (a : ClassAnalysis) : List Notice :=
  .started (a.event a.before) :: (a.loads.flatMap Reading.loading ++ [.finished (a.event a.after)])

/-- What is told when the code of a class is generated, given the units as they are then. -/
def generation (es : List SourceEntry) (a : ClassAnalysis) : List Notice :=
  let event : TaskEvent :=
    { phase := .generate, source := a.cls.source, unit := es[a.cls.unit]?.map SourceEntry.tree,
      type := some a.cls.type }
  [.started event, .finished event]

/-- Whether a class is one of some units, and keeps its names while it is analysed. -/
def Stands (es : List SourceEntry) (a : ClassAnalysis) : Prop :=
  ∃ e, es[a.cls.unit]? = some e ∧ a.cls.source = e.unit.name ∧
    ∀ tree ∈ [e.tree, a.before, a.after],
      typeSymbol tree a.cls.type.place = some a.cls.type

end ClassAnalysis

/-! ## Traces -/

/-- A run of a task: the given units, the classes that are analysed, and, if code is generated, the
units as they are then. -/
structure TaskTrace where
  given : List Reading
  analyses : List ClassAnalysis
  generated : Option (List SourceEntry)

namespace TaskTrace

/-- What is told up to the end of the analysis. -/
def analysis (r : TaskTrace) : List Notice :=
  r.given.flatMap Reading.parsing ++ r.given.flatMap Reading.entering ++
    r.analyses.flatMap ClassAnalysis.notices

/-- What is told when code is generated. -/
def generation (r : TaskTrace) : List Notice :=
  r.generated.elim [] fun es => r.analyses.flatMap (ClassAnalysis.generation es)

/-- All that is told. -/
def notices (r : TaskTrace) : List Notice :=
  r.analysis ++ r.generation

/-- The units that have been read before the analysis of a number. -/
def readingsUpTo (r : TaskTrace) (i : Nat) : List Reading :=
  r.given ++ (r.analyses.take i).flatMap ClassAnalysis.loads

/-- All units that are read, in the order in which they are entered. -/
def readings (r : TaskTrace) : List Reading :=
  r.given ++ r.analyses.flatMap ClassAnalysis.loads

/-- The units that are loaded on demand. -/
def loads (r : TaskTrace) : List Reading :=
  r.analyses.flatMap ClassAnalysis.loads

/-- Where the classes stand that are analysed. -/
def keys (r : TaskTrace) : List (Nat × Nat) :=
  r.analyses.map fun a => QueuedClass.key a.cls

/-- The trace with one more class that is analysed. -/
def append (r : TaskTrace) (a : ClassAnalysis) : TaskTrace :=
  { r with analyses := r.analyses ++ [a] }

@[simp] theorem readings_append (r : TaskTrace) (a : ClassAnalysis) :
    (r.append a).readings = r.readings ++ a.loads := by
  simp [readings, append]

@[simp] theorem analysis_append (r : TaskTrace) (a : ClassAnalysis) :
    (r.append a).analysis = r.analysis ++ a.notices := by
  simp [analysis, append]

@[simp] theorem keys_append (r : TaskTrace) (a : ClassAnalysis) :
    (r.append a).keys = r.keys ++ [QueuedClass.key a.cls] := by
  simp [keys, append]

/-- Whether no unit is loaded that has been read before as a tree. -/
structure LoadsOnce (r : TaskTrace) : Prop where
  given : ∀ x ∈ r.given, x.tree.isSome = true → ∀ y ∈ r.loads, x.unit.uri ≠ y.unit.uri
  loads : r.loads.Pairwise fun x y => x.tree.isSome = true → x.unit.uri ≠ y.unit.uri

theorem LoadsOnce.of_loads_eq_nil {r : TaskTrace} (h : r.loads = []) : r.LoadsOnce := by
  refine ⟨fun _ _ _ y hy => ?_, h ▸ .nil⟩
  rw [h] at hy
  cases hy

theorem LoadsOnce.congr {r r' : TaskTrace} (h : r.LoadsOnce) (hgiven : r'.given = r.given)
    (hreadings : r'.readings = r.readings) : r'.LoadsOnce := by
  have hloads : r'.loads = r.loads := by
    unfold readings at hreadings
    rw [hgiven] at hreadings
    exact List.append_cancel_left hreadings
  obtain ⟨hfirst, hrest⟩ := h
  exact ⟨by rw [hgiven, hloads]; exact hfirst, hloads ▸ hrest⟩

/-- A class may be analysed next if the units that are loaded meanwhile are new. -/
theorem LoadsOnce.append {r : TaskTrace} {a : ClassAnalysis} {uris : List String}
    (h : r.LoadsOnce) (hknown : ∀ e ∈ entries r.readings, e.unit.uri ∈ uris)
    (hnew : Reading.AllNew uris a.loads) : (r.append a).LoadsOnce := by
  have hloads : (r.append a).loads = r.loads ++ a.loads := by
    simp only [TaskTrace.loads, TaskTrace.append, List.flatMap_append, List.flatMap_singleton]
  have hlater : ∀ x ∈ r.readings, x.tree.isSome = true → ∀ y ∈ a.loads,
      x.unit.uri ≠ y.unit.uri := by
    intro x hx htree y hy heq
    obtain ⟨tree, htree⟩ := Option.isSome_iff_exists.mp htree
    exact hnew.unread y hy (heq ▸ hknown _ (mem_entries hx htree))
  refine ⟨fun x hx htree y hy => ?_, ?_⟩
  · rw [hloads] at hy
    rcases List.mem_append.mp hy with hy | hy
    · exact h.given x hx htree y hy
    · exact hlater x (List.mem_append_left _ hx) htree y hy
  · rw [hloads]
    exact List.pairwise_append.mpr ⟨h.loads, hnew.once, fun x hx y hy htree =>
      hlater x (List.mem_append_right _ hx) htree y hy⟩

/-- Whether the unit of each class has been entered before the class is analysed. -/
def AllStand (r : TaskTrace) : Prop :=
  ∀ (i : Nat) (a : ClassAnalysis), r.analyses[i]? = some a → a.Stands (entries (r.readingsUpTo i))

theorem AllStand.append {r : TaskTrace} {a : ClassAnalysis} (h : r.AllStand)
    (ha : a.Stands (entries r.readings)) : (r.append a).AllStand := by
  intro i b hb
  have hupTo (hi : i ≤ r.analyses.length) :
      (r.append a).readingsUpTo i = r.readingsUpTo i := by
    simp only [readingsUpTo, TaskTrace.append, List.take_append_of_le_length hi]
  have hb : (r.analyses ++ [a])[i]? = some b := hb
  by_cases hi : i < r.analyses.length
  · rw [List.getElem?_append_left hi] at hb
    rw [hupTo (Nat.le_of_lt hi)]
    exact h i b hb
  · have hlt := (List.getElem?_eq_some_iff.mp hb).1
    rw [List.length_append, List.length_singleton] at hlt
    obtain rfl : i = r.analyses.length := by omega
    rw [List.getElem?_concat_length] at hb
    cases hb
    rw [hupTo (Nat.le_refl _), readingsUpTo, List.take_length]
    exact ha

/-- Whether a trace is that of a run from some units, given the symbols at its end: every class of a
unit that has been entered has a symbol, the classes that are analysed are those whose name is not
another's, each once and in their order, and the unit of each has been entered by then. -/
structure Follows (r : TaskTrace) (units : List CompilationUnit) (symbols : SymbolTable) :
    Prop where
  given : r.given.map Reading.unit = units
  known : ∀ e ∈ entries r.readings, ∀ decl ∈ e.tree.types,
    symbols.has (e.tree.binaryName decl) = true
  queue : r.keys = symbols.accepted 0 (entries r.readings)
  stands : r.AllStand

/-- Whether the class of a number in a unit is analysed just once, and behind the notices of its
unit. -/
def AnalysesOnce (r : TaskTrace) (unit number : Nat) : Prop :=
  ∃ (i : Nat) (a : ClassAnalysis), r.analyses[i]? = some a ∧
    QueuedClass.key a.cls = (unit, number) ∧ a.Stands (entries (r.readingsUpTo i)) ∧
    ∀ (j : Nat) (b : ClassAnalysis), r.analyses[j]? = some b →
      QueuedClass.key b.cls = (unit, number) → j = i

/-- Every class that has been entered under a name of its own is analysed once. -/
theorem Follows.analysesOnce {r : TaskTrace} {units : List CompilationUnit} {symbols : SymbolTable}
    (h : r.Follows units symbols) {unit number : Nat} {e : SourceEntry} {decl : ClassDecl}
    (he : (entries r.readings)[unit]? = some e) (hdecl : e.tree.types[number]? = some decl)
    (howns : symbols.owns unit [number] (e.tree.binaryName decl) = true) :
    r.AnalysesOnce unit number := by
  have htype : typeSymbol e.tree number =
      some ⟨number, qualifiedName (e.tree.binaryName decl), e.tree.binaryName decl⟩ := by
    rw [typeSymbol, hdecl]
    rfl
  have hmem : (unit, number) ∈ r.keys := by
    rw [h.queue]
    have haccepted (h : symbols.owns (0 + unit) [number] (e.tree.binaryName decl) = true) :=
      SymbolTable.mem_accepted_of_owns he htype h
    rw [Nat.zero_add] at haccepted
    exact haccepted howns
  have hnodup : r.keys.Nodup := h.queue ▸ symbols.nodup_accepted 0 (entries r.readings)
  have hkey {i : Nat} {a : ClassAnalysis} (ha : r.analyses[i]? = some a) :
      r.keys[i]? = some (QueuedClass.key a.cls) := by
    rw [keys, List.getElem?_map, ha, Option.map_some]
  obtain ⟨a, hmem, hcls⟩ := List.mem_map.mp hmem
  obtain ⟨i, ha⟩ := List.mem_iff_getElem?.mp hmem
  refine ⟨i, a, ha, hcls, h.stands i a ha, fun j b hb hcls' => ?_⟩
  have hj := hkey hb
  rw [hcls', ← hcls] at hj
  exact (List.getElem?_inj (List.getElem?_eq_some_iff.mp hj).1 hnodup).mp (hj.trans (hkey ha).symm)

end TaskTrace

end ProbeLang
