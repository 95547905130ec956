import ProbeLang.Analysis.Completion
import ProbeLang.Proofs.Table

/-!
# Sessions only grow

Reading and analysing classes changes a session in few ways: diagnostics are reported, units and
symbols are added behind those that are there, and the symbols of classes are completed. Nothing
that has been entered is lost, and the files, the options and the listener stay what they are. All
this holds of every step, also of one that ends with a fault.
-/

namespace ProbeLang

/-! ## Logs -/

namespace Log

theorem errors_le_report (log : Log) (d : Diagnostic) : log.errors ≤ (log.report d).errors := by
  unfold report
  dsimp only
  split <;> omega

theorem errors_le_reportAll (ds : List Diagnostic) (log : Log) :
    log.errors ≤ (log.reportAll ds).errors := by
  induction ds generalizing log with
  | nil => exact Nat.le_refl _
  | cons d ds ih => exact Nat.le_trans (log.errors_le_report d) (ih (log.report d))

theorem reportAll_singleton (log : Log) (d : Diagnostic) : log.reportAll [d] = log.report d := rfl

/-- Whether no error is among the diagnostics. -/
def Clean (log : Log) : Prop :=
  ∀ d ∈ log.diagnostics, d.severity ≠ .error

instance (log : Log) : Decidable log.Clean :=
  inferInstanceAs (Decidable (∀ d ∈ log.diagnostics, d.severity ≠ .error))

theorem diagnostics_reportAll (ds : List Diagnostic) (log : Log) :
    (log.reportAll ds).diagnostics = log.diagnostics ++ ds := by
  induction ds generalizing log with
  | nil => exact (List.append_nil _).symm
  | cons d ds ih =>
      refine (ih (log.report d)).trans ?_
      simp [diagnostics, report]

/-- As errors are counted when they are reported, none are counted if there are none. -/
theorem errors_reportAll (ds : List Diagnostic) (log : Log) :
    (log.reportAll ds).errors = log.errors + ds.countP (·.severity = .error) := by
  induction ds generalizing log with
  | nil => rfl
  | cons d ds ih =>
      refine (ih (log.report d)).trans ?_
      rw [List.countP_cons, report]
      by_cases hd : d.severity = .error
      · simp only [hd, if_true, decide_true]
        omega
      · simp only [hd, if_false, decide_false, Bool.false_eq_true, Nat.add_zero]

theorem warnings_reportAll (ds : List Diagnostic) (log : Log) :
    (log.reportAll ds).warnings = log.warnings + ds.countP (·.severity = .warning) := by
  induction ds generalizing log with
  | nil => rfl
  | cons d ds ih =>
      refine (ih (log.report d)).trans ?_
      rw [List.countP_cons, report]
      by_cases hd : d.severity = .warning
      · simp only [hd, if_true, decide_true]
        omega
      · simp only [hd, if_false, decide_false, Bool.false_eq_true, Nat.add_zero]

theorem clean_iff {log : Log} (h : ∃ ds, log = empty.reportAll ds) :
    log.errors = 0 ↔ log.Clean := by
  obtain ⟨ds, rfl⟩ := h
  rw [errors_reportAll, Clean, diagnostics_reportAll]
  show 0 + _ = 0 ↔ ∀ d ∈ [] ++ ds, _
  rw [Nat.zero_add, List.nil_append, List.countP_eq_zero]
  simp only [decide_eq_true_eq, ne_eq]

end Log

/-! ## Symbols -/

/-- The symbol as it was before the class was completed. -/
def ClassSymbol.entered (c : ClassSymbol) : ClassSymbol :=
  { c with superclass := none, fields := [], methods := [], completed := false }

theorem ClassSymbol.isSource_eq_true {c : ClassSymbol} :
    c.isSource = true ↔ ∃ unit place, c.origin = .source unit place := by
  unfold isSource
  cases c.origin <;> simp

/-- Completing a class does not change whether it is from source. -/
@[simp] theorem ClassSymbol.isSource_entered (c : ClassSymbol) : c.entered.isSource = c.isSource :=
  rfl

namespace SymbolTable

/-- The symbols as they were before their classes were completed. -/
def entered (t : SymbolTable) : SymbolTable :=
  t.map fun (name, c) => (name, c.entered)

theorem find?_entered (t : SymbolTable) (name : String) :
    t.entered.find? name = (t.find? name).map ClassSymbol.entered :=
  Table.find?_map t ClassSymbol.entered name

theorem entered_modify (t : SymbolTable) (cls : String) (f : ClassSymbol → ClassSymbol)
    (hf : ∀ c, (f c).entered = c.entered) :
    SymbolTable.entered (t.modify cls f) = SymbolTable.entered t := by
  unfold SymbolTable.entered Table.modify
  rw [List.map_map]
  refine List.map_congr_left fun p _ => ?_
  simp only [Function.comp]
  split
  · rw [hf]
  · rfl

/-- What has been entered is still there in a table that begins with the same symbols. -/
theorem find?_of_entered_prefix {t u : SymbolTable} (h : t.entered <+: u.entered)
    {name : String} {c : ClassSymbol} (hc : t.find? name = some c) :
    ∃ c', u.find? name = some c' ∧ c'.entered = c.entered := by
  obtain ⟨more, hmore⟩ := h
  have hfound : u.entered.find? name = some c.entered := by
    rw [← hmore, Table.find?_append, find?_entered, hc]
    rfl
  rw [find?_entered] at hfound
  exact Option.map_eq_some_iff.mp hfound

end SymbolTable

/-! ## Sessions -/

namespace Session

variable {σ : Type}

/-- Whether a class is known from source. -/
def FromSource (s : Session σ) (cls : String) : Prop :=
  ∃ c, s.symbols.find? cls = some c ∧ c.isSource = true

/-- Whether a session goes on from another. -/
structure Extends (s t : Session σ) : Prop where
  options : t.options = s.options
  files : t.files = s.files
  listener : t.listener = s.listener
  called : t.called = s.called
  outputs : t.outputs = s.outputs
  store : t.store.takeDeferred.2 = s.store.takeDeferred.2
  log : ∃ ds, t.log = s.log.reportAll ds
  sources : s.sources <+: t.sources
  uris : s.loaded ⊆ t.loaded
  symbols : s.symbols.entered <+: t.symbols.entered
  superclasses : ∀ {name : String} {c : ClassSymbol}, s.symbols.find? name = some c →
    c.superclass.isSome = true →
      ∃ c', t.symbols.find? name = some c' ∧ c'.superclass.isSome = true
  completed : ∀ {name : String} {c : ClassSymbol}, s.symbols.find? name = some c →
    c.completed = true → ∃ c', t.symbols.find? name = some c' ∧ c'.completed = true
  others : ∀ {name : String} {c : ClassSymbol}, s.symbols.find? name = some c →
    c.isSource = false → t.symbols.find? name = some c

namespace Extends

variable {s t u : Session σ}

@[refl] theorem refl (s : Session σ) : s.Extends s :=
  ⟨rfl, rfl, rfl, rfl, rfl, rfl, ⟨[], rfl⟩, List.prefix_refl _, List.Subset.refl _,
    List.prefix_refl _,
    fun hc hsuper => ⟨_, hc, hsuper⟩, fun hc hcompleted => ⟨_, hc, hcompleted⟩, fun hc _ => hc⟩

theorem trans (h : s.Extends t) (h' : t.Extends u) : s.Extends u where
  options := h'.options.trans h.options
  files := h'.files.trans h.files
  listener := h'.listener.trans h.listener
  called := h'.called.trans h.called
  outputs := h'.outputs.trans h.outputs
  store := h'.store.trans h.store
  log := by
    obtain ⟨ds, hds⟩ := h.log
    obtain ⟨ds', hds'⟩ := h'.log
    exact ⟨ds ++ ds', by rw [hds', hds, Log.reportAll_append]⟩
  sources := List.IsPrefix.trans h.sources h'.sources
  uris := List.Subset.trans h.uris h'.uris
  symbols := List.IsPrefix.trans h.symbols h'.symbols
  superclasses hc hsuper :=
    have ⟨_, hc', hsuper'⟩ := h.superclasses hc hsuper
    h'.superclasses hc' hsuper'
  completed hc hcompleted :=
    have ⟨_, hc', hcompleted'⟩ := h.completed hc hcompleted
    h'.completed hc' hcompleted'
  others hc hsource := h'.others (h.others hc hsource) hsource

/-- A session with more symbols. -/
theorem of_isPrefix {symbols : SymbolTable} (h : s.symbols <+: symbols) :
    s.Extends { s with symbols := symbols } := by
  have hfind {name : String} {c : ClassSymbol} (hc : s.symbols.find? name = some c) :
      symbols.find? name = some c := by
    obtain ⟨more, rfl⟩ := h
    rw [Table.find?_append, hc, Option.some_or]
  exact { refl s with
    symbols := List.IsPrefix.map _ h
    superclasses := fun hc hsuper => ⟨_, hfind hc, hsuper⟩
    completed := fun hc hcompleted => ⟨_, hfind hc, hcompleted⟩
    others := fun hc _ => hfind hc }

/-- A session in which the symbol of a class from source is changed, but not how it was entered. -/
theorem of_modify {cls : String} {f : ClassSymbol → ClassSymbol} (hcls : s.FromSource cls)
    (hf : ∀ c, (f c).entered = c.entered)
    (hsuper : ∀ c, c.superclass.isSome = true → (f c).superclass.isSome = true)
    (hcompleted : ∀ c, c.completed = true → (f c).completed = true) :
    s.Extends { s with symbols := s.symbols.modify cls f } := by
  have hfind {name : String} {c : ClassSymbol} (hc : s.symbols.find? name = some c) :
      (s.symbols.modify cls f).find? name = some (f c) ∨
        (s.symbols.modify cls f).find? name = some c := by
    rw [Table.find?_modify]
    split
    · exact .inl (by rw [hc, Option.map_some])
    · exact .inr hc
  exact { refl s with
    symbols := SymbolTable.entered_modify s.symbols cls f hf ▸ List.prefix_refl _
    superclasses := fun {_ c} hc h =>
      (hfind hc).elim (fun hc' => ⟨f c, hc', hsuper c h⟩) fun hc' => ⟨c, hc', h⟩
    completed := fun {_ c} hc h =>
      (hfind hc).elim (fun hc' => ⟨f c, hc', hcompleted c h⟩) fun hc' => ⟨c, hc', h⟩
    others := fun {name c} hc hsource => by
      have hname : name ≠ cls := by
        rintro rfl
        obtain ⟨c', hc', hsource'⟩ := hcls
        rw [hc] at hc'
        cases hc'
        rw [hsource] at hsource'
        cases hsource'
      rw [Table.find?_modify, if_neg hname, hc] }

theorem errors_le (h : s.Extends t) : s.log.errors ≤ t.log.errors := by
  obtain ⟨ds, hds⟩ := h.log
  rw [hds]
  exact Log.errors_le_reportAll ds s.log

theorem find? (h : s.Extends t) {name : String} {c : ClassSymbol}
    (hc : s.symbols.find? name = some c) :
    ∃ c', t.symbols.find? name = some c' ∧ c'.entered = c.entered :=
  SymbolTable.find?_of_entered_prefix h.symbols hc

/-- A class that is known stays known. -/
theorem has (h : s.Extends t) {name : String} (hname : s.symbols.has name = true) :
    t.symbols.has name = true := by
  obtain ⟨c, hc⟩ := Table.has_eq_true.mp hname
  obtain ⟨c', hc', -⟩ := h.find? hc
  exact Table.has_eq_true.mpr ⟨c', hc'⟩

theorem source (h : s.Extends t) {unit : Nat} {e : SourceEntry} (he : s.sources[unit]? = some e) :
    t.sources[unit]? = some e := by
  obtain ⟨more, hmore⟩ := h.sources
  rw [← hmore]
  exact List.getElem?_append_left (List.getElem?_eq_some_iff.mp he).1 ▸ he

theorem searchPath (h : s.Extends t) : t.store.searchPath = s.store.searchPath := by
  have hpath (store : UnitStore) : store.takeDeferred.2.searchPath = store.searchPath := by
    unfold UnitStore.takeDeferred UnitStore.searchPath
    cases store.memory <;> rfl
  rw [← hpath, h.store, hpath]

theorem locations (h : s.Extends t) : t.store.locations = s.store.locations :=
  show t.store.takeDeferred.2.locations = s.store.takeDeferred.2.locations by rw [h.store]

/-- The classes that may be found in source stay the same. -/
theorem loadable (h : s.Extends t) : t.loadable = s.loadable := by
  have hdirs : t.store.classDirs = s.store.classDirs := by
    unfold UnitStore.classDirs
    rw [h.locations]
  have htext (content : Bytes) :
      t.store.sourceText? t.files content = s.store.sourceText? s.files content := by
    unfold UnitStore.sourceText?
    rw [h.searchPath, h.files]
  have hdeclared (e : Entry) : t.store.declaredIn t.files e = s.store.declaredIn s.files e := by
    unfold UnitStore.declaredIn
    cases e with
    | dir => rfl
    | file content => dsimp only; rw [htext]
  unfold Session.loadable
  rw [hdirs, h.files]
  split
  · rfl
  · simp only [← h.files, hdeclared]

end Extends

theorem FromSource.of_extends {s t : Session σ} {cls : String} (h : s.FromSource cls)
    (hst : s.Extends t) : t.FromSource cls := by
  obtain ⟨c, hc, hsource⟩ := h
  obtain ⟨c', hc', hentered⟩ := hst.find? hc
  refine ⟨c', hc', ?_⟩
  rw [← c'.isSource_entered, hentered, c.isSource_entered, hsource]

end Session

/-- Whether the tree of a unit is that of its text. -/
def SourceEntry.Parsed (files : FileTree) (e : SourceEntry) : Prop :=
  ∃ text, e.unit.content files = .ok text ∧ UnitTree.parse e.unit.name text = .ok e.tree

/-- Whether a unit has been loaded: it has been parsed, and files declare its classes. -/
structure SourceEntry.Loaded {σ : Type} (s : Session σ) (e : SourceEntry) : Prop where
  parsed : e.Parsed s.files
  loadable : e.tree.binaryNames ⊆ s.loadable

theorem SourceEntry.Loaded.of_extends {σ : Type} {s t : Session σ} {e : SourceEntry}
    (h : e.Loaded s) (hst : s.Extends t) : e.Loaded t :=
  ⟨hst.files ▸ h.parsed, by rw [hst.loadable]; exact h.loadable⟩

namespace Session

variable {σ : Type} {s t u : Session σ}

/-- Whether a session goes on from another with nothing but loaded units. -/
structure Grows (s t : Session σ) : Prop extends s.Extends t where
  loaded : ∀ e ∈ t.sources.drop s.sources.length, e.Loaded s

namespace Grows

@[refl] theorem refl (s : Session σ) : s.Grows s :=
  ⟨.refl s, by simp⟩

theorem trans (h : s.Grows t) (h' : t.Grows u) : s.Grows u := by
  refine ⟨h.toExtends.trans h'.toExtends, fun e he => ?_⟩
  obtain ⟨more, hmore⟩ := h.sources
  obtain ⟨more', hmore'⟩ := h'.sources
  rw [← hmore', ← hmore, List.append_assoc, List.drop_left] at he
  rcases List.mem_append.mp he with he | he
  · exact h.loaded e (by rwa [← hmore, List.drop_left])
  · have hloaded := h'.loaded e (by rwa [← hmore', List.drop_left])
    exact ⟨h.files ▸ hloaded.parsed, h.loadable ▸ hloaded.loadable⟩

/-- A session that goes on from another with no more units. -/
theorem of_extends (h : s.Extends t) (hs : t.sources = s.sources) : s.Grows t :=
  ⟨h, by simp [hs]⟩

end Grows

end Session

end ProbeLang
