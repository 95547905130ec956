import ProbeLang.Proofs.Session.Loading
import ProbeLang.Proofs.Session.Moves
import ProbeLang.Proofs.Session.Notices

/-!
# Classes that become known

Reading units and looking for classes adds symbols with new names, however it ends. A class that is
looked for comes from a file, so its name is one of those that the files of the task can give. When
a unit is entered, a top-level class whose name is free gets a symbol of its own; the others are
reported.
-/

namespace ProbeLang

/-- Whether a name belongs to the declaration at a place. -/
def SymbolTable.owns (t : SymbolTable) (unit : Nat) (place : List Nat) (cls : String) : Bool :=
  (t.find? cls).map ClassSymbol.origin == some (.source unit place)

/-- A name that is known belongs to the same class in a table with more symbols. -/
theorem SymbolTable.owns_of_entered_prefix {t u : SymbolTable} (h : t.entered <+: u.entered)
    {cls : String} (hcls : t.has cls = true) (unit : Nat) (place : List Nat) :
    u.owns unit place cls = t.owns unit place cls := by
  obtain ⟨c, hc⟩ := Table.has_eq_true.mp hcls
  obtain ⟨c', hc', hentered⟩ := find?_of_entered_prefix h hc
  have horigin : c'.origin = c.origin := congrArg (fun c => c.origin) hentered
  rw [owns, owns, hc, hc', Option.map_some, Option.map_some, horigin]

/-! ## What files can give -/

/-- The name of the class in an artifact. -/
def Entry.artifactName? : Entry → Option String
  | .dir => none
  | .file content => (ClassFile.decode content).toOption.map ClassFile.name

/-- The classes whose artifacts may be found while a task runs. -/
def Session.artifactNames {σ : Type} (s : Session σ) : List String :=
  s.artifactFiles.filterMap fun p => p.2.artifactName?

/-- The classes that may be found while a task runs. -/
def Session.findable {σ : Type} (s : Session σ) : List String :=
  s.loadable ++ s.artifactNames

/-- An artifact on the class path is that of a file. -/
theorem UnitStore.eq_ofFile_of_input {store : UnitStore} {files : FileTree} {name : String}
    {unit : CompilationUnit}
    (h : (store.input files .classPath name .artifact).1 = .ok (some unit)) :
    (∃ path, unit = .ofFile files path .artifact) ∧ store.locations.searchDirs .classPath ≠ [] := by
  unfold UnitStore.input at h
  cases hfind : store.findInput files .classPath name .artifact with
  | none =>
      rw [hfind] at h
      cases h
  | some found =>
      obtain ⟨path, hpath, rfl⟩ := Option.map_eq_some_iff.mp hfind
      have hunit : unit = .ofFile files path .artifact := by
        rw [hfind] at h
        cases hmemory : store.memory with
        | none =>
            rw [hmemory] at h
            cases h
            rfl
        | some memory =>
            rw [hmemory] at h
            cases h
            rfl
      refine ⟨⟨path, hunit⟩, fun hnil => ?_⟩
      rw [hnil] at hpath
      cases hpath

namespace Session

variable {σ : Type} {s t u : Session σ} {P P' : ClassSymbol → Prop}
  {queue queue' : List (Nat × Nat)} {ns ns' : List Notice}

/-- No more classes can become known than the bound of a session allows for. -/
theorem length_findable_lt (s : Session σ) :
    s.symbols.length + s.findable.length < s.classBound := by
  have hartifacts : s.artifactNames.length ≤ s.artifactFiles.length :=
    List.length_filterMap_le _ _
  rw [findable, List.length_append, classBound]
  omega

theorem Extends.findable (h : s.Extends t) : t.findable = s.findable := by
  have hdirs : t.store.classDirs = s.store.classDirs := by
    unfold UnitStore.classDirs
    rw [h.locations]
  unfold Session.findable Session.artifactNames Session.artifactFiles
  rw [h.loadable, hdirs, h.files]

/-- The class in an artifact from the class path is one that files can give. -/
theorem mem_artifactNames {name : String} {unit : CompilationUnit} {bytes : Bytes} {c : ClassFile}
    (hinput : (s.store.input s.files .classPath name .artifact).1 = .ok (some unit))
    (hbytes : unit.bytes s.files = .ok bytes) (hdecode : ClassFile.decode bytes = .ok c) :
    c.name ∈ s.artifactNames := by
  obtain ⟨⟨path, rfl⟩, hdirs⟩ := UnitStore.eq_ofFile_of_input hinput
  obtain ⟨key, hkey⟩ :=
    FileTree.mem_entries_of_read (show s.files.read path = .ok bytes from hbytes)
  have hfiles : s.artifactFiles = s.files.entries := by
    unfold artifactFiles UnitStore.classDirs
    split
    · next hnil => exact absurd (List.append_eq_nil_iff.mp hnil).2 hdirs
    · rfl
  refine List.mem_filterMap.mpr ⟨(key, .file bytes), hfiles ▸ hkey, ?_⟩
  simp only [Entry.artifactName?, hdecode, Except.toOption, Option.map_some]

/-! ## Relations -/

/-- Whether nothing has happened to a session but that its listener has been told some notices and
diagnostics have been reported. -/
structure Told (s : Session σ) (ns : List Notice) (t : Session σ) : Prop extends s.Extends t where
  same : t.symbols = s.symbols
  units : t.sources = s.sources
  todo : t.todo = s.todo
  tells : s.Tells ns t

theorem Told.refl (s : Session σ) : s.Told [] s :=
  ⟨.refl s, rfl, rfl, rfl, .refl s⟩

theorem Told.trans (h : s.Told ns t) (h' : t.Told ns' u) : s.Told (ns ++ ns') u where
  toExtends := h.toExtends.trans h'.toExtends
  same := h'.same.trans h.same
  units := h'.units.trans h.units
  todo := h'.todo.trans h.todo
  tells := h.tells.trans h'.tells

/-- Whether nothing has happened to a session but that diagnostics have been reported. -/
abbrev Silent (s t : Session σ) : Prop :=
  s.Told [] t

instance : IsPreorder (Session σ) Silent where
  refl := Told.refl
  trans _ _ _ := Told.trans

/-- Whether nothing has happened to a session but that diagnostics have been reported, not even that
its store remembers a fault. -/
def Quiet (s t : Session σ) : Prop :=
  s.Silent t ∧ t.store = s.store

instance : IsPreorder (Session σ) Quiet where
  refl s := ⟨.refl s, rfl⟩
  trans _ _ _ h h' := ⟨h.1.trans h'.1, h'.2.trans h.2⟩

/-- Whether a session has the symbols of another and behind them more, of which `P` holds, and more
classes in its queue, while nobody has been told anything. -/
structure Adds (P : ClassSymbol → Prop) (queue : List (Nat × Nat)) (s t : Session σ) : Prop
    extends s.Extends t where
  more : ∃ more : SymbolTable, t.symbols = s.symbols ++ more ∧
    ∀ p ∈ more, p.2.binary = p.1 ∧ P p.2
  units : t.sources = s.sources
  todo : t.todo = s.todo ++ queue
  tells : s.Tells [] t

namespace Adds

theorem of_silent (h : s.Silent t) : Adds P [] s t where
  toExtends := h.toExtends
  more := ⟨[], by rw [h.same, List.append_nil], List.forall_mem_nil _⟩
  units := h.units
  todo := by rw [h.todo, List.append_nil]
  tells := h.tells

theorem trans (h : Adds P queue s t) (h' : Adds P queue' t u) : Adds P (queue ++ queue') s u where
  toExtends := h.toExtends.trans h'.toExtends
  more := by
    obtain ⟨more, ht, hmore⟩ := h.more
    obtain ⟨more', hu, hmore'⟩ := h'.more
    exact ⟨more ++ more', by rw [hu, ht, List.append_assoc],
      List.forall_mem_append.mpr ⟨hmore, hmore'⟩⟩
  units := h'.units.trans h.units
  todo := by rw [h'.todo, h.todo, List.append_assoc]
  tells := h.tells.trans h'.tells

theorem mono (h : Adds P queue s t) (hP : ∀ c, P c → P' c) : Adds P' queue s t :=
  { h with
    more := by
      obtain ⟨more, ht, hmore⟩ := h.more
      exact ⟨more, ht, fun p hp => ⟨(hmore p hp).1, hP _ (hmore p hp).2⟩⟩ }

theorem names_subset {names : List String} (h : Adds P queue s t)
    (hP : ∀ c, P c → c.binary ∈ names) :
    t.symbols.names ⊆ s.symbols.names ++ names := by
  obtain ⟨more, ht, hmore⟩ := h.more
  rw [ht, Table.names, List.map_append]
  refine List.append_subset.mpr ⟨List.subset_append_left _ _, fun name hname => ?_⟩
  obtain ⟨p, hp, rfl⟩ := List.mem_map.mp hname
  obtain ⟨hbinary, hc⟩ := hmore p hp
  exact List.mem_append_right _ (hbinary ▸ hP _ hc)

/-- A symbol may be added under a name that is free. -/
theorem insert {c : ClassSymbol} {symbols : SymbolTable} (hins : s.symbols.insert? c = some symbols)
    (hc : P c) : Adds P [] s { s with symbols } := by
  have hext : s.Extends { s with symbols } := .of_isPrefix (SessionM.prefix_insert hins)
  unfold SymbolTable.insert? at hins
  split at hins
  · cases hins
  · cases hins
    exact ⟨hext, ⟨_, rfl, List.forall_mem_singleton.mpr ⟨rfl, hc⟩⟩, rfl,
      (List.append_nil _).symm, .of_log rfl rfl rfl ⟨[], rfl⟩⟩

end Adds

instance : IsPreorder (Session σ) (Adds P []) where
  refl _ := .of_silent (.refl _)
  trans _ _ _ := Adds.trans

end Session

/-! ## Classes below a place -/

/-- Whether a symbol has one of some names and is that of a class at or below a place of a unit. -/
def ClassSymbol.Below (names : List String) (unit : Nat) (place : List Nat)
    (c : ClassSymbol) : Prop :=
  c.binary ∈ names ∧ ∃ place', c.origin = .source unit place' ∧ place <+: place'

mutual

theorem ClassDecl.length_le_of_mem_binaryNames : ∀ (c : ClassDecl) {binary name : String},
    name ∈ c.binaryNames binary → binary.length ≤ name.length
  | ⟨_, _, _, members, _⟩, binary, name, h => by
      rcases List.mem_cons.mp h with rfl | h
      · exact Nat.le_refl _
      · exact Nat.le_of_lt (Member.length_lt_of_mem_binaryNames members h)

theorem Member.length_lt_of_mem_binaryNames : ∀ (members : List Member) {binary name : String},
    name ∈ Member.binaryNames binary members → binary.length < name.length
  | .field _ :: rest, _, _, h => Member.length_lt_of_mem_binaryNames rest h
  | .method _ :: rest, _, _, h => Member.length_lt_of_mem_binaryNames rest h
  | .type decl :: rest, binary, name, h => by
      rcases List.mem_append.mp h with h | h
      · have hle := decl.length_le_of_mem_binaryNames h
        simp only [String.length_append, show "$".length = 1 from rfl] at hle
        omega
      · exact Member.length_lt_of_mem_binaryNames rest h

end

/-- The symbols of the classes that are declared in a class stand below its place. -/
theorem ClassDecl.below_declared (c : ClassDecl) (unit : Nat) (package outer : Option String)
    (place : List Nat) (binary : String) :
    ∀ d ∈ c.declared unit package outer place binary, ∀ types,
      ClassSymbol.Below (c.binaryNames binary) unit place { d.symbol with members := types } := by
  intro d hd types
  obtain ⟨path, hplace, -, hunit⟩ := c.at?_of_mem_declared hd
  refine ⟨?_, d.place, ?_, hplace ▸ List.prefix_append _ _⟩
  · have hnames : (c.declared unit package outer place binary).map DeclaredClass.binary =
        c.binaryNames binary := c.binary_declared
    exact hnames ▸ List.mem_map_of_mem hd
  · rw [← hunit]
    rfl

theorem Member.below_declared (members : List Member) {unit : Nat} {package : Option String}
    {place : List Nat} {binary : String} {i : Nat} :
    ∀ d ∈ Member.declared unit package place binary i members, ∀ types,
      ClassSymbol.Below (Member.binaryNames binary members) unit place
        { d.symbol with members := types } := by
  intro d hd types
  obtain ⟨k, path, decl, hplace, -, -, hunit⟩ := Member.at?_of_mem_declared members hd
  refine ⟨?_, d.place, ?_, hplace ▸ List.prefix_append _ _⟩
  · exact Member.binary_declared members ▸ List.mem_map_of_mem hd
  · rw [← hunit]
    rfl

namespace SessionM

open Session

variable {σ α : Type} {s t : Session σ} {T : TaskFault → Session σ → Session σ → Prop}
  {m : SessionM σ α}

/-- A step that meets no fault ends with an answer. -/
theorem Moves.ends {R : Session σ → Session σ → Prop} {Q : α → Session σ → Prop}
    (h : Moves R (fun _ _ _ => False) s m Q) : ∃ a t, m.run.run s = (.ok a, t) ∧ R s t ∧ Q a t := by
  rcases hrun : m.run.run s with ⟨e | a, t⟩
  · obtain ⟨_, -, hfalse⟩ := h.faults hrun
    exact hfalse.elim
  · exact ⟨a, t, rfl, h.answers hrun⟩

/-! ## Steps that leave the symbols alone -/

theorem silent_of_log {log : Log} (h : ∃ ds, log = s.log.reportAll ds) :
    s.Silent { s with log := log } :=
  ⟨{ Extends.refl s with log := h }, rfl, rfl, rfl, .of_log rfl rfl rfl h⟩

theorem quiet_report (d : Diagnostic) : Moves Quiet T s (report d) fun _ _ => True :=
  .of_run_ok rfl ⟨silent_of_log ⟨[d], rfl⟩, rfl⟩ trivial

theorem quiet_problem (source : String) (pos : Pos) (p : Problem) :
    Moves Quiet T s (problem source pos p) fun _ _ => True :=
  quiet_report _

theorem quiet_advise (source : String) (pos : Pos) (a : Advice) :
    Moves Quiet T s (advise source pos a) fun _ _ => True :=
  quiet_report _

theorem told_told (s : Session σ) (n : Notice) : s.Told [n] (told s n) := by
  have hlog : ∃ ds, (told s n).log = s.log.reportAll ds := by
    unfold told
    split
    · exact ⟨[], rfl⟩
    · next l _ =>
        cases n with
        | started e => exact l.started_reports e s.state s.log
        | finished e => exact l.finished_reports e s.state s.log
  have hrest : told s n = { s with state := (told s n).state, log := (told s n).log } := by
    unfold told
    split <;> rfl
  refine ⟨?_, ?_, ?_, ?_, tells_told s n⟩
  · rw [hrest]
    exact { Extends.refl s with log := hlog }
  all_goals rw [hrest]

/-! ## Entering -/

/-- What is told of a unit that is entered. -/
def enterEvent (unit : CompilationUnit) (tree : UnitTree) : TaskEvent where
  phase := .enter
  source := unit.name
  unit := some tree

/-- The session with a unit whose classes have not been entered. -/
def opened (s : Session σ) (unit : CompilationUnit) (tree : UnitTree) : Session σ :=
  { s with loaded := unit.uri :: s.loaded, sources := s.sources ++ [⟨unit, tree⟩] }

theorem sources_opened (s : Session σ) (unit : CompilationUnit) (tree : UnitTree) :
    (opened s unit tree).sources = s.sources ++ [⟨unit, tree⟩] :=
  rfl

theorem extends_opened (s : Session σ) (unit : CompilationUnit) (tree : UnitTree) :
    s.Extends (opened s unit tree) :=
  { Extends.refl s with
    sources := List.prefix_append _ _
    uris := List.subset_cons_self _ _ }

/-- Between what is told of a unit its top-level classes are entered. -/
theorem run_enter_eq {unit : CompilationUnit} {tree : UnitTree}
    (h : (enterTypes ⟨s.sources.length, tree.source, tree.packageName?⟩ tree 0 tree.types).run.run
      (told (opened s unit tree) (.started (enterEvent unit tree))) = (.ok (), t)) :
    (enter unit tree).run.run s = (.ok (), told t (.finished (enterEvent unit tree))) := by
  unfold enter
  rw [run_get_bind, run_bind_ok (run_modify s _), run_bind_ok (run_started_eq _ _)]
  exact (run_bind_ok h).trans (run_finished_eq t _)

variable {P : ClassSymbol → Prop}

theorem adds_problem (source : String) (pos : Pos) (p : Problem) :
    Moves (Adds P []) T s (problem source pos p) fun _ _ => True :=
  (quiet_problem source pos p).rel fun h => .of_silent h.1

theorem adds_enterSymbol (u : Entering) (pos : Pos) {c : ClassSymbol} (hc : P c) :
    Moves (Adds P []) T s (enterSymbol u pos c) fun _ _ => True := by
  refine .get ?_
  split
  · next symbols hins => exact .of_run_ok rfl (.insert hins hc) trivial
  · exact adds_problem _ _ _

mutual

/-- Entering a class adds no symbols but those of the classes that it declares, with some of the
member types or all. -/
theorem adds_enterClass : ∀ (c : ClassDecl) {s : Session σ} (u : Entering) (binary : String)
    (outer : Option String) (place : List Nat),
    (∀ d ∈ c.declared u.unit u.package outer place binary, ∀ types,
      P { d.symbol with members := types }) →
    Moves (Adds P []) T s (enterClass u binary outer place c) fun _ _ => True
  | ⟨name, modifiers, superclass, members, pos⟩, s, u, binary, outer, place, h => by
      obtain ⟨hself, hmembers⟩ := List.forall_mem_cons.mp h
      refine (adds_enterMembers members u binary name.name place 0 [] hmembers).bind
        fun types t _ _ => ?_
      exact adds_enterSymbol u pos (hself types)

theorem adds_enterMembers : ∀ (members : List Member) {s : Session σ} (u : Entering)
    (binary simple : String) (place : List Nat) (i : Nat) (types : Table String),
    (∀ d ∈ Member.declared u.unit u.package place binary i members, ∀ types,
      P { d.symbol with members := types }) →
    Moves (Adds P []) T s (enterMembers u binary simple place i types members) fun _ _ => True
  | [], s, u, binary, simple, place, i, types, _ => .pure trivial
  | .field _ :: rest, s, u, binary, simple, place, i, types, h =>
      adds_enterMembers rest u binary simple place (i + 1) types h
  | .method _ :: rest, s, u, binary, simple, place, i, types, h =>
      adds_enterMembers rest u binary simple place (i + 1) types h
  | .type decl :: rest, s, u, binary, simple, place, i, types, h => by
      obtain ⟨hdecl, hrest⟩ := List.forall_mem_append.mp h
      unfold enterMembers
      dsimp only
      split
      · refine (adds_problem _ _ _).bind fun _ _ _ _ => ?_
        exact adds_enterMembers rest u binary simple place (i + 1) types hrest
      · refine (adds_enterClass decl u _ _ _ hdecl).bind fun _ _ _ _ => ?_
        exact adds_enterMembers rest u binary simple place (i + 1) _ hrest

end

/-- Entering the top-level classes of a unit adds no symbols but those of the classes that it
declares. -/
theorem adds_enterTypes (u : Entering) (tree : UnitTree) (hpackage : u.package = tree.packageName?) :
    ∀ (i : Nat) (decls : List ClassDecl) {s : Session σ},
      (∀ d ∈ tree.declaredFrom u.unit i decls, ∀ types, P { d.symbol with members := types }) →
      ∃ t queue, (enterTypes u tree i decls).run.run s = (.ok (), t) ∧ s.Adds P queue t
  | _, [], s, _ => ⟨s, [], rfl, refl_of (Adds P []) s⟩
  | i, decl :: rest, s, h => by
      obtain ⟨hdecl, hrest⟩ := List.forall_mem_append.mp h
      unfold enterTypes
      dsimp only
      rw [run_get_bind]
      split
      · obtain ⟨⟨⟩, t, hrun, hst, -⟩ := Moves.ends
          (adds_problem (P := P) (s := s) u.source decl.pos (.duplicateClass (tree.binaryName decl)))
        obtain ⟨v, queue, hrun', htv⟩ := adds_enterTypes u tree hpackage (i + 1) rest (s := t) hrest
        exact ⟨v, _, (run_bind_ok hrun).trans hrun', hst.trans htv⟩
      · obtain ⟨⟨⟩, t, hrun, hst, -⟩ := Moves.ends
          (adds_enterClass (P := P) decl (s := s) u (tree.binaryName decl) none [i]
            (hpackage ▸ hdecl))
        have hqueue : t.Adds P [(u.unit, i)] { t with todo := t.todo ++ [(u.unit, i)] } :=
          ⟨{ Extends.refl t with }, ⟨[], (List.append_nil _).symm, List.forall_mem_nil _⟩, rfl, rfl,
            .of_log rfl rfl rfl ⟨[], rfl⟩⟩
        obtain ⟨v, queue, hrun', htv⟩ := adds_enterTypes u tree hpackage (i + 1) rest hrest
        refine ⟨v, _, ?_, (hst.trans hqueue).trans htv⟩
        rw [run_bind_ok hrun, run_bind_ok (run_modify t _), hrun']

/-- A class whose name is free owns it once it has been entered: the classes in it have longer
names. -/
theorem owns_enterClass (c : ClassDecl) (u : Entering) {binary : String} (outer : Option String)
    (place : List Nat) (hfree : s.symbols.has binary = false) :
    Moves (Adds (ClassSymbol.Below (c.binaryNames binary) u.unit place) []) T s
      (enterClass u binary outer place c) fun _ t => t.symbols.owns u.unit place binary = true := by
  obtain ⟨name, modifiers, superclass, members, pos⟩ := c
  obtain ⟨hself, hbelow⟩ := List.forall_mem_cons.mp (ClassDecl.below_declared
    ⟨name, modifiers, superclass, members, pos⟩ u.unit u.package outer place binary)
  refine Moves.bind_run (adds_enterMembers members u binary name.name place 0 [] hbelow)
    fun types t hrun _ _ => ?_
  have hadds : Adds (ClassSymbol.Below (Member.binaryNames binary members) u.unit place) [] s t :=
    ((adds_enterMembers (T := fun _ _ _ => False) members u binary name.name place 0 []
      (Member.below_declared members)).answers hrun).1
  have hfree' : t.symbols.has binary = false := by
    refine Bool.eq_false_iff.mpr fun hhas => ?_
    have hmem := hadds.names_subset (fun _ h => h.1) (Table.has_iff_mem_names.mp hhas)
    rcases List.mem_append.mp hmem with h | h
    · exact Bool.eq_false_iff.mp hfree (Table.has_iff_mem_names.mpr h)
    · exact Nat.lt_irrefl _ (Member.length_lt_of_mem_binaryNames members h)
  rw [enterSymbol]
  refine .get ?_
  split
  · next symbols hins =>
      refine .of_run_ok rfl (.insert hins (hself types)) ?_
      unfold SymbolTable.insert? at hins
      split at hins
      · cases hins
      · cases hins
        show (Option.map _ (Table.find? (_ ++ _) _) == _) = true
        rw [Table.find?_append, Table.has_eq_false.mp hfree', Option.none_or, Table.find?_cons,
          if_pos rfl, Option.map_some, beq_self_eq_true]
  · next hins =>
      unfold SymbolTable.insert? at hins
      rw [if_neg (by simp only [hfree', Bool.false_eq_true, not_false_iff])] at hins
      cases hins

end SessionM

end ProbeLang
