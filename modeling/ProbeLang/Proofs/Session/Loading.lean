import ProbeLang.Proofs.Files
import ProbeLang.Proofs.Preprocess
import ProbeLang.Proofs.Session.Entering
import ProbeLang.Session.Classes

/-!
# Loading classes

A class that is loaded from source stands in a unit whose text a file holds, so its name is one of
those that files declare. Looking for classes keeps a session sound.
-/

namespace ProbeLang

/-! ## Units and their files -/

theorem Parse.unit_source (fuel : Nat) (source source' : String) :
    Parse.unit fuel source' =
      (fun t => { t with source := source' }) <$> Parse.unit fuel source := by
  simp only [Parse.unit, map_bind]
  refine bind_congr fun clause => ?_
  split <;> simp only [map_bind, map_pure]

/-- The name of a unit is all that its tree has of it. -/
theorem UnitTree.parse_source {source text : String} {tree : UnitTree}
    (h : UnitTree.parse source text = .ok tree) (source' : String) :
    UnitTree.parse source' text = .ok { tree with source := source' } := by
  obtain ⟨tokens, htokens, h⟩ := except_bind_ok h
  obtain ⟨⟨tree', rest⟩, hunit, h⟩ := except_bind_ok h
  cases h
  unfold UnitTree.parse
  rw [htokens]
  show ((Parse.unit (parseFuel tokens.length) source').run (.ofList tokens) >>= _) = _
  rw [Parse.unit_source _ source source', StateT.run_map, hunit]
  rfl

namespace UnitStore

variable {s : UnitStore} {t : FileTree}

/-- Whether the text of a unit, if it has any, is that of a file. -/
def Offers (s : UnitStore) (t : FileTree) (u : CompilationUnit) : Prop :=
  ∀ text, u.content t = .ok text →
    ∃ key content, (key, Entry.file content) ∈ t.entries ∧ s.sourceText? t content = some text

theorem takeDeferred_input (s : UnitStore) (t : FileTree) (l : Location) (name : String)
    (kind : UnitKind) : (s.input t l name kind).2.takeDeferred.2 = s.takeDeferred.2 := by
  unfold input
  split
  · rfl
  · rfl
  · next memory _ hmemory =>
      split
      · rfl
      · split
        · rfl
        · simp [takeDeferred, hmemory]

theorem offers_ofFile {path : String} {kind : UnitKind} (hsearch : s.searchPath = none) :
    s.Offers t (.ofFile t path kind) := by
  intro text htext
  obtain ⟨content, hread, htext⟩ := except_bind_ok htext
  obtain ⟨key, hkey⟩ := FileTree.mem_entries_of_read hread
  refine ⟨key, content, hkey, ?_⟩
  unfold sourceText?
  rw [hsearch]
  split at htext
  · next text' heq =>
      cases htext
      rw [heq]
  · cases htext

theorem offers_of_adapt {path : String} {kind : UnitKind} {u : CompilationUnit}
    (h : adapt t s.searchPath (.ofFile t path kind) = .ok u) : s.Offers t u := by
  cases hsearch : s.searchPath with
  | none =>
      rw [hsearch] at h
      cases h
      exact offers_ofFile hsearch
  | some search =>
      rw [hsearch] at h
      obtain ⟨content, hread, h⟩ := except_bind_ok h
      obtain ⟨text, htext, h⟩ := except_bind_ok h
      obtain ⟨processed, hprocessed, h⟩ := except_bind_ok h
      cases h
      have hread : t.read path = .ok content := by
        revert hread
        show (t.read path).mapError _ = _ → _
        cases t.read path <;> intro hread <;> cases hread
        rfl
      have htext : content.toString? = .ok text := by
        revert htext
        cases content.toString? <;> intro htext <;> cases htext
        rfl
      obtain ⟨key, hkey⟩ := FileTree.mem_entries_of_read hread
      rintro _ ⟨⟩
      refine ⟨key, content, hkey, ?_⟩
      unfold sourceText?
      rw [hsearch, htext]
      dsimp only
      rw [preprocessText_name hprocessed ""]
      rfl

/-- A unit from the source path has the text of a file. -/
theorem offers_of_input {name : String} {u : CompilationUnit}
    (h : (s.input t .sourcePath name .source).1 = .ok (some u)) :
    s.Offers t u ∧ s.locations.searchDirs .sourcePath ≠ [] := by
  unfold input at h
  cases hfind : s.findInput t .sourcePath name .source with
  | none => rw [hfind] at h; cases h
  | some found =>
      obtain ⟨path, hpath, rfl⟩ := Option.map_eq_some_iff.mp hfind
      have hdirs : s.locations.searchDirs .sourcePath ≠ [] := by
        intro hnil
        rw [hnil] at hpath
        cases hpath
      refine ⟨?_, hdirs⟩
      rw [hfind] at h
      cases hmemory : s.memory with
      | none =>
          rw [hmemory] at h
          cases h
          exact offers_ofFile (by rw [searchPath, hmemory]; rfl)
      | some memory =>
          simp only [hmemory, CompilationUnit.ofFile, ne_eq, not_true_eq_false, if_false] at h
          have hsearch : memory.search = s.searchPath := by rw [searchPath, hmemory]; rfl
          rw [hsearch] at h
          split at h
          · next u' hadapt =>
              cases h
              exact offers_of_adapt hadapt
          · cases h

end UnitStore

/-- The classes of a unit from the source path are classes that files declare. -/
theorem loaded_of_offers {σ : Type} {s : Session σ} {u : CompilationUnit} {text : String}
    {tree : UnitTree} (hoffers : s.store.Offers s.files u)
    (hdirs : s.store.locations.searchDirs .sourcePath ≠ []) (htext : u.content s.files = .ok text)
    (htree : UnitTree.parse u.name text = .ok tree) : SourceEntry.Loaded s ⟨u, tree⟩ := by
  obtain ⟨key, content, hmem, hcontent⟩ := hoffers text htext
  refine ⟨⟨text, htext, htree⟩, fun name hname => ?_⟩
  have hdeclared : s.store.declaredIn s.files (.file content) = tree.binaryNames := by
    unfold UnitStore.declaredIn
    dsimp only
    rw [hcontent, Option.map_some, UnitTree.parse_source htree ""]
    rfl
  unfold Session.loadable UnitStore.classDirs
  split
  · next hnil => exact absurd (List.append_eq_nil_iff.mp hnil).1 hdirs
  · refine List.mem_flatMap.mpr ⟨(key, .file content), hmem, ?_⟩
    show name ∈ s.store.declaredIn s.files (.file content)
    rwa [hdeclared]

/-! ## Steps -/

namespace SessionM

open Session

variable {σ α : Type} {s t : Session σ} {P : Prop}

theorem run_ofIo_ok {r : Except IoFault α} {a : α} (h : (ofIo r).run.run s = (.ok a, t)) :
    r = .ok a ∧ s = t := by
  cases r with
  | error e => cases h
  | ok b => cases h; exact ⟨rfl, rfl⟩

theorem keeps_input (l : Location) (name : String) (kind : UnitKind) :
    Keeps s P (input l name kind) fun _ _ => True := by
  refine Keeps.get ?_
  refine Keeps.bind (Q := fun _ _ => True) (Keeps.of_run_eq rfl ?_ rfl rfl rfl
    fun _ _ => trivial) fun _ t _ => (Keeps.ofIo _).weaken
  exact { Extends.refl s with store := s.store.takeDeferred_input s.files l name kind }

theorem run_input_ok {l : Location} {name : String} {kind : UnitKind}
    {u : Option CompilationUnit} (h : (input l name kind).run.run s = (.ok u, t)) :
    (s.store.input s.files l name kind).1 = .ok u :=
  (run_ofIo_ok h).1

/-- A unit that has been parsed is one of a text. -/
theorem run_parse_ok {unit : CompilationUnit} {tree : UnitTree}
    (h : (parse unit).run.run s = (.ok (some tree), t)) :
    ∃ text, unit.content s.files = .ok text ∧ UnitTree.parse unit.name text = .ok tree := by
  obtain ⟨state, log, hstarted, -⟩ := run_started s { phase := .parse, source := unit.name }
  unfold parse at h
  rw [run_bind_ok hstarted, run_get_bind] at h
  obtain ⟨text, u, htext, h⟩ := of_run_bind h
  refine ⟨text, (run_ofIo_ok htext).1, ?_⟩
  cases htree : UnitTree.parse unit.name text with
  | error e =>
      rw [htree] at h
      obtain ⟨_, _, _, h⟩ := of_run_bind h
      obtain ⟨_, _, _, h⟩ := of_run_bind h
      cases h
  | ok tree' =>
      rw [htree] at h
      obtain ⟨_, _, _, h⟩ := of_run_bind h
      cases h
      rfl

theorem keeps_parse (unit : CompilationUnit) :
    Keeps s P (parse unit) fun tree _ => tree.isSome = true := by
  unfold parse
  refine (Keeps.started _).bind fun _ t _ => Keeps.get ?_
  refine (Keeps.ofIo _).bind fun text u _ => ?_
  cases UnitTree.parse unit.name text with
  | error e =>
      exact .problem_bind fun _ => (Keeps.finished _).bind fun _ _ _ => .pure fun h => h.1.elim
  | ok tree => exact (Keeps.finished _).bind fun _ _ _ => .pure fun _ _ => rfl

theorem keeps_enter {unit : CompilationUnit} {tree : UnitTree}
    (h : SourceEntry.Loaded s ⟨unit, tree⟩) : Keeps s P (enter unit tree) fun _ _ => True := by
  obtain ⟨t, hrun, hst, hsources, hadvances⟩ := run_enter s unit tree
  refine .of_run hrun ⟨hst, fun e he => ?_⟩ fun _ _ hs herrors => ⟨hadvances hs herrors, trivial⟩
  rw [hsources, List.drop_left] at he
  obtain rfl := List.mem_singleton.mp he
  exact h

/-- Whether a class that has been found is known. -/
def Finds (name : String) (found : Bool) (t : Session σ) : Prop :=
  found = true → t.symbols.has name = true

theorem finds_false {name : String} : Finds name false s := by
  intro h
  cases h

theorem keeps_known (name : String) : Keeps s P (known name) (Finds name) :=
  .get (.pure fun _ _ h => h)

/-- A unit that has been found on the source path and parsed is loaded. -/
theorem loaded_of_input {name : String} {unit : CompilationUnit} {tree : UnitTree} {u : Session σ}
    (hinput : (input .sourcePath name .source).run.run s = (.ok (some unit), t))
    (hparse : (parse unit).run.run t = (.ok (some tree), u)) :
    SourceEntry.Loaded u ⟨unit, tree⟩ := by
  obtain ⟨hoffers, hdirs⟩ := UnitStore.offers_of_input (run_input_ok hinput)
  obtain ⟨text, htext, htree⟩ := run_parse_ok hparse
  have hst : s.Grows t := (keeps_input (P := True) _ _ _).grows_of_run hinput
  have htu : t.Grows u := (keeps_parse (P := True) _).grows_of_run hparse
  rw [hst.files] at htext
  exact (loaded_of_offers hoffers hdirs htext htree).of_extends
    (hst.toExtends.trans htu.toExtends)

theorem keeps_loadSource (name : String) : Keeps s P (loadSource name) (Finds name) := by
  unfold loadSource
  refine (keeps_input _ _ _).bind fun found t hinput => ?_
  cases found with
  | none => exact .pure fun _ _ => finds_false
  | some unit =>
      refine .get ?_
      split
      · exact keeps_known name
      · refine (keeps_parse unit).bind fun found u hparse => ?_
        cases found with
        | none => exact .pure fun _ _ => finds_false
        | some tree =>
            refine (keeps_enter (loaded_of_input hinput hparse)).bind fun _ _ _ => ?_
            refine (keeps_known name).bind fun found _ _ => ?_
            split
            · next hfound => exact .pure fun h _ _ => h.2 hfound
            · exact .problem_bind fun _ => .pure fun h => h.elim

/-! ## Artifacts -/

theorem known_of_readDescriptor (cs : List Char) : ∀ ⦃ty : Ty⦄ ⦃rest : List Char⦄,
    Ty.readDescriptor cs = some (ty, rest) → ty.Known := by
  fun_induction Ty.readDescriptor cs with
  | case9 cs ih =>
      intro ty rest h
      obtain ⟨⟨elem, rest'⟩, helem, h⟩ := Option.map_eq_some_iff.mp h
      cases h
      have : elem.Known := ih helem
      exact this
  | _ =>
      intro ty rest h
      cases h
      try trivial

theorem known_of_readParamDescriptors (fuel : Nat) (done : List Ty) (cs : List Char) :
    ∀ ⦃params : List Ty⦄ ⦃rest : List Char⦄, (∀ p ∈ done, p.Known) →
      readParamDescriptors fuel done cs = some (params, rest) → ∀ p ∈ params, p.Known := by
  fun_induction readParamDescriptors fuel done cs with
  | case1 fuel done cs =>
      intro params rest hdone h p hp
      cases h
      exact hdone p (List.mem_reverse.mp hp)
  | case2 => intro params rest _ h; cases h
  | case3 done cs fuel hclose ih =>
      intro params rest hdone h
      obtain ⟨⟨ty, cs'⟩, hty, h⟩ := Option.bind_eq_some_iff.mp h
      refine ih ty cs' (fun p hp => ?_) h
      rcases List.mem_cons.mp hp with rfl | hp
      · exact known_of_readDescriptor _ hty
      · exact hdone p hp

theorem known_of_readMethodDescriptor {text : String} {params : List Ty} {ret : Ty}
    (h : readMethodDescriptor text = some (params, ret)) :
    (∀ p ∈ params, p.Known) ∧ ret.Known := by
  unfold readMethodDescriptor at h
  split at h
  · obtain ⟨⟨ps, rest⟩, hps, h⟩ := Option.bind_eq_some_iff.mp h
    obtain ⟨⟨r, rest'⟩, hr, h⟩ := Option.bind_eq_some_iff.mp h
    dsimp only at h
    split at h
    · cases h
      exact ⟨known_of_readParamDescriptors _ _ _ (by simp) hps, known_of_readDescriptor _ hr⟩
    · cases h
  · cases h

theorem known_symbol (c : ClassFile) : c.symbol.Known := by
  constructor
  · intro f hf
    obtain ⟨info, -, hinfo⟩ := List.mem_filterMap.mp hf
    split at hinfo
    · next ty hty =>
        cases hinfo
        exact known_of_readDescriptor _ hty
    · cases hinfo
  all_goals
    intro m hm
    obtain ⟨info, -, hinfo⟩ := List.mem_filterMap.mp hm
    split at hinfo
    · cases hinfo
    · obtain ⟨⟨params, ret⟩, hdesc, rfl⟩ := Option.map_eq_some_iff.mp hinfo
      first
        | exact (known_of_readMethodDescriptor hdesc).1
        | exact (known_of_readMethodDescriptor hdesc).2

theorem prefix_insert {t u : SymbolTable} {c : ClassSymbol} (h : t.insert? c = some u) :
    t <+: u := by
  unfold SymbolTable.insert? at h
  split at h
  · cases h
  · cases h
    exact List.prefix_append _ _

/-- The symbol of an artifact may be added under a name that is free. -/
theorem advances_insert {c : ClassSymbol} {symbols : SymbolTable}
    (hins : s.symbols.insert? c = some symbols) (horigin : c.origin = .classPath) (hknown : c.Known)
    (hs : s.Sound) : s.Advances { s with symbols := symbols } := by
  unfold SymbolTable.insert? at hins
  split at hins
  · cases hins
  · cases hins
    have hfound {name : String} {c' : ClassSymbol}
        (h : Table.find? (s.symbols ++ [(c.binary, c)]) name = some c') :
        s.symbols.find? name = some c' ∨ c' = c ∧ c.binary = name := by
      rw [Table.find?_append] at h
      cases hfind : s.symbols.find? name with
      | some c'' =>
          rw [hfind] at h
          exact .inl h
      | none =>
          rw [hfind, Option.none_or, Table.find?_cons] at h
          split at h
          · next hname =>
              cases h
              exact .inr ⟨rfl, hname.symm⟩
          · cases h
    have hsource : c.isSource = false := by rw [ClassSymbol.isSource, horigin]
    have hext : s.Extends { s with symbols := s.symbols ++ [(c.binary, c)] } :=
      .of_isPrefix (List.prefix_append _ _)
    refine ⟨⟨fun hd => ?_, fun hc hsrc => ?_, fun hc hbuiltin => ?_, fun hc => ?_,
      fun hc => ?_, fun hc hsrc => ?_⟩, ?_, ?_⟩
    · obtain ⟨c', hc', hentered⟩ := hs.declared hd
      exact ⟨c', find?_of_isPrefix (List.prefix_append _ _) hc', hentered⟩
    · rcases hfound hc with hc | ⟨rfl, hname⟩
      · obtain ⟨d, hd, hname, hentered, hwritten⟩ := hs.origin hc hsrc
        exact ⟨d, hd, hname, hentered,
          fun h => (hwritten h).mono hext.has⟩
      · rw [hsource] at hsrc
        cases hsrc
    · rcases hfound hc with hc | ⟨rfl, hname⟩
      · exact hs.builtin hc hbuiltin
      · rw [horigin] at hbuiltin
        cases hbuiltin
    · rcases hfound hc with hc | ⟨rfl, hname⟩
      · exact hs.named hc
      · exact hname
    · rcases hfound hc with hc | ⟨rfl, hname⟩
      · exact hs.known hc
      · exact hknown
    · rcases hfound hc with hc | ⟨rfl, hname⟩
      · exact (hs.staged hc hsrc).mono hext.has
      · rw [hsource] at hsrc
        cases hsrc
    · rintro name ⟨c', hc', hsrc, hrest⟩
      rcases hfound hc' with hc' | ⟨rfl, hname⟩
      · exact ⟨c', hc', hsrc, hrest⟩
      · rw [hsource] at hsrc
        cases hsrc
    · rw [List.drop_length, topClasses, List.append_nil]

theorem has_insert {t u : SymbolTable} {c : ClassSymbol} (h : t.insert? c = some u) :
    u.has c.binary = true := by
  unfold SymbolTable.insert? at h
  split at h
  · cases h
  · cases h
    rw [Table.has_iff_mem_names, Table.names, List.map_append]
    exact List.mem_append_right _ List.mem_cons_self

theorem keeps_loadArtifact (name : String) : Keeps s P (loadArtifact name) (Finds name) := by
  unfold loadArtifact
  refine (keeps_input _ _ _).bind fun found t _ => ?_
  cases found with
  | none => exact .pure fun _ _ => finds_false
  | some unit =>
      refine .get ((Keeps.ofIo _).bind fun bytes u _ => ?_)
      split
      · exact .report_bind rfl fun _ => .pure fun h => h.elim
      · next c _ =>
          split
          · next hname =>
              refine .get ?_
              split
              · next symbols hins =>
                  refine Keeps.bind (Q := fun _ t => t.symbols.has name = true)
                    (.of_run (run_modify _ _) (.of_extends ?_ rfl) fun _ _ hs _ =>
                      ⟨advances_insert hins rfl (known_symbol c) hs, ?_⟩)
                    fun _ _ _ => .pure fun h _ _ => h.2
                  · exact .of_isPrefix (prefix_insert hins)
                  · exact hname ▸ has_insert hins
              · exact .pure fun _ _ => finds_false
          · exact .report_bind rfl fun _ => .pure fun h => h.elim

variable {find : String → SessionM σ Bool}

theorem keeps_load (hfind : ∀ {name : String} {s : Session σ} {P : Prop},
      Keeps s P (find name) (Finds name)) (name : String) :
    Keeps s P (load find name) (Finds name) := by
  unfold load
  refine hfind.bind fun found t _ => ?_
  split
  · next hfound => exact .pure fun h _ _ => h.2 hfound
  · refine (keeps_loadArtifact name).bind fun found u _ => ?_
    split
    · next hfound => exact .pure fun h _ _ => h.2 hfound
    · refine Keeps.bind (Q := fun _ _ => True) (Keeps.of_run_eq (run_modify u _) ?_ rfl rfl rfl
        fun _ _ => trivial) fun _ _ _ => .pure fun _ _ => finds_false
      exact { Extends.refl u with }

theorem keeps_findWith (hfind : ∀ {name : String} {s : Session σ} {P : Prop},
      Keeps s P (find name) (Finds name)) (name : String) :
    Keeps s P (findWith find name) (Finds name) := by
  unfold findWith
  refine .get ?_
  split
  · next hhas => exact .pure fun _ _ _ => hhas
  · split
    · exact .pure fun _ _ => finds_false
    · exact keeps_load hfind name

/-- Looking for a class keeps a session sound, and a class that is found is known. -/
theorem keeps_findClass (name : String) : Keeps s P (findClass name) (Finds name) := by
  unfold findClass
  dsimp only
  split
  · exact keeps_findWith (fun {name _ _} => keeps_loadSource name) name
  · refine keeps_findWith (fun {name _ _} => ?_) _
    refine (keeps_findWith (fun {name _ _} => keeps_loadSource name) _).bind fun _ _ _ => ?_
    split
    · exact keeps_known name
    · exact .pure fun _ _ => finds_false

end SessionM

end ProbeLang
