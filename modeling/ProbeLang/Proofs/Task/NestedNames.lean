import ProbeLang.Proofs.ClassName
import ProbeLang.Proofs.Task.Signatures

/-!
# Names across the class path

An artifact tells the names of a class and of its member types by their binary names alone. What
stands behind the last dot is taken for the part without the package, and what stands behind the
last dollar sign for the simple name. The package is always found again; a simple name is found
again if and only if it has no dollar sign itself, though an identifier may have some
(`call_restores_names`). Where no simple name of a member type has one, the member type of a class
is the same wherever the class comes from (`call_keeps_member_types`).
-/

namespace ProbeLang

open SessionM

/-! ## Symbols that are read back -/

/-- Member types under what stands behind the last dollar signs of their names. -/
def shortened (types : Table String) : Table String :=
  types.foldl (fun (short : Table String) p => short.put (nestedName p.1) p.2) []

/-- Member types whose names are all different keep them if and only if none has a dollar sign. -/
theorem shortened_eq_self_iff {types : Table String} (hnodup : types.names.Nodup) :
    shortened types = types ↔ ∀ name ∈ types.names, '$' ∉ name.toList := by
  unfold shortened
  constructor
  · intro heq
    have hshort : ∀ (more short : Table String), (∀ name ∈ short.names, '$' ∉ name.toList) →
        ∀ name ∈ (more.foldl (fun (short : Table String) p =>
          short.put (nestedName p.1) p.2) short).names, '$' ∉ name.toList := by
      intro more
      induction more with
      | nil => exact fun short h => h
      | cons p more ih =>
          refine fun short h => ih _ fun name hname => ?_
          rcases List.mem_append.mp (Table.names_put_subset _ _ _ hname) with hname | hname
          · exact h name hname
          · rw [List.mem_singleton.mp hname]
            exact not_mem_nestedName p.1
    rw [← heq]
    exact hshort types [] (List.forall_mem_nil _)
  · intro hnone
    have hkeep : types.map (fun p => (nestedName p.1, p.2)) = types := by
      refine (List.map_congr_left fun p hp => ?_).trans (List.map_id _)
      rw [nestedName_eq_self_iff.mpr (hnone p.1 (List.mem_map_of_mem hp))]
      rfl
    have hput := Table.foldl_put_of_nodup types [] hnodup
    rwa [List.nil_append, ← hkeep, List.foldl_map, hkeep] at hput

/-- Whether the binary name of a class is, behind the package, a word that ends like the simple
name. -/
def ClassSymbol.Named (c : ClassSymbol) : Prop :=
  ∃ name, Word name ∧ nestedName name = nestedName c.simple ∧
    c.binary = c.package.elim "" (· ++ ".") ++ name

/-- Whether a symbol has the names of another one as far as binary names tell them. -/
structure ClassSymbol.Restores (c c' : ClassSymbol) : Prop where
  binary : c.binary = c'.binary
  outer : c.outer = c'.outer
  package : c.package = c'.package
  simple : c.simple = nestedName c'.simple
  members : c.members = shortened c'.members

/-- The simple name is the same if and only if it has no dollar sign. -/
theorem ClassSymbol.Restores.simple_eq_iff {c c' : ClassSymbol} (h : c.Restores c') :
    c.simple = c'.simple ↔ '$' ∉ c'.simple.toList := by
  rw [h.simple, nestedName_eq_self_iff]

/-- The member types are the same if and only if none of their names has a dollar sign. -/
theorem ClassSymbol.Restores.members_eq_iff {c c' : ClassSymbol} (h : c.Restores c')
    (hnodup : c'.members.names.Nodup) :
    c.members = c'.members ↔ ∀ name ∈ c'.members.names, '$' ∉ name.toList := by
  rw [h.members, shortened_eq_self_iff hnodup]

/-! ## Names in a unit -/

theorem UnitTree.Parsed.named {u : UnitTree} (h : u.Parsed) {unit : Nat} :
    ∀ d ∈ u.declared unit, d.symbol.Named := by
  refine UnitTree.forall_declared (fun i c hc => ?_) fun e he k c hk hnamed => ?_
  · have hword := (h.types c (List.mem_of_getElem? hc)).name
    refine ⟨c.name.name, hword, rfl, ?_⟩
    show u.binaryName c = u.packageName?.elim "" (· ++ ".") ++ c.name.name
    unfold UnitTree.binaryName
    cases u.packageName? with
    | none => exact String.empty_append.symm
    | some package => rfl
  · have hword : Word c.name.name :=
      ((h.declared he).1.members _ (List.mem_of_getElem? hk)).name
    obtain ⟨name, hname, hends, hbinary⟩ := hnamed
    have hbinary : e.binary = e.package.elim "" (· ++ ".") ++ name := hbinary
    refine ⟨name ++ "$" ++ c.name.name, (hname.append word_dollar).append hword,
      nestedName_append _ _, ?_⟩
    show e.binary ++ "$" ++ c.name.name = e.package.elim "" (· ++ ".") ++ _
    rw [hbinary]
    simp only [String.append_assoc]

/-- The classes of a unit that has been read are named as the parser leaves them. -/
theorem SourceEntry.Reads.named {files : FileTree} {e : SourceEntry} (h : e.Reads files)
    {unit : Nat} {d : DeclaredClass} (hd : d ∈ e.tree.declared unit) : d.symbol.Named := by
  obtain ⟨text, tree, hparse, d', hd', heq⟩ := h.declared hd
  rw [← (DeclaredClass.eq_of_skeleton heq).2.2.1]
  exact (UnitTree.parsed_of_parse hparse).named d' hd'

/-! ## Artifacts -/

/-- The symbol of an artifact with the header of a declared class restores the names of the
class. -/
theorem ClassFile.restores_symbol {d : DeclaredClass} {file : ClassFile} (hd : d.symbol.Named)
    (hname : file.name = d.binary) (houter : file.outer = d.outer)
    (hnested : file.nested = d.nestedNames) : file.symbol.Restores d.symbol := by
  obtain ⟨name, hword, hends, hbinary⟩ := hd
  have hbinary : file.name = d.package.elim "" (· ++ ".") ++ name := hname.trans hbinary
  have hdot : '.' ∉ name.toList := hword.not_mem (by decide)
  refine ⟨hname, houter, ?_, ?_, ?_⟩
  · show (splitLastDot file.name).map Prod.fst = d.package
    rw [hbinary]
    cases d.package with
    | none => rw [Option.elim_none, String.empty_append, splitLastDot_eq_none hdot]; rfl
    | some package => rw [Option.elim_some, splitLastDot_append hdot]; rfl
  · show nestedName (lastName file.name) = nestedName d.decl.name.name
    rw [hbinary, ← show nestedName name = nestedName d.decl.name.name from hends]
    cases d.package with
    | none => rw [Option.elim_none, String.empty_append, lastName_eq_self hdot]
    | some package => rw [Option.elim_some, lastName_append hdot]
  · show file.nested.foldl _ [] = shortened d.memberTypes
    rw [hnested, shortened, DeclaredClass.nestedNames, DeclaredClass.memberTypes, List.foldl_map,
      List.foldl_map]
    simp only [nestedName_append]

/-- The artifact of a declared class restores the names of its symbol. -/
theorem Session.Wrote.restores {σ : Type} {u : Session σ} {d : DeclaredClass} {o : Sink}
    {symbol : ClassSymbol} {made : ClassFile} (h : u.Wrote d o symbol made)
    (hd : d.symbol.Named) :
    ∃ file, ClassFile.decode o.buffer = .ok file ∧ file.symbol.Restores symbol := by
  obtain ⟨pool, hdecode, -⟩ := ClassDecl.decode_links h.made h.encoded
  obtain ⟨hname, houter, hnested⟩ := d.classFile_header h.entered h.made
  have hrestores : ({ made with pool } : ClassFile).symbol.Restores symbol.entered :=
    h.entered ▸ ClassFile.restores_symbol hd hname houter hnested
  -- Completing a class changes none of its names.
  exact ⟨_, hdecode, hrestores.binary, hrestores.outer, hrestores.package, hrestores.simple,
    hrestores.members⟩

/-! ## Member types -/

/-- The member type of a name that a class has itself. -/
def SymbolTable.memberType? (t : SymbolTable) (simple cls : String) : Option String :=
  (t.find? cls).bind fun c => c.members.find? simple

namespace NameScope

variable {σ τ : Type} {s : Session σ} {s' : Session τ} {cls simple : String}

/-- Looking for a member type changes nothing where the member types of its name are known. -/
theorem run_memberTypeOf : ∀ {classes : List String},
    (∀ cls ∈ classes, ∀ nested, s.symbols.memberType? simple cls = some nested →
      s.symbols.has nested = true) →
    (memberTypeOf simple classes).run.run s =
      (.ok (classes.findSome? (s.symbols.memberType? simple)), s)
  | [], _ => rfl
  | cls :: classes, h => by
      obtain ⟨hcls, hclasses⟩ := List.forall_mem_cons.mp h
      have hrest := run_memberTypeOf hclasses
      unfold memberTypeOf at hrest ⊢
      rw [List.findSomeM?_cons, List.findSome?_cons, bind_assoc, run_get_bind]
      unfold SymbolTable.memberType? at hcls hrest ⊢
      cases hmember : (s.symbols.find? cls).bind fun c => c.members.find? simple with
      | none => exact hrest
      | some nested =>
          rw [bind_assoc, run_bind_ok (run_findClass (hcls nested hmember))]
          rfl

/-- Two sessions find the same member type of a class if its superclasses have the same ones. -/
theorem concur_memberType {ns : NameScope σ} {ns' : NameScope τ} (hns : ns.Bounded s)
    (hns' : ns'.Bounded s') (h : s.Share s' cls)
    (hsame : ∀ sup ∈ s.symbols.supertypes cls,
      s'.symbols.memberType? simple sup = s.symbols.memberType? simple sup)
    (hknown : ∀ sup ∈ s.symbols.supertypes cls, ∀ nested,
      s.symbols.memberType? simple sup = some nested →
        s.symbols.has nested = true ∧ s'.symbols.has nested = true) :
    Concur s (ns.memberType cls simple) s' (ns'.memberType cls simple) := by
  obtain ⟨classes, hchain, hchain'⟩ := concur_chain hns hns' h
  have hclasses : classes ⊆ s.symbols.supertypes cls := by
    have hloaded := run_chain hns fun sup hsup => .inl (h.left sup hsup)
    cases hchain.symm.trans hloaded
    exact List.filter_sublist.subset
  have hfind : classes.findSome? (s'.symbols.memberType? simple) =
      classes.findSome? (s.symbols.memberType? simple) :=
    SymbolTable.findSome?_congr fun sup hsup => hsame sup (hclasses hsup)
  refine ⟨classes.findSome? (s.symbols.memberType? simple), ?_, ?_⟩
  · exact (run_bind_ok hchain).trans (run_memberTypeOf fun sup hsup nested hnested =>
      (hknown sup (hclasses hsup) nested hnested).1)
  · rw [← hfind]
    exact (run_bind_ok hchain').trans (run_memberTypeOf fun sup hsup nested hnested =>
      (hknown sup (hclasses hsup) nested (hsame sup (hclasses hsup) ▸ hnested)).2)

end NameScope

/-! ## Tasks -/

namespace CompilationTask

variable {σ : Type} {task : CompilationTask σ} {files : FileTree} {store : UnitStore} {state : σ}
  {b : Bool} {u : Session σ}

/-- The classes of a task without errors are named as the parser leaves them. -/
theorem named_of_call (hrun : task.call (task.session files store state) = (.ok b, u))
    (hclean : u.log.Clean ∨ u.outputs ≠ []) {d : DeclaredClass} (hd : u.Declares d) :
    d.symbol.Named := by
  obtain ⟨e, he, hd⟩ := hd
  exact (reads_of_call hrun hclean e (List.mem_of_getElem? he)).named hd

/-- The artifacts of a task without errors restore the names of its classes as far as binary names
tell them: the package always, the simple name if and only if it has no dollar sign, and the member
types if and only if none of their simple names has one. -/
theorem call_restores_names (hrun : task.call (task.session files store state) = (.ok b, u))
    (hclean : u.log.Clean ∨ u.outputs ≠ []) :
    List.Forall₂ (fun d o => o.name = d.binary ∧ ∃ symbol file,
        u.symbols.find? d.binary = some symbol ∧ symbol.entered = d.symbol ∧
        ClassFile.decode o.buffer = .ok file ∧ file.symbol.Restores symbol ∧
        (file.symbol.simple = symbol.simple ↔ '$' ∉ symbol.simple.toList) ∧
        (file.symbol.members = symbol.members ↔
          ∀ name ∈ symbol.members.names, '$' ∉ name.toList))
      (declaredClasses 0 u.sources) u.outputs := by
  obtain ⟨hsound, hwrote⟩ := call_wrote hrun hclean
  refine hwrote.imp fun d o ⟨symbol, made, h⟩ => ?_
  obtain ⟨file, hdecode, hrestores⟩ := h.restores (named_of_call hrun hclean h.declares)
  have hmembers : symbol.members = d.memberTypes := congrArg ClassSymbol.members h.entered
  exact ⟨h.name, symbol, file, h.find?, h.entered, hdecode, hrestores, hrestores.simple_eq_iff,
    hrestores.members_eq_iff (hmembers ▸ hsound.nodup_memberTypes h.declares)⟩

/-- A session that knows a class and its superclasses from the artifacts of a task finds the same
member type of the class as the task does, if no simple name of a member type has a dollar sign. -/
theorem call_keeps_member_types (hrun : task.call (task.session files store state) = (.ok b, u))
    (hclean : u.log.Clean ∨ u.outputs ≠ []) (hlibrary : u.Library) {τ : Type} {v : Session τ}
    {ns : NameScope σ} {ns' : NameScope τ} (hns : ns.Bounded u) (hns' : ns'.Bounded v)
    {cls simple : String} (hcls : u.ReadsBack v cls)
    (hplain : ∀ d, u.Declares d → d.binary ∈ u.symbols.supertypes cls →
      ∀ name ∈ d.memberTypes.names, '$' ∉ name.toList)
    (hknown : ∀ sup ∈ u.symbols.supertypes cls, ∀ nested,
      u.symbols.memberType? simple sup = some nested →
        u.symbols.has nested = true ∧ v.symbols.has nested = true) :
    Concur u (ns.memberType cls simple) v (ns'.memberType cls simple) := by
  obtain ⟨hsound, hwrote⟩ := call_wrote hrun hclean
  have hkeeps := hwrote.imp fun d o (⟨symbol, made, h⟩ : ∃ symbol file, u.Wrote d o symbol file) =>
    (⟨symbol, h.keepsSignatures (spelled_of_call hrun hclean hlibrary)⟩ :
      ∃ symbol file, u.KeepsSignatures d o symbol file)
  refine NameScope.concur_memberType hns hns' (hcls.share hsound hlibrary hkeeps) ?_ hknown
  intro sup hsup
  obtain ⟨c, hc, hc' | ⟨o, ho, hname, file, hdecode, hc'⟩⟩ := hcls sup hsup
  · rw [SymbolTable.memberType?, SymbolTable.memberType?, hc, hc']
  · obtain ⟨d, -, symbol, made, h⟩ := exists_of_mem_right hwrote ho
    obtain rfl : d.binary = sup := h.name.symm.trans hname
    obtain ⟨file', hdecode', hrestores⟩ := h.restores (named_of_call hrun hclean h.declares)
    cases hdecode.symm.trans hdecode'
    cases hc.symm.trans h.find?
    have hmembers : c.members = d.memberTypes := congrArg ClassSymbol.members h.entered
    have hsame : file.symbol.members = c.members := by
      refine (hrestores.members_eq_iff ?_).mpr ?_
      · exact hmembers ▸ hsound.nodup_memberTypes h.declares
      · exact hmembers ▸ hplain d h.declares hsup
    rw [SymbolTable.memberType?, SymbolTable.memberType?, hc, hc', Option.bind_some,
      Option.bind_some, hsame]

end CompilationTask

-- The member type `In$ner` is read back under the name `ner`.
example :
    let task := libraryTask "Outer" "class Outer { class In$ner {} }"
    let u := (task.call (task.session (libraryFiles []) (.inMemory none) ())).2
    (u.symbols.find? "Outer").map ClassSymbol.members = some [("In$ner", "Outer$In$ner")] ∧
      (u.outputs.map fun o => (ClassFile.decode o.buffer).toOption.map fun file =>
        (file.symbol.simple, file.symbol.members)) =
          [some ("Outer", [("ner", "Outer$In$ner")]), some ("ner", [])] := by
  decide +kernel

end ProbeLang
