import ProbeLang.Proofs.Artifact.RoundTrip
import ProbeLang.Proofs.Code.Methods
import ProbeLang.Proofs.Session.Growth
import ProbeLang.Proofs.Tree.Declared

/-!
# Artifacts of classes

With the symbols of declared classes as they were entered, a class becomes one artifact for every
class that is declared in it, itself included, in the order of their declarations. Each is read back
with the name of its class, that of the enclosing class and those of the member classes.
-/

namespace ProbeLang

/-- Whether a name and bytes are the artifact of a declared class. -/
structure DeclaredClass.Makes (symbols : SymbolTable) (options : Options) (d : DeclaredClass)
    (artifact : String × Bytes) : Prop where
  name : artifact.1 = d.binary
  file : ∃ symbol file, symbols.find? d.binary = some symbol ∧ symbol.entered = d.symbol ∧
    d.decl.classFile options symbol = .ok file ∧ file.encode = .ok artifact.2

/-- The names of the member classes of a declared class. -/
def DeclaredClass.nestedNames (d : DeclaredClass) : List String :=
  d.decl.nested.map fun n => d.binary ++ "$" ++ n.name.name

/-- The header of an artifact is that of its declared class. -/
theorem DeclaredClass.classFile_header {options : Options} {d : DeclaredClass}
    {symbol : ClassSymbol} {file : ClassFile} (hsymbol : symbol.entered = d.symbol)
    (h : d.decl.classFile options symbol = .ok file) :
    file.name = d.binary ∧ file.outer = d.outer ∧ file.nested = d.nestedNames := by
  obtain ⟨methods, -, h⟩ := except_bind_ok h
  have hbinary : symbol.binary = d.binary := congrArg ClassSymbol.binary hsymbol
  have houter : symbol.outer = d.outer := congrArg ClassSymbol.outer hsymbol
  have hmembers : symbol.members = d.memberTypes := congrArg ClassSymbol.members hsymbol
  cases h
  refine ⟨hbinary, houter, ?_⟩
  dsimp only
  rw [hbinary, hmembers]
  refine List.filter_eq_self.mpr fun name hname => ?_
  obtain ⟨n, hn, rfl⟩ := List.mem_map.mp hname
  exact List.any_eq_true.mpr ⟨_, List.mem_map_of_mem hn, beq_self_eq_true _⟩

/-- What is read back from the artifact of a class has the methods of the class, with symbolic methods
whose texts its constants are. -/
theorem ClassDecl.decode_links {options : Options} {c : ClassDecl} {symbol : ClassSymbol}
    {file : ClassFile} {bytes : Bytes} (hfile : c.classFile options symbol = .ok file)
    (hencode : file.encode = .ok bytes) :
    ∃ pool, ClassFile.decode bytes = .ok { file with pool } ∧
      (∀ m ∈ file.methods, m.code.length < 0x100000000) ∧
      List.Forall₂ (MethodInfo.Links pool) file.methods
        (c.symbolicMethods symbol ((superclassName symbol).getD objectName)) := by
  obtain ⟨hpool, hlinks⟩ := classFile_links hfile
  obtain ⟨pool, -, hnames, hdecode⟩ := ClassFile.decode_encode hpool hencode
  have hext := ClassFile.extends_of_allNames hnames
  exact ⟨pool, hdecode, ClassFile.length_code_lt hpool hencode,
    hlinks.imp fun m sym hm => hm.of_extends hext⟩

/-- The artifact of a declared class is read back with the header of its declaration. -/
theorem DeclaredClass.Makes.decode {symbols : SymbolTable} {options : Options} {d : DeclaredClass}
    {artifact : String × Bytes} (h : d.Makes symbols options artifact) :
    ∃ file, ClassFile.decode artifact.2 = .ok file ∧ file.name = d.binary ∧
      file.outer = d.outer ∧ file.nested = d.nestedNames := by
  obtain ⟨symbol, file, -, hsymbol, hfile, hencode⟩ := h.file
  obtain ⟨pool, -, -, hdecode⟩ :=
    ClassFile.decode_encode (ClassDecl.classFile_links hfile).1 hencode
  have hheader := DeclaredClass.classFile_header hsymbol hfile
  exact ⟨_, hdecode, hheader⟩

section

variable {symbols : SymbolTable} {options : Options} {unit : Nat} {package : Option String}

mutual

/-- A class makes an artifact for each class that is declared in it. -/
theorem ClassDecl.artifacts_make : ∀ (c : ClassDecl) {outer : Option String} {place : List Nat}
    {cls : String} {artifacts : ArtifactMap},
    (∀ d ∈ c.declared unit package outer place cls,
      ∃ symbol, symbols.find? d.binary = some symbol ∧ symbol.entered = d.symbol) →
    c.artifacts symbols options cls = .ok artifacts →
      List.Forall₂ (DeclaredClass.Makes symbols options)
        (c.declared unit package outer place cls) artifacts
  | ⟨name, modifiers, superclass, members, pos⟩, outer, place, cls, artifacts, hsymbols, h => by
      obtain ⟨⟨symbol, hfind, hsymbol⟩, hmembers⟩ := List.forall_mem_cons.mp hsymbols
      unfold ClassDecl.artifacts at h
      rw [hfind] at h
      obtain ⟨file, hfile, h⟩ := except_bind_ok h
      obtain ⟨bytes, hbytes, h⟩ := except_bind_ok h
      obtain ⟨nested, hnested, h⟩ := except_bind_ok h
      cases h
      refine .cons ⟨rfl, symbol, file, hfind, hsymbol, hfile, hbytes⟩ ?_
      refine Member.artifacts_make members hmembers (fun decl hdecl => ?_) hnested
      rw [(DeclaredClass.classFile_header hsymbol hfile).2.2]
      exact List.mem_map_of_mem (List.mem_filterMap.mpr ⟨_, hdecl, rfl⟩)

theorem Member.artifacts_make : ∀ (members : List Member) {place : List Nat} {cls : String}
    {i : Nat} {names : List String} {artifacts : ArtifactMap},
    (∀ d ∈ Member.declared unit package place cls i members,
      ∃ symbol, symbols.find? d.binary = some symbol ∧ symbol.entered = d.symbol) →
    (∀ decl, .type decl ∈ members → cls ++ "$" ++ decl.name.name ∈ names) →
    ClassDecl.memberArtifacts symbols options cls names members = .ok artifacts →
      List.Forall₂ (DeclaredClass.Makes symbols options)
        (Member.declared unit package place cls i members) artifacts
  | [], _, _, _, _, _, _, _, h => by
      cases h
      exact .nil
  | .field _ :: rest, _, _, _, _, _, hsymbols, hnames, h
  | .method _ :: rest, _, _, _, _, _, hsymbols, hnames, h =>
      Member.artifacts_make rest hsymbols
        (fun decl hdecl => hnames decl (List.mem_cons_of_mem _ hdecl)) h
  | .type decl :: rest, _, cls, _, names, _, hsymbols, hnames, h => by
      obtain ⟨hdecl, hrest⟩ := List.forall_mem_append.mp hsymbols
      have hlisted : names.contains (cls ++ "$" ++ decl.name.name) = true :=
        List.contains_iff_mem.mpr (hnames decl List.mem_cons_self)
      unfold ClassDecl.memberArtifacts at h
      simp only [hlisted, if_true] at h
      obtain ⟨here, hhere, h⟩ := except_bind_ok h
      obtain ⟨more, hmore, h⟩ := except_bind_ok h
      cases h
      refine List.rel_append (decl.artifacts_make hdecl hhere) ?_
      exact Member.artifacts_make rest hrest
        (fun decl hdecl => hnames decl (List.mem_cons_of_mem _ hdecl)) hmore

end

end

end ProbeLang
