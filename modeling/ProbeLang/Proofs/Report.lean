import ProbeLang.Report
import ProbeLang.Proofs.Files
import ProbeLang.Proofs.Policy.Soundness
import ProbeLang.Proofs.Task.NestedNames
import ProbeLang.Proofs.Tree.ReadBack.Unit

/-!
# Artifacts on files

The name of a compiled class is words with dots between (`Dotted`), so it is told by the steps to its
file: only the last step has a dot of its own. Artifacts of different classes are therefore written to
places that are apart (`ArtifactMap.Apart`), and the place of each is the one in which a session looks
for the class if the directory is its class path (`ArtifactMap.Served`).
-/

namespace ProbeLang

open FilePath (Step segments lead)

/-! ## Names and steps -/

/-- Whether a name is words with dots between. -/
def Dotted (name : String) : Prop :=
  ∀ s ∈ FilePath.splitOnChar '.' name, Word s

variable {name dir extension : String}

/-- A word can name an entry of a directory, whatever stands behind it. -/
theorem Word.step_append {s rest : String} (h : Word s) (hrest : '/' ∉ rest.toList) :
    Step (s ++ rest) := by
  obtain ⟨c, cs, hs⟩ := List.exists_cons_of_ne_nil h.1
  have hhead : (s ++ rest).toList.head? = some c := by
    rw [String.toList_append, hs]
    rfl
  have hc : c ≠ '.' := by
    rintro rfl
    exact h.not_mem (c := '.') (by decide) (hs ▸ List.mem_cons_self)
  have hdots {u : String} (hu : u.toList.head? = some '.') : s ++ rest ≠ u := by
    rintro rfl
    exact hc (Option.some.inj (hhead.symm.trans hu))
  refine ⟨⟨?_, hdots rfl⟩, hdots rfl, ?_⟩
  · intro hempty
    rw [hempty] at hhead
    cases hhead
  · rw [String.toList_append, List.mem_append, not_or]
    exact ⟨h.not_mem (by decide), hrest⟩

theorem Word.step {s : String} (h : Word s) : Step s := by
  rw [← String.append_empty (s := s)]
  exact h.step_append (by decide)

theorem Word.dotted (h : Word name) : Dotted name := by
  unfold Dotted
  rw [FilePath.splitOnChar_of_not_mem (h.not_mem (by decide))]
  exact List.forall_mem_singleton.mpr h

theorem Dotted.concat {package : String} (hpackage : Dotted package) (h : Word name) :
    Dotted (package ++ "." ++ name) := by
  unfold Dotted
  rw [show package ++ "." ++ name = package ++ String.singleton '.' ++ name from rfl,
    FilePath.splitOnChar_append]
  exact List.forall_mem_append.mpr ⟨hpackage, h.dotted⟩

/-- A name is the words of its package, if there are any, and a last one. -/
theorem Dotted.split (h : Dotted name) : ∃ package last,
    FilePath.splitOnChar '.' name = package ++ [last] ∧ (∀ s ∈ package, Word s) ∧ Word last := by
  obtain ⟨package, last, hsplit⟩ :=
    (List.eq_nil_or_concat _).resolve_left (FilePath.splitOnChar_ne_nil '.' name)
  rw [Dotted, hsplit, List.concat_eq_append, List.forall_mem_append, List.forall_mem_singleton] at h
  exact ⟨package, last, hsplit.trans List.concat_eq_append, h⟩

section

variable (h : Dotted name) (hextension : '/' ∉ extension.toList)

include h hextension

end

section

variable {t t' : FileTree} {place place' : List String}

end

/-! ## The names of artifacts -/

theorem UnitTree.dotted_of_parse {source text : String} {tree : UnitTree}
    (h : UnitTree.parse source text = .ok tree) {unit : Nat} {d : DeclaredClass}
    (hd : d ∈ tree.declared unit) : Dotted d.binary := by
  have hreads : tree.ReadBack :=
    (Parse.Yields.of_parse (fun fuel => Parse.rereads_unit fuel source) h).2
  obtain ⟨name, hname, -, hbinary⟩ := (UnitTree.parsed_of_parse h).named d hd
  have hbinary : d.binary = d.package.elim "" (· ++ ".") ++ name := hbinary
  rw [hbinary, UnitTree.package_of_mem_declared hd, UnitTree.packageName?]
  cases hpath : tree.package with
  | none =>
      rw [Option.map_none, Option.elim_none, String.empty_append]
      exact hname.dotted
  | some path =>
      have hreadable := hreads.package path hpath
      rw [Option.map_some, Option.elim_some]
      refine Dotted.concat (fun s hs => ?_) hname
      have hsegments : FilePath.splitOnChar '.' path.text = path.segments :=
        FilePath.splitOnChar_intercalate hreadable.segments fun s hs =>
          (hreadable.idents s hs).word.not_mem (by decide)
      exact (hreadable.idents s (hsegments ▸ hs)).word

theorem SourceEntry.Reads.dotted {files : FileTree} {e : SourceEntry} (h : e.Reads files)
    {unit : Nat} {d : DeclaredClass} (hd : d ∈ e.tree.declared unit) : Dotted d.binary := by
  obtain ⟨text, tree, hparse, d', hd', heq⟩ := h.declared hd
  rw [← (DeclaredClass.eq_of_skeleton heq).2.1]
  exact UnitTree.dotted_of_parse hparse hd'

namespace Compiler

variable {c : Compiler} {files : FileTree} {registries : ClassRegistries} {paths : CompilePaths}
  {units : List CompilationUnit} {u : Session ClassRegistries} {map : ArtifactMap}

theorem Ran.written (h : c.Ran files registries paths units u map) :
    map = u.written ∧ map.names.Nodup := by
  obtain ⟨options, -, hcall⟩ := h.call
  obtain ⟨_, _, -, hb, -, -⟩ := CompilationTask.call_makes hcall
  obtain ⟨hwritten, hnodup⟩ := CompilationTask.artifacts_in_memory hcall (hb.mp rfl)
  rw [h.artifacts, hwritten]
  exact ⟨rfl, hnodup⟩

/-- What a compiler gives are artifacts of the classes whose names they have. -/
theorem Ran.artifact (h : c.Ran files registries paths units u map) : ∀ p ∈ map,
    Dotted p.1 ∧ ∃ file, ClassFile.decode p.2 = .ok file ∧ file.name = p.1 := by
  obtain ⟨options, -, hcall⟩ := h.call
  obtain ⟨_, _, -, hb, -, -⟩ := CompilationTask.call_makes hcall
  have hclean : u.log.Clean := hb.mp rfl
  obtain ⟨-, hwrote⟩ := CompilationTask.call_wrote hcall (.inl hclean)
  rw [h.written.1]
  rintro p hp
  obtain ⟨o, ho, rfl⟩ := List.mem_map.mp hp
  obtain ⟨d, -, symbol, file, hmade⟩ := exists_of_mem_right hwrote ho
  obtain ⟨e, he, hd⟩ := hmade.declares
  have hreads := CompilationTask.reads_of_call hcall (.inl hclean) e (List.mem_of_getElem? he)
  obtain ⟨pool, hdecode, -⟩ := ClassDecl.decode_links hmade.made hmade.encoded
  have hheader := d.classFile_header hmade.entered hmade.made
  exact ⟨hmade.name ▸ hreads.dotted hd, _, hdecode, hheader.1.trans hmade.name.symm⟩

end Compiler

/-! ## Artifacts that are found again -/

theorem CompilationUnit.bytes_ofFile (t u : FileTree) (path : String) (kind : UnitKind) :
    (ofFile t path kind).bytes u = u.read path :=
  rfl

/-- Whether a session looks for artifacts in one directory of a tree and nowhere else. -/
structure Session.LooksIn {σ : Type} (v : Session σ) (t : FileTree) (dir : String) : Prop where
  files : v.files = t
  dirs : v.store.locations.searchDirs .classPath = [dir]

namespace Session

variable {σ : Type} {v : Session σ} {t : FileTree} {bytes : Bytes}

/-- A task whose class path is one directory looks for artifacts there. -/
theorem looksIn_setLocations {task : CompilationTask σ} (h : task.options.classPath = some [dir])
    (t : FileTree) (store : UnitStore) (state : σ) :
    (SessionM.setLocations.run.run (task.session t store state)).2.LooksIn t dir := by
  refine ⟨rfl, ?_⟩
  show ((task.options.classPath.elim _ (UnitStore.setLocation _ .classPath)).locations.searchDirs
    .classPath) = [dir]
  rw [h]
  rfl

/-- A session finds the artifact that stands where it looks. -/
theorem LooksIn.input (h : v.LooksIn t dir)
    (hread : t.read (FilePath.join dir (typePath name .artifact)) = .ok bytes) :
    (SessionM.input .classPath name .artifact).run.run v =
      (.ok (some (.ofFile t (FilePath.join dir (typePath name .artifact)) .artifact)), v) := by
  have hfind : v.store.findInput v.files .classPath name .artifact =
      some (.ofFile t (FilePath.join dir (typePath name .artifact)) .artifact) := by
    rw [UnitStore.findInput, h.dirs, h.files, List.map_singleton]
    simp [FileTree.isFile_of_read hread]
  have hinput : v.store.input v.files .classPath name .artifact =
      (.ok (some (.ofFile t (FilePath.join dir (typePath name .artifact)) .artifact)), v.store) := by
    rw [UnitStore.input, hfind]
    cases v.store.memory <;> rfl
  unfold SessionM.input
  rw [SessionM.run_get_bind, hinput]
  rfl

/-- A session that does not know the class there enters it as its bytes tell. -/
theorem LooksIn.loadArtifact {file : ClassFile} (h : v.LooksIn t dir)
    (hread : t.read (FilePath.join dir (typePath name .artifact)) = .ok bytes)
    (hdecode : ClassFile.decode bytes = .ok file) (hname : file.name = name)
    (hnew : v.symbols.has name = false) :
    (SessionM.loadArtifact name).run.run v =
      (.ok true, { v with symbols := v.symbols ++ [(name, file.symbol)] }) := by
  have hinsert : v.symbols.insert? file.symbol = some (v.symbols ++ [(name, file.symbol)]) := by
    subst hname
    exact if_neg (Bool.eq_false_iff.mp hnew)
  have hinput := h.input hread
  obtain ⟨rfl, -⟩ := h
  unfold SessionM.loadArtifact
  rw [SessionM.run_bind_ok hinput]
  dsimp only
  rw [SessionM.run_get_bind, CompilationUnit.bytes_ofFile, hread, SessionM.ofIo, pure_bind, hdecode]
  dsimp only
  rw [if_pos hname, SessionM.run_get_bind, hinsert]
  rfl

end Session

/-- A compiler that is given one directory as its class path looks for artifacts there. -/
theorem Compiler.looksIn_setLocations {paths : CompilePaths} {options : Options}
    (hoptions : Options.ofList (taskOptions paths) = .ok options)
    (hpaths : paths.classes = some dir) (hne : dir ≠ "") (hcolon : ':' ∉ dir.toList)
    (c : Compiler) (files : FileTree) (registries : ClassRegistries)
    (units : List CompilationUnit) :
    (SessionM.setLocations.run.run ((c.task options units).session files
      (.inMemory c.includes) registries)).2.LooksIn files dir := by
  refine Session.looksIn_setLocations ?_ _ _ _
  have hdirs : Options.splitDirs dir = [dir] := by
    rw [Options.splitDirs, FilePath.splitOnChar_of_not_mem hcolon]
    simp [hne]
  unfold Options.ofList taskOptions at hoptions
  rw [hpaths, Option.map_some, Option.toList_some, List.foldl_append] at hoptions
  dsimp only at hoptions
  split at hoptions
  · cases hoptions
  · cases hoptions
    exact congrArg some hdirs

namespace ArtifactMap

variable {map : ArtifactMap}

/-- Whether the files of artifacts below a directory are apart from one another, so that each holds its
own artifact once all have been written. -/
structure Apart (map : ArtifactMap) (dir extension : String) : Prop where
  /-- No path is that of another artifact or a directory above it. -/
  paths : ∀ name ∈ map.names, ∀ name' ∈ map.names, name ≠ name' →
    artifactPath dir name extension ≠ artifactPath dir name' extension ∧
      ¬ segments (artifactPath dir name extension) <+:
        segments (artifactPath dir name' extension)
  /-- Nor does it lead to the place of another artifact or to one above it, in any tree. -/
  places : ∀ name ∈ map.names, ∀ name' ∈ map.names, name ≠ name' →
    ∀ {t : FileTree} {place place' : List String},
      t.resolve (artifactPath dir name extension) = .ok place →
        t.resolve (artifactPath dir name' extension) = .ok place' → ¬ place <+: place'
  holds : ∀ {t t' : FileTree} {written : List WrittenArtifact},
    writeArtifacts t map dir extension = (.ok written, t') →
      ∀ p ∈ map, t'.read (artifactPath dir p.1 extension) = .ok p.2

end ArtifactMap

namespace Compiler

variable {c : Compiler} {files : FileTree} {registries : ClassRegistries} {sink : DiagnosticSink}
  {paths : CompilePaths} {map : ArtifactMap}

end Compiler

-- A class that uses one that has been written is compiled against its artifact.
example :
    let library : CompileRequest := .source "Util.probe"
      "package a.b; public class Util \x7b public static int two() \x7b return 2; \x7d \x7d"
    let main : CompileRequest := .source "Main.probe"
      "import a.b.*; class Main \x7b static int f() \x7b return Util.two(); \x7d \x7d"
    ((({} : Compiler).compile .empty [] {} {} library).result.toOption.bind id).map (fun map =>
        (({} : Compiler).compile (writeBehind "out" "class" [] .empty map).2 [] {}
          ⟨none, some "out"⟩ main).result.toOption.map (Option.map Table.names)) =
      some (some (some ["Main"])) := by
  decide +kernel

end ProbeLang
