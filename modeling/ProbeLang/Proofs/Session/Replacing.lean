import ProbeLang.Analysis.Class
import ProbeLang.Proofs.Session.Soundness

/-!
# Analysed trees

The tree of a unit is replaced each time one of its classes has been analysed. The new tree differs
from the old one in code only, so all that is known of the classes of a session stays true.
-/

namespace ProbeLang

theorem UnitTree.binaryNames_eq_of_skeleton {u u' : UnitTree} (h : u'.skeleton = u.skeleton) :
    u'.binaryNames = u.binaryNames := by
  have hnames (v : UnitTree) :
      v.binaryNames = (v.skeleton.declared 0).map DeclaredClass.binary := by
    rw [UnitTree.declared_skeleton, List.map_map, ← UnitTree.binary_declared 0]
    rfl
  rw [hnames, h, ← hnames]

theorem ClassDecl.binaryNames_eq_of_skeleton {c c' : ClassDecl} (h : c'.skeleton = c.skeleton)
    (binary : String) : c'.binaryNames binary = c.binaryNames binary := by
  have hnames (d : ClassDecl) : d.binaryNames binary =
      (d.skeleton.declared 0 none none [] binary).map DeclaredClass.binary := by
    rw [ClassDecl.declared_skeleton, List.map_map, ← ClassDecl.binary_declared]
    rfl
  rw [hnames, h, ← hnames]

/-- Replacing a class by one that differs in code only changes nothing but code. -/
theorem UnitTree.skeleton_set {u : UnitTree} {number : Nat} {decl decl' : ClassDecl}
    (hdecl : u.types[number]? = some decl) (h : decl'.skeleton = decl.skeleton) :
    UnitTree.skeleton { u with types := u.types.set number decl' } = u.skeleton := by
  unfold UnitTree.skeleton
  dsimp only
  rw [List.map_set, h]
  congr 1
  refine List.ext_getElem? fun i => ?_
  rw [List.getElem?_set]
  split
  · next hi =>
      subst hi
      split
      · rw [List.getElem?_map, hdecl]
        rfl
      · next hlt => exact (List.getElem?_eq_none (Nat.le_of_not_lt hlt)).symm
  · rfl

theorem DeclaredClass.eq_of_skeleton {d d' : DeclaredClass} (h : d'.skeleton = d.skeleton) :
    d'.unit = d.unit ∧ d'.binary = d.binary ∧ d'.symbol = d.symbol ∧
      d'.decl.skeleton = d.decl.skeleton := by
  have hsymbol : d'.symbol = d.symbol := by rw [← d'.symbol_skeleton, h, d.symbol_skeleton]
  cases d
  cases d'
  simp only [DeclaredClass.skeleton, DeclaredClass.mk.injEq] at h
  exact ⟨h.1, h.2.2.2.2.1, hsymbol, h.2.2.2.2.2⟩

namespace Session

variable {σ : Type} {s : Session σ}

/-- The session with another tree for a unit. -/
def withTree (s : Session σ) (unit : Nat) (tree : UnitTree) : Session σ :=
  { s with sources := s.sources.modify unit fun entry => { entry with tree } }

variable {unit : Nat} {e : SourceEntry} {tree : UnitTree}

theorem source_withTree (he : s.sources[unit]? = some e) (i : Nat) :
    (s.withTree unit tree).sources[i]? =
      if i = unit then some { e with tree } else s.sources[i]? := by
  unfold withTree
  dsimp only
  rw [List.getElem?_modify]
  split
  · next hi =>
      subst hi
      rw [if_pos rfl, he]
      rfl
  · next hi =>
      rw [if_neg (Ne.symm hi)]
      exact id_map _

/-- The classes that are declared are the same but for their code. -/
theorem declares_withTree (he : s.sources[unit]? = some e)
    (hskeleton : tree.skeleton = e.tree.skeleton) {d : DeclaredClass}
    (hd : (s.withTree unit tree).Declares d) : ∃ d', s.Declares d' ∧ d'.skeleton = d.skeleton := by
  obtain ⟨e', he', hd⟩ := hd
  rw [source_withTree he] at he'
  split at he'
  · next hunit =>
      cases he'
      have hmem : d.skeleton ∈ (tree.declared d.unit).map DeclaredClass.skeleton :=
        List.mem_map_of_mem hd
      rw [← UnitTree.declared_skeleton, hskeleton, UnitTree.declared_skeleton] at hmem
      obtain ⟨d', hd', heq⟩ := List.mem_map.mp hmem
      have hsame := (DeclaredClass.eq_of_skeleton heq).1
      refine ⟨d', ⟨e, by rw [hsame, hunit, he], ?_⟩, heq⟩
      rwa [hsame]
  · exact ⟨d, ⟨e', he', hd⟩, rfl⟩

theorem declares_of_withTree (he : s.sources[unit]? = some e)
    (hskeleton : tree.skeleton = e.tree.skeleton) {d : DeclaredClass} (hd : s.Declares d) :
    ∃ d', (s.withTree unit tree).Declares d' ∧ d'.skeleton = d.skeleton := by
  have hback : (s.withTree unit tree).withTree unit e.tree = s := by
    unfold withTree
    dsimp only
    rw [List.modify_modify_eq]
    have hsources : s.sources.modify unit ((fun entry => { entry with tree := e.tree }) ∘
        fun entry => { entry with tree }) = s.sources := by
      refine List.ext_getElem? fun i => ?_
      rw [List.getElem?_modify]
      split
      · next hi =>
          subst hi
          rw [he]
          rfl
      · exact id_map _
    rw [hsources]
  have he' : (s.withTree unit tree).sources[unit]? = some { e with tree } := by
    rw [source_withTree he, if_pos rfl]
  rw [← hback] at hd
  exact declares_withTree he' hskeleton.symm hd

/-- A sound session stays sound with a tree that differs in code only. -/
theorem Sound.withTree (hs : s.Sound) (he : s.sources[unit]? = some e)
    (hskeleton : tree.skeleton = e.tree.skeleton) : (s.withTree unit tree).Sound where
  declared hd := by
    obtain ⟨d', hd', heq⟩ := declares_withTree he hskeleton hd
    obtain ⟨c, hc, hentered⟩ := hs.declared hd'
    obtain ⟨-, hbinary, hsymbol, -⟩ := DeclaredClass.eq_of_skeleton heq
    exact ⟨c, hbinary ▸ hc, hentered.trans hsymbol⟩
  origin hc hsource := by
    obtain ⟨d, hd, hbinary, hentered, hwritten⟩ := hs.origin hc hsource
    obtain ⟨d', hd', heq⟩ := declares_of_withTree he hskeleton hd
    obtain ⟨-, hbinary', hsymbol, hdecl⟩ := DeclaredClass.eq_of_skeleton heq
    exact ⟨d', hd', hbinary'.trans hbinary, hentered.trans hsymbol.symm,
      fun h => (hwritten h).of_skeleton hdecl⟩
  builtin := hs.builtin
  named := hs.named
  known := hs.known
  staged := hs.staged

end Session

end ProbeLang
