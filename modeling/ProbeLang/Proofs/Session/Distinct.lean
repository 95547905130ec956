import Mathlib.Data.List.Nodup
import ProbeLang.Proofs.Analysis.Completion

/-!
# Different classes have different names

In a sound session every declared class has a symbol of its own, so no two declared classes have
the same name, and there are no more top-level classes than names.
-/

namespace ProbeLang

/-- The classes that are declared in units, the first of which has the given number. -/
def declaredClasses (unit : Nat) : List SourceEntry → List DeclaredClass
  | [] => []
  | e :: rest => e.tree.declared unit ++ declaredClasses (unit + 1) rest

theorem mem_declaredClasses : ∀ {es : List SourceEntry} {unit : Nat} {d : DeclaredClass},
    d ∈ declaredClasses unit es ↔
      ∃ (i : Nat) (e : SourceEntry), es[i]? = some e ∧ d.unit = unit + i ∧
        d ∈ e.tree.declared (unit + i)
  | [], unit, d => by simp [declaredClasses]
  | e :: rest, unit, d => by
      rw [declaredClasses, List.mem_append, mem_declaredClasses]
      constructor
      · rintro (h | ⟨i, e', he', hunit, hd⟩)
        · exact ⟨0, e, rfl, (UnitTree.at?_of_mem_declared h).2, h⟩
        · rw [Nat.add_right_comm] at hunit hd
          exact ⟨i + 1, e', he', hunit, hd⟩
      · rintro ⟨_ | i, e', he', hunit, hd⟩
        · cases he'
          exact .inl hd
        · refine .inr ⟨i, e', he', ?_⟩
          rw [Nat.add_right_comm]
          exact ⟨hunit, hd⟩

theorem binary_declaredClasses (unit : Nat) (es : List SourceEntry) :
    (declaredClasses unit es).map DeclaredClass.binary = es.flatMap fun e => e.tree.binaryNames := by
  induction es generalizing unit with
  | nil => rfl
  | cons e rest ih =>
      rw [declaredClasses, List.map_append, UnitTree.binary_declared, ih, List.flatMap_cons]

/-- Different classes stand at different places. -/
theorem nodup_origins (unit : Nat) (es : List SourceEntry) :
    ((declaredClasses unit es).map fun d => (d.unit, d.place)).Nodup := by
  induction es generalizing unit with
  | nil => exact List.nodup_nil
  | cons e rest ih =>
      rw [declaredClasses, List.map_append]
      refine List.Nodup.append ?_ (ih (unit + 1)) fun p hp hp' => ?_
      · refine List.Nodup.of_map Prod.snd ?_
        rw [List.map_map]
        exact e.tree.nodup_places
      · obtain ⟨d, hd, rfl⟩ := List.mem_map.mp hp
        obtain ⟨d', hd', heq⟩ := List.mem_map.mp hp'
        obtain ⟨i, e', -, hunit, -⟩ := mem_declaredClasses.mp hd'
        have hsame := (Prod.mk.inj heq).1
        rw [(UnitTree.at?_of_mem_declared hd).2, hunit] at hsame
        omega

theorem length_topClasses_le (unit : Nat) (es : List SourceEntry) :
    (topClasses unit es).length ≤ (es.flatMap fun e => e.tree.binaryNames).length := by
  induction es generalizing unit with
  | nil => exact Nat.le_refl _
  | cons e rest ih =>
      have htypes : e.tree.types.length ≤ e.tree.binaryNames.length := by
        unfold UnitTree.binaryNames
        induction e.tree.types with
        | nil => exact Nat.le_refl _
        | cons c cs ih =>
            obtain ⟨name, modifiers, superclass, members, pos⟩ := c
            simp only [List.flatMap_cons, List.length_append, List.length_cons,
              ClassDecl.binaryNames]
            omega
      simp only [topClasses, List.length_append, List.length_map, List.length_range,
        List.flatMap_cons]
      exact Nat.add_le_add htypes (ih (unit + 1))

namespace Session

variable {σ : Type} {s : Session σ}

theorem declares_iff {d : DeclaredClass} : s.Declares d ↔ d ∈ declaredClasses 0 s.sources := by
  rw [mem_declaredClasses]
  constructor
  · rintro ⟨e, he, hd⟩
    refine ⟨d.unit, e, he, (Nat.zero_add _).symm, ?_⟩
    rwa [Nat.zero_add]
  · rintro ⟨i, e, he, hunit, hd⟩
    rw [Nat.zero_add] at hunit hd
    subst hunit
    exact ⟨e, he, hd⟩

/-- Declared classes of a sound session that have the same name stand at the same place. -/
theorem Sound.place_eq (hs : s.Sound) {d d' : DeclaredClass} (hd : s.Declares d)
    (hd' : s.Declares d') (hname : d.binary = d'.binary) :
    (d.unit, d.place) = (d'.unit, d'.place) := by
  obtain ⟨c, hc, hentered⟩ := hs.declared hd
  obtain ⟨c', hc', hentered'⟩ := hs.declared hd'
  rw [hname, hc'] at hc
  cases hc
  have horigin := congrArg ClassSymbol.origin (hentered.symm.trans hentered')
  simpa [DeclaredClass.symbol] using horigin

/-- No two declared classes of a sound session have the same name. -/
theorem Sound.nodup_names (hs : s.Sound) :
    (s.sources.flatMap fun e => e.tree.binaryNames).Nodup := by
  have horigins := nodup_origins 0 s.sources
  rw [← binary_declaredClasses 0]
  refine List.Nodup.map_on (fun d hd d' hd' hname => ?_) horigins.of_map
  exact List.inj_on_of_nodup_map horigins hd hd'
    (hs.place_eq (declares_iff.mpr hd) (declares_iff.mpr hd') hname)

/-- No two member types of a declared class have the same name. -/
theorem Sound.nodup_memberTypes (hs : s.Sound) {d : DeclaredClass} (hd : s.Declares d) :
    d.memberTypes.names.Nodup := by
  obtain ⟨e, he, hmem⟩ := hd
  have hnames : d.memberTypes.names = d.decl.nested.map fun c => c.name.name := by
    rw [Table.names, DeclaredClass.memberTypes, List.map_map]
    rfl
  rw [hnames, List.Nodup, List.pairwise_map, ClassDecl.pairwise_nested, List.pairwise_iff_getElem]
  intro i j hi hj hij c c' hc hc' hname
  have hmember {k : Nat} (hk : k < d.decl.members.length) {c : ClassDecl}
      (hc : d.decl.members[k] = .type c) : s.Declares (d.member k c) :=
    ⟨e, he, UnitTree.member_mem_declared hmem (hc ▸ List.getElem?_eq_getElem hk)⟩
  have hplace := hs.place_eq (hmember hi hc) (hmember hj hc') (by
    show d.binary ++ "$" ++ c.name.name = d.binary ++ "$" ++ c'.name.name
    rw [hname])
  have hnumber := List.append_cancel_left (Prod.mk.inj hplace).2
  exact absurd (List.cons.inj hnumber).1 (Nat.ne_of_lt hij)

end Session

end ProbeLang
