import ProbeLang.Proofs.Tree.Declared

/-!
# The declarations that lead to a class

The numbers that lead to a class pass the classes around it, from the outside inwards. Their simple
names spell the binary name of the class, behind the package and with dollar signs between them, so
the name and the place of a declared class can be told from its trail alone.
-/

namespace ProbeLang

/-- The declarations from a class to the one that member numbers lead to. -/
def ClassDecl.trail? : ClassDecl → List Nat → Option (List ClassDecl)
  | c, [] => some [c]
  | c, i :: rest =>
      match c.members[i]? with
      | some (.type decl) => (decl.trail? rest).map (c :: ·)
      | _ => none

namespace UnitTree

/-- The declarations from a top-level class to the one that numbers lead to. -/
def trail? (u : UnitTree) : List Nat → Option (List ClassDecl)
  | [] => none
  | i :: rest => u.types[i]?.bind fun c => c.trail? rest

/-- The name that a trail spells: `package.Outer$...$Simple`. -/
def nameOf (u : UnitTree) (trail : List ClassDecl) : String :=
  u.packageName?.elim "" (· ++ ".") ++ "$".intercalate (trail.map fun c => c.name.name)

/-- The name of the class around the last class of a trail. -/
def outerOf (u : UnitTree) (trail : List ClassDecl) : Option String :=
  match trail.dropLast with
  | [] => none
  | above => some (u.nameOf above)

variable {u : UnitTree} {unit : Nat} {place : List Nat} {trail : List ClassDecl}

theorem nameOf_singleton (u : UnitTree) (c : ClassDecl) : u.nameOf [c] = u.binaryName c := by
  rw [nameOf, List.map_singleton, String.intercalate_singleton, binaryName]
  cases u.packageName? with
  | none => exact String.empty_append
  | some package => rfl

/-- The name of a member class: that of the class around it, a dollar sign and its simple name. -/
theorem nameOf_concat (u : UnitTree) (hne : trail ≠ []) (c : ClassDecl) :
    u.nameOf (trail ++ [c]) = u.nameOf trail ++ "$" ++ c.name.name := by
  have hnames : ∀ {names : List String} (name : String), names ≠ [] →
      "$".intercalate (names ++ [name]) = "$".intercalate names ++ "$" ++ name := by
    intro names name hne
    induction names with
    | nil => exact absurd rfl hne
    | cons first rest ih =>
        cases rest with
        | nil =>
            show "$".intercalate [first, name] = _
            rw [String.intercalate_cons_cons, String.intercalate_singleton,
              String.intercalate_singleton]
        | cons second rest =>
            have hrest := ih (List.cons_ne_nil _ _)
            rw [List.cons_append] at hrest
            rw [List.cons_append, List.cons_append, String.intercalate_cons_cons, hrest,
              String.intercalate_cons_cons]
            simp only [String.append_assoc]
  unfold nameOf
  rw [List.map_append, List.map_singleton, hnames _ (by simpa using hne)]
  simp only [String.append_assoc]

theorem outerOf_singleton (u : UnitTree) (c : ClassDecl) : u.outerOf [c] = none :=
  rfl

theorem outerOf_concat (u : UnitTree) (hne : trail ≠ []) (c : ClassDecl) :
    u.outerOf (trail ++ [c]) = some (u.nameOf trail) := by
  unfold outerOf
  rw [List.dropLast_concat]
  cases trail with
  | nil => exact absurd rfl hne
  | cons first rest => rfl

/-- A class that stands in a declared class is declared under the name that its trail spells. -/
theorem mem_declared_of_trail_below : ∀ (path : List Nat) (above : List ClassDecl)
    {place : List Nat} {c : ClassDecl} {trail : List ClassDecl},
    ⟨unit, u.packageName?, place, u.outerOf (above ++ [c]), u.nameOf (above ++ [c]), c⟩ ∈
      u.declared unit → c.trail? path = some trail →
    ∃ decl, trail.getLast? = some decl ∧
      ⟨unit, u.packageName?, place ++ path, u.outerOf (above ++ trail), u.nameOf (above ++ trail),
        decl⟩ ∈ u.declared unit
  | [], above, place, c, trail, hc, htrail => by
      rw [ClassDecl.trail?] at htrail
      cases htrail
      rw [List.append_nil]
      exact ⟨c, rfl, hc⟩
  | k :: rest, above, place, c, trail, hc, htrail => by
      rw [ClassDecl.trail?] at htrail
      split at htrail
      · next decl hk =>
          obtain ⟨below, hbelow, rfl⟩ := Option.map_eq_some_iff.mp htrail
          have hne : above ++ [c] ≠ [] := by simp
          have hmember := nested_mem_declared hc hk
          dsimp only at hmember
          rw [← nameOf_concat u hne, ← outerOf_concat u hne decl] at hmember
          obtain ⟨last, hlast, hmem⟩ := mem_declared_of_trail_below rest _ hmember hbelow
          rw [List.append_assoc, List.append_assoc, List.singleton_append,
            List.singleton_append] at hmem
          refine ⟨last, ?_, hmem⟩
          rw [List.getLast?_cons, hlast, Option.getD_some]
      · cases htrail

/-- A class is declared at its place, under the name that its trail spells. -/
theorem mem_declared_of_trail (unit : Nat) (h : u.trail? place = some trail) :
    ∃ decl, trail.getLast? = some decl ∧
      ⟨unit, u.packageName?, place, u.outerOf trail, u.nameOf trail, decl⟩ ∈ u.declared unit := by
  cases place with
  | nil => cases h
  | cons i rest =>
      obtain ⟨c, hc, htrail⟩ := Option.bind_eq_some_iff.mp h
      have htop : ⟨unit, u.packageName?, [i], none, u.binaryName c, c⟩ ∈ u.declared unit :=
        mem_declared_of_getElem? hc
      rw [← nameOf_singleton, ← outerOf_singleton u c] at htop
      exact mem_declared_of_trail_below rest [] htop htrail

end UnitTree

end ProbeLang
