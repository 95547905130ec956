import Mathlib.Data.Finset.Card
import ProbeLang.Analysis.Completion
import ProbeLang.Proofs.Table

/-!
# The classes around a class

The classes around a class are looked up one by one under the names that symbols give. No more of
them are different than there are symbols, so the fuel of `SymbolTable.enclosing?` runs out exactly
if they go on for ever. Where every class has a longer name than the class around it, they do not.
-/

namespace ProbeLang

namespace SymbolTable

variable {t t' : SymbolTable} {cls : String}

/-- The class that stands so many classes further out than a class. -/
def outers (t : SymbolTable) (cls : String) : Nat → Option String
  | 0 => some cls
  | n + 1 => (t.outers cls n).bind t.outer?

/-- Whether the classes around a class go on for ever. -/
def Endless (t : SymbolTable) (cls : String) : Prop :=
  ∀ n, (t.outers cls n).isSome = true

theorem outers_succ (t : SymbolTable) (cls : String) (n : Nat) :
    t.outers cls (n + 1) = (t.outers cls n).bind t.outer? :=
  rfl

theorem outers_add (t : SymbolTable) (cls : String) (m n : Nat) :
    t.outers cls (m + n) = (t.outers cls m).bind fun outer => t.outers outer n := by
  induction n with
  | zero => exact (Option.bind_fun_some _).symm
  | succ n ih =>
      rw [← Nat.add_assoc, outers_succ, ih]
      exact Option.bind_assoc _ _ _

theorem outers_of_le {m n : Nat} (hmn : m ≤ n) (h : (t.outers cls n).isSome = true) :
    (t.outers cls m).isSome = true := by
  obtain ⟨k, rfl⟩ := Nat.exists_eq_add_of_le hmn
  rw [outers_add] at h
  exact Option.isSome_of_isSome_bind h

/-- A class with a class around it is in the table. -/
theorem mem_names_of_outer? {outer : String} (h : t.outer? cls = some outer) : cls ∈ t.names := by
  obtain ⟨c, hc, -⟩ := Option.bind_eq_some_iff.mp h
  exact Table.has_iff_mem_names.mp (Table.has_eq_true.mpr ⟨c, hc⟩)

/-- Classes that go on for longer than the table has names go round in a circle. -/
theorem endless_iff : t.Endless cls ↔ (t.outers cls (t.length + 1)).isSome = true := by
  refine ⟨fun h => h _, fun h n => ?_⟩
  have hmaps : Set.MapsTo (t.outers cls) (Finset.range (t.length + 1))
      (t.names.map some).toFinset := by
    intro k hk
    have hsucc := outers_of_le (Nat.succ_le_of_lt (Finset.mem_range.mp hk)) h
    obtain ⟨outer, houter⟩ := Option.isSome_iff_exists.mp hsucc
    obtain ⟨name, hname, houter⟩ := Option.bind_eq_some_iff.mp houter
    rw [hname]
    exact List.mem_toFinset.mpr (List.mem_map_of_mem (mem_names_of_outer? houter))
  have hcard : (t.names.map some).toFinset.card < (Finset.range (t.length + 1)).card := by
    rw [Finset.card_range, Nat.lt_succ_iff]
    refine Nat.le_trans (List.toFinset_card_le _) ?_
    rw [List.length_map, Table.names, List.length_map]
  obtain ⟨i, hi, j, hj, hne, hsame⟩ := Finset.exists_ne_map_eq_of_card_lt_of_maps_to hcard hmaps
  have hturn : ∃ i k, t.outers cls i = t.outers cls (i + (k + 1)) ∧ i + k < t.length + 1 := by
    rcases Nat.lt_or_gt_of_ne hne with hlt | hlt
    · refine ⟨i, j - i - 1, ?_, ?_⟩
      · rw [hsame]
        congr 1
        omega
      · have := Finset.mem_range.mp hj
        omega
    · refine ⟨j, i - j - 1, ?_, ?_⟩
      · rw [← hsame]
        congr 1
        omega
      · have := Finset.mem_range.mp hi
        omega
  obtain ⟨i, k, hturn, hk⟩ := hturn
  -- What lies behind the circle has been met one turn before.
  induction n using Nat.strong_induction_on with
  | _ n ih =>
      by_cases hn : n ≤ t.length + 1
      · exact outers_of_le hn h
      · have hback : t.outers cls n = t.outers cls (n - (k + 1)) := by
          have hsplit := outers_add t cls (i + (k + 1)) (n - (i + (k + 1)))
          rw [← hturn, ← outers_add] at hsplit
          rw [show i + (k + 1) + (n - (i + (k + 1))) = n by omega] at hsplit
          rw [hsplit]
          congr 1
          omega
        rw [hback]
        exact ih _ (by omega)

theorem enclosing?_eq_none_iff : ∀ {fuel : Nat} {cls : String},
    t.enclosing? fuel cls = none ↔ (t.outers cls fuel).isSome = true
  | 0, _ => ⟨fun _ => rfl, fun _ => rfl⟩
  | fuel + 1, cls => by
      rw [enclosing?, Nat.add_comm, outers_add, outers_succ]
      show _ ↔ (Option.bind (t.outer? cls) _).isSome = true
      cases t.outer? cls with
      | none => simp
      | some outer =>
          rw [Option.bind_some, ← enclosing?_eq_none_iff]
          exact Option.map_eq_none_iff

/-- The fuel for the classes around a class runs out exactly if they go on for ever. -/
theorem enclosing?_eq_none : t.enclosing? (t.length + 1) cls = none ↔ t.Endless cls :=
  enclosing?_eq_none_iff.trans endless_iff.symm

/-! ## Names that grow -/

/-- Whether every class has a longer name than the class around it. -/
def Nested (t : SymbolTable) : Prop :=
  ∀ p ∈ t, ∀ outer, p.2.outer = some outer → outer.length < p.1.length

theorem Nested.not_endless (h : t.Nested) : ¬ t.Endless cls := by
  have hlonger : ∀ n outer, t.outers cls n = some outer → outer.length + n ≤ cls.length := by
    intro n
    induction n with
    | zero =>
        intro outer houter
        cases houter
        exact Nat.le_refl _
    | succ n ih =>
        intro outer houter
        obtain ⟨name, hname, houter⟩ := Option.bind_eq_some_iff.mp houter
        obtain ⟨c, hc, houter⟩ := Option.bind_eq_some_iff.mp houter
        have hlt : outer.length < name.length := h _ (Table.mem_of_find? hc) _ houter
        have hle := ih _ hname
        omega
  intro hendless
  obtain ⟨outer, houter⟩ := Option.isSome_iff_exists.mp (hendless (cls.length + 1))
  have := hlonger _ _ houter
  omega

theorem nested_builtins : builtins.Nested := by
  unfold Nested builtins
  simp [ClassSymbol.ofBuiltin]

/-- Changing what is in a class leaves the classes around it as they are. -/
theorem Nested.modify {cls : String} {f : ClassSymbol → ClassSymbol} (h : t.Nested)
    (hf : ∀ c, (f c).outer = c.outer) : Nested (t.modify cls f) := by
  intro p hp outer houter
  obtain ⟨⟨name, c⟩, hc, rfl⟩ := List.mem_map.mp hp
  dsimp only at houter ⊢
  split at houter
  · next hname =>
      rw [if_pos hname]
      rw [hf] at houter
      exact h _ hc _ houter
  · next hname =>
      rw [if_neg hname]
      exact h _ hc _ houter

end SymbolTable

end ProbeLang
