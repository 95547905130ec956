import Mathlib.Data.List.Forall2

/-!
# Related lists

Lists whose elements are related one for one.
-/

namespace ProbeLang

variable {α β γ : Type} {R : α → β → Prop} {as : List α} {bs : List β}

/-- What stands in the second of two related lists is related to something in the first. -/
theorem exists_of_mem_right (h : List.Forall₂ R as bs) {b : β} (hb : b ∈ bs) :
    ∃ a ∈ as, R a b := by
  induction h with
  | nil => cases hb
  | cons hab _ ih =>
      rcases List.mem_cons.mp hb with rfl | hb
      · exact ⟨_, List.mem_cons_self, hab⟩
      · obtain ⟨a, ha, hab⟩ := ih hb
        exact ⟨a, List.mem_cons_of_mem _ ha, hab⟩

/-- What stands in the first of two related lists is related to something in the second. -/
theorem exists_of_mem_left (h : List.Forall₂ R as bs) {a : α} (ha : a ∈ as) : ∃ b ∈ bs, R a b :=
  exists_of_mem_right h.flip ha

/-- Lists that are related to the same list are related. -/
theorem forall₂_trans {cs : List γ} {S : β → γ → Prop} {T : α → γ → Prop}
    (h : List.Forall₂ R as bs) (h' : List.Forall₂ S bs cs)
    (hT : ∀ a b c, R a b → S b c → T a c) : List.Forall₂ T as cs := by
  induction h generalizing cs with
  | nil =>
      cases h'
      exact .nil
  | cons hab _ ih =>
      obtain - | ⟨hbc, hrest⟩ := h'
      exact .cons (hT _ _ _ hab hbc) (ih hrest)

/-- Elements of the same place are related. -/
theorem exists_getElem?_of_forall₂ (h : List.Forall₂ R as bs) {i : Nat} {b : β}
    (hb : bs[i]? = some b) : ∃ a, as[i]? = some a ∧ R a b := by
  induction h generalizing i with
  | nil => cases hb
  | cons hab _ ih =>
      cases i with
      | zero =>
          cases hb
          exact ⟨_, rfl, hab⟩
      | succ i => exact ih hb

/-- Related elements that are made into the same give the same list. -/
theorem map_eq_of_forall₂ {f : α → γ} {g : β → γ} (h : List.Forall₂ R as bs)
    (heq : ∀ a b, R a b → f a = g b) : as.map f = bs.map g := by
  induction h with
  | nil => rfl
  | cons hab _ ih => rw [List.map_cons, List.map_cons, heq _ _ hab, ih]

/-- Related elements of which the same is kept give the same list. -/
theorem filterMap_eq_of_forall₂ {f : α → Option γ} {g : β → Option γ} (h : List.Forall₂ R as bs)
    (heq : ∀ a b, R a b → f a = g b) : as.filterMap f = bs.filterMap g := by
  induction h with
  | nil => rfl
  | cons hab _ ih => rw [List.filterMap_cons, List.filterMap_cons, heq _ _ hab, ih]

/-- Pairs of related elements that give back the first of them. -/
theorem filterMap_zip_of_forall₂ {f : β × α → Option α} (h : List.Forall₂ R as bs)
    (hf : ∀ b ∈ bs, ∀ a, R a b → f (b, a) = some a) : (bs.zip as).filterMap f = as := by
  induction h with
  | nil => rfl
  | cons hab _ ih =>
      obtain ⟨hb, hf⟩ := List.forall_mem_cons.mp hf
      rw [List.zip_cons_cons, List.filterMap_cons_some (hb _ hab), ih hf]

/-- Changing an element of a list keeps it related to another list if that of the element does. -/
theorem forall₂_modify {f : β → β} (h : List.Forall₂ R as bs) {i : Nat}
    (hf : ∀ a b, R a b → bs[i]? = some b → R a (f b)) : List.Forall₂ R as (bs.modify i f) := by
  induction h generalizing i with
  | nil =>
      rw [List.modify_nil]
      exact .nil
  | cons hab hrest ih =>
      cases i with
      | zero => exact .cons (hf _ _ hab rfl) hrest
      | succ i => exact .cons hab (ih fun a b hr hb => hf a b hr hb)

end ProbeLang
