import ProbeLang.Table

/-!
# Looking names up

What is found under a name in a table that has been changed.
-/

namespace ProbeLang

namespace Table

variable {α β : Type}

theorem find?_append (t t' : Table α) (name : String) :
    find? (t ++ t') name = (t.find? name).or (t'.find? name) := by
  induction t with
  | nil => rfl
  | cons p t ih =>
      rw [List.cons_append, find?_cons, find?_cons, ih]
      split <;> rfl

theorem find?_map (t : Table α) (f : α → β) (name : String) :
    find? (t.map fun (key, a) => (key, f a)) name = (t.find? name).map f := by
  induction t with
  | nil => rfl
  | cons p t ih =>
      rw [List.map_cons, find?_cons, find?_cons, ih]
      split <;> rfl

theorem find?_modify (t : Table α) (key : String) (f : α → α) (name : String) :
    (t.modify key f).find? name = if name = key then (t.find? name).map f else t.find? name := by
  induction t with
  | nil => simp [modify]
  | cons p t ih =>
      obtain ⟨k, a⟩ := p
      unfold modify at ih ⊢
      by_cases hk : k = key
      · by_cases hn : name = key
        · simp [find?_cons, hk, hn]
        · simp [find?_cons, ih, hk, hn]
      · by_cases hn : name = k
        · simp [find?_cons, hn, hk]
        · simp [find?_cons, ih, hk, hn]

theorem modify_cons (name : String) (a : α) (t : Table α) (key : String) (f : α → α) :
    modify ((name, a) :: t) key f = (name, if name = key then f a else a) :: t.modify key f := by
  unfold modify
  rw [List.map_cons]
  by_cases h : name = key
  · simp only [h, if_true]
  · simp only [h, if_false]

theorem names_modify (t : Table α) (key : String) (f : α → α) :
    (t.modify key f).names = t.names := by
  induction t with
  | nil => rfl
  | cons p t ih =>
      rw [modify_cons, names, List.map_cons]
      exact congrArg (p.1 :: ·) ih

theorem mem_of_find? {t : Table α} {name : String} {a : α} (h : t.find? name = some a) :
    (name, a) ∈ t := by
  induction t with
  | nil => cases h
  | cons p t ih =>
      rw [find?_cons] at h
      split at h
      · next hp =>
          cases h
          exact hp ▸ List.mem_cons_self
      · exact List.mem_cons_of_mem _ (ih h)

theorem has_eq_true {t : Table α} {name : String} :
    t.has name = true ↔ ∃ a, t.find? name = some a :=
  Option.isSome_iff_exists

theorem has_eq_false {t : Table α} {name : String} :
    t.has name = false ↔ t.find? name = none := by
  unfold has
  rw [Option.isSome_eq_false_iff, Option.isNone_iff_eq_none]

theorem has_iff_mem_names {t : Table α} {name : String} : t.has name = true ↔ name ∈ t.names := by
  unfold names
  induction t with
  | nil => simp [has]
  | cons p t ih =>
      obtain ⟨k, a⟩ := p
      simp only [has, find?_cons, List.map_cons, List.mem_cons] at ih ⊢
      split
      · next h => simp [h]
      · next h => simp only [ih, h, false_or]

theorem put_of_has_eq_false {t : Table α} {name : String} {a : α} (h : t.has name = false) :
    t.put name a = t ++ [(name, a)] := by
  unfold put
  rw [if_neg (by simp [h])]

theorem find?_put (t : Table α) (key : String) (a : α) (name : String) :
    (t.put key a).find? name = if name = key then some a else t.find? name := by
  unfold put
  split
  · next hkey =>
      obtain ⟨b, hb⟩ := has_eq_true.mp hkey
      rw [find?_modify]
      split
      · next hname => rw [hname, hb, Option.map_some]
      · rfl
  · next hkey =>
      rw [find?_append, find?_cons, find?_nil]
      split
      · next hname =>
          rw [hname, has_eq_false.mp (Bool.eq_false_iff.mpr hkey), Option.none_or]
      · rw [Option.or_none]

theorem names_nodup_put {t : Table α} (ht : t.names.Nodup) (key : String) (a : α) :
    (t.put key a).names.Nodup := by
  unfold put
  split
  · rwa [names_modify]
  · next hkey =>
      have hnew : key ∉ t.names := fun hmem => hkey (has_iff_mem_names.mpr hmem)
      rw [names, List.map_append]
      refine List.nodup_append.mpr ⟨ht, by simp, ?_⟩
      intro name hname other hother heq
      rw [List.map_singleton, List.mem_singleton] at hother
      exact hnew (by rwa [heq, hother] at hname)

theorem names_put_subset (t : Table α) (key : String) (a : α) :
    (t.put key a).names ⊆ t.names ++ [key] := by
  unfold put
  split
  · rw [names_modify]
    exact List.subset_append_left _ _
  · rw [names, List.map_append]
    exact List.Subset.refl _

/-- Values that are put under new names stand behind the others. -/
theorem foldl_put_of_nodup : ∀ (as t : Table α), (t ++ as).names.Nodup →
    as.foldl (fun t p => t.put p.1 p.2) t = t ++ as
  | [], t, _ => (List.append_nil t).symm
  | (name, a) :: as, t, h => by
      have hnew : t.has name = false := by
        refine Bool.eq_false_iff.mpr fun hmem => ?_
        rw [names, List.map_append] at h
        exact (List.nodup_append.mp h).2.2 _ (has_iff_mem_names.mp hmem) _ List.mem_cons_self rfl
      rw [List.append_cons] at h
      rw [List.foldl_cons, put_of_has_eq_false hnew, foldl_put_of_nodup as _ h, ← List.append_cons]

end Table

end ProbeLang
