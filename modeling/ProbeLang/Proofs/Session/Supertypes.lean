import ProbeLang.Proofs.Session.Signatures

/-!
# Classes and their superclasses

A chain of superclasses passes each class of the table at most once, so it does not depend on the
fuel that it is found with, and it holds the superclass of each class that it holds, also where
superclasses form a cycle. Two tables that tell the same of each class of a chain agree on the chain
and on all members that are found in it.
-/

namespace ProbeLang

namespace SymbolTable

variable {t t' : SymbolTable} {cls name : String}

/-! ## Superclasses -/

theorem length_names (t : SymbolTable) : (Table.names t).length = List.length t :=
  List.length_map _

/-- A chain ends in front of a class that has been passed. -/
theorem chainFrom_of_contains {fuel : Nat} {passed : List String}
    (hname : passed.contains name = true) : t.chainFrom (fuel + 1) passed name = [] := by
  simp only [chainFrom, if_pos hname]

theorem chainFrom_of_none {fuel : Nat} {passed : List String}
    (hname : ¬ passed.contains name = true) (hsuper : t.superclass? name = none) :
    t.chainFrom (fuel + 1) passed name = [name] := by
  simp only [chainFrom, if_neg hname, hsuper]

theorem chainFrom_of_some {fuel : Nat} {passed : List String} {above : String}
    (hname : ¬ passed.contains name = true) (hsuper : t.superclass? name = some above) :
    t.chainFrom (fuel + 1) passed name = name :: t.chainFrom fuel (name :: passed) above := by
  simp only [chainFrom, if_neg hname, hsuper]

/-- A chain starts with its class, unless that has been passed. -/
theorem mem_chainFrom_self {fuel : Nat} {passed : List String} :
    name ∈ t.chainFrom (fuel + 1) passed name ∨ name ∈ passed := by
  by_cases hname : passed.contains name = true
  · exact .inr (List.contains_iff_mem.mp hname)
  · cases hsuper : t.superclass? name with
    | none => exact .inl (chainFrom_of_none hname hsuper ▸ List.mem_cons_self)
    | some above => exact .inl (chainFrom_of_some hname hsuper ▸ List.mem_cons_self)

/-- Classes that have been passed leave fuel for one more if the fuel covers all others. -/
theorem lt_fuel {fuel : Nat} {passed names : List String} (hnodup : passed.Nodup)
    (hpassed : passed ⊆ names) (hfuel : names.length < passed.length + fuel) : 0 < fuel := by
  have hle := hnodup.length_le_of_subset hpassed
  omega

/-- What has been passed when a chain goes on to a superclass. -/
theorem passed_cons {passed : List String} {above : String} (hnodup : passed.Nodup)
    (hpassed : passed ⊆ t.names) (hname : ¬ passed.contains name = true)
    (hsuper : t.superclass? name = some above) :
    (name :: passed).Nodup ∧ name :: passed ⊆ t.names := by
  refine ⟨List.nodup_cons.mpr ⟨mt List.contains_iff_mem.mpr hname, hnodup⟩, ?_⟩
  obtain ⟨c, hc, -⟩ := Option.bind_eq_some_iff.mp hsuper
  exact List.cons_subset.mpr
    ⟨Table.has_iff_mem_names.mp (Table.has_eq_true.mpr ⟨c, hc⟩), hpassed⟩

/-- Fuel that covers all classes that have not been passed may as well be different. -/
theorem chainFrom_fuel {names names' : List String} (hnames : t.names ⊆ names)
    (hnames' : t.names ⊆ names') : ∀ {fuel fuel' : Nat} {passed : List String} {name : String},
    passed.Nodup → passed ⊆ t.names → names.length < passed.length + fuel →
    names'.length < passed.length + fuel' →
    t.chainFrom fuel' passed name = t.chainFrom fuel passed name
  | 0, _, _, _, hnodup, hpassed, h, _ =>
      absurd (lt_fuel hnodup (List.Subset.trans hpassed hnames) h) (Nat.lt_irrefl 0)
  | _ + 1, 0, _, _, hnodup, hpassed, _, h' =>
      absurd (lt_fuel hnodup (List.Subset.trans hpassed hnames') h') (Nat.lt_irrefl 0)
  | fuel + 1, fuel' + 1, passed, name, hnodup, hpassed, h, h' => by
      by_cases hname : passed.contains name = true
      · rw [chainFrom_of_contains hname, chainFrom_of_contains hname]
      · cases hsuper : t.superclass? name with
        | none => rw [chainFrom_of_none hname hsuper, chainFrom_of_none hname hsuper]
        | some above =>
            obtain ⟨hnodup', hpassed'⟩ := passed_cons hnodup hpassed hname hsuper
            have hsame : t.chainFrom fuel' (name :: passed) above =
                t.chainFrom fuel (name :: passed) above :=
              chainFrom_fuel hnames hnames' hnodup' hpassed' (by rw [List.length_cons]; omega)
                (by rw [List.length_cons]; omega)
            rw [chainFrom_of_some hname hsuper, chainFrom_of_some hname hsuper, hsame]

/-- Any bound that leaves room for the names of all classes gives the superclasses. -/
theorem chainFrom_eq_of_subset {names : List String} (hnames : t.names ⊆ names) {fuel : Nat}
    (hfuel : names.length < fuel) : t.chainFrom fuel [] cls = t.supertypes cls :=
  chainFrom_fuel (List.Subset.refl _) hnames List.nodup_nil (List.nil_subset _)
    (by rw [length_names, List.length_nil]; omega) (by rwa [List.length_nil, Nat.zero_add])

/-- Any bound that leaves room for all classes gives the superclasses. -/
theorem chainFrom_eq_supertypes {fuel : Nat} (hfuel : t.length < fuel) :
    t.chainFrom fuel [] cls = t.supertypes cls :=
  chainFrom_eq_of_subset (List.Subset.refl _) (by rwa [length_names])

/-- The superclass of a class in a chain is there as well, unless it has been passed. -/
theorem superclass_mem_chainFrom {sub sup : String} (hsuper : t.superclass? sub = some sup) :
    ∀ {fuel : Nat} {passed : List String} {name : String},
      passed.Nodup → passed ⊆ t.names → t.names.length < passed.length + fuel →
      sub ∈ t.chainFrom fuel passed name → sup ∈ t.chainFrom fuel passed name ∨ sup ∈ passed
  | 0, _, _, hnodup, hpassed, h, _ => absurd (lt_fuel hnodup hpassed h) (Nat.lt_irrefl 0)
  | fuel + 1, passed, name, hnodup, hpassed, h, hsub => by
      by_cases hname : passed.contains name = true
      · rw [chainFrom_of_contains hname] at hsub
        cases hsub
      cases habove : t.superclass? name with
      | none =>
          rw [chainFrom_of_none hname habove] at hsub
          cases List.mem_singleton.mp hsub
          rw [habove] at hsuper
          cases hsuper
      | some above =>
          obtain ⟨hnodup', hpassed'⟩ := passed_cons hnodup hpassed hname habove
          have hfuel : t.names.length < (name :: passed).length + fuel := by
            rw [List.length_cons]
            omega
          rw [chainFrom_of_some hname habove] at hsub ⊢
          -- the superclass is further up, or is this class or one before it
          have hbehind : sup ∈ t.chainFrom fuel (name :: passed) above ∨ sup ∈ name :: passed := by
            rcases List.mem_cons.mp hsub with rfl | hsub
            · cases habove.symm.trans hsuper
              obtain ⟨rest, rfl⟩ : ∃ rest, fuel = rest + 1 :=
                Nat.exists_eq_add_one.mpr (lt_fuel hnodup' hpassed' hfuel)
              exact mem_chainFrom_self
            · exact superclass_mem_chainFrom hsuper hnodup' hpassed' hfuel hsub
          rcases hbehind with hsup | hsup
          · exact .inl (List.mem_cons_of_mem _ hsup)
          · rcases List.mem_cons.mp hsup with rfl | hsup
            · exact .inl List.mem_cons_self
            · exact .inr hsup

theorem superclass_mem_supertypes {sub sup : String} (hsub : sub ∈ t.supertypes cls)
    (hsuper : t.superclass? sub = some sup) : sup ∈ t.supertypes cls :=
  (superclass_mem_chainFrom hsuper List.nodup_nil (List.nil_subset _)
    (by rw [length_names, List.length_nil]; omega) hsub).resolve_right List.not_mem_nil

@[simp] theorem mem_supertypes_self : cls ∈ t.supertypes cls :=
  List.mem_cons_self

/-- Whatever holds of a class and is passed on to superclasses holds of all superclasses. -/
theorem chainFrom_induction {H : String → Prop}
    (hH : ∀ {sub sup : String}, H sub → t.superclass? sub = some sup → H sup) :
    ∀ {fuel : Nat} {passed : List String} {name : String}, H name →
      ∀ sup ∈ t.chainFrom fuel passed name, H sup
  | 0, _, _, _ => List.forall_mem_nil _
  | fuel + 1, passed, name, hname => by
      by_cases hpassed : passed.contains name = true
      · rw [chainFrom_of_contains hpassed]
        exact List.forall_mem_nil _
      · cases hsuper : t.superclass? name with
        | none =>
            rw [chainFrom_of_none hpassed hsuper]
            exact List.forall_mem_singleton.mpr hname
        | some above =>
            rw [chainFrom_of_some hpassed hsuper]
            exact List.forall_mem_cons.mpr ⟨hname, chainFrom_induction hH (hH hname hsuper)⟩

/-- The superclasses of a superclass are superclasses. -/
theorem supertypes_subset {sup : String} (h : sup ∈ t.supertypes cls) :
    t.supertypes sup ⊆ t.supertypes cls :=
  chainFrom_induction (fun hsub hsuper => superclass_mem_supertypes hsub hsuper) h

/-- A class that is not the first of its chain is a superclass of the second one. -/
theorem mem_supertypes_of_ne {sup : String} (h : sup ∈ t.supertypes cls) (hne : sup ≠ cls) :
    ∃ above, t.superclass? cls = some above ∧ sup ∈ t.supertypes above := by
  cases hsuper : t.superclass? cls with
  | none =>
      have hH : ∀ x ∈ t.supertypes cls, x = cls :=
        chainFrom_induction (H := (· = cls))
          (fun hx hsuper' => by rw [hx, hsuper] at hsuper'; cases hsuper') rfl
      exact absurd (hH sup h) hne
  | some above =>
      refine ⟨above, rfl, ?_⟩
      have hH : ∀ x ∈ t.supertypes cls, x = cls ∨ x ∈ t.supertypes above := by
        refine chainFrom_induction (H := fun x => x = cls ∨ x ∈ t.supertypes above) ?_ (.inl rfl)
        rintro sub sup' (rfl | hsub) hsuper'
        · rw [hsuper] at hsuper'
          cases hsuper'
          exact .inr mem_supertypes_self
        · exact .inr (superclass_mem_supertypes hsub hsuper')
      exact (hH sup h).resolve_left hne

/-- A chain passes no class twice. -/
theorem nodup_chainFrom : ∀ (fuel : Nat) (passed : List String) (name : String),
    (t.chainFrom fuel passed name).Nodup ∧ ∀ sup ∈ t.chainFrom fuel passed name, sup ∉ passed
  | 0, _, _ => ⟨List.nodup_nil, List.forall_mem_nil _⟩
  | fuel + 1, passed, name => by
      by_cases hname : passed.contains name = true
      · rw [chainFrom_of_contains hname]
        exact ⟨List.nodup_nil, List.forall_mem_nil _⟩
      · have hnot : name ∉ passed := mt List.contains_iff_mem.mpr hname
        cases hsuper : t.superclass? name with
        | none =>
            rw [chainFrom_of_none hname hsuper]
            exact ⟨List.pairwise_singleton _ name, List.forall_mem_singleton.mpr hnot⟩
        | some above =>
            obtain ⟨hnodup, hnew⟩ := nodup_chainFrom fuel (name :: passed) above
            rw [chainFrom_of_some hname hsuper]
            refine ⟨List.nodup_cons.mpr ⟨fun hmem => hnew name hmem List.mem_cons_self, hnodup⟩,
              List.forall_mem_cons.mpr ⟨hnot, fun sup hsup hpassed => ?_⟩⟩
            exact hnew sup hsup (List.mem_cons_of_mem name hpassed)

theorem nodup_supertypes (t : SymbolTable) (cls : String) : (t.supertypes cls).Nodup :=
  (nodup_chainFrom _ [] cls).1

/-- Tables with the same superclasses have the same chains. -/
theorem chainFrom_congr : ∀ {fuel : Nat} {passed : List String} {name : String},
    (∀ cls ∈ t.chainFrom fuel passed name, t'.superclass? cls = t.superclass? cls) →
    t'.chainFrom fuel passed name = t.chainFrom fuel passed name
  | 0, _, _, _ => rfl
  | fuel + 1, passed, name, h => by
      by_cases hpassed : passed.contains name = true
      · rw [chainFrom_of_contains hpassed, chainFrom_of_contains hpassed]
      · cases hsuper : t.superclass? name with
        | none =>
            rw [chainFrom_of_none hpassed hsuper] at h ⊢
            exact chainFrom_of_none hpassed ((h name List.mem_cons_self).trans hsuper)
        | some above =>
            rw [chainFrom_of_some hpassed hsuper] at h ⊢
            obtain ⟨hsame, hbehind⟩ := List.forall_mem_cons.mp h
            rw [chainFrom_of_some hpassed (hsame.trans hsuper), chainFrom_congr hbehind]

/-- Tables that have the same superclasses in a chain have the same chain. -/
theorem supertypes_congr (h : ∀ sup ∈ t.supertypes cls, t'.superclass? sup = t.superclass? sup) :
    t'.supertypes cls = t.supertypes cls := by
  have hbound : t.length < t.length + t'.length + 1 := by omega
  have hbound' : t'.length < t.length + t'.length + 1 := by omega
  rw [← chainFrom_eq_supertypes hbound] at h ⊢
  rw [← chainFrom_eq_supertypes hbound']
  exact chainFrom_congr h

/-- Whether the root has no superclass. -/
def Rooted (t : SymbolTable) : Prop :=
  t.superclass? objectName = none

theorem Rooted.eq_of_mem (h : t.Rooted) {sup : String} (hsup : sup ∈ t.supertypes objectName) :
    sup = objectName := by
  by_contra hne
  obtain ⟨above, habove, -⟩ := mem_supertypes_of_ne hsup hne
  rw [Rooted, habove] at h
  cases h

/-- Whether no class inherits from itself. -/
def Acyclic (t : SymbolTable) : Prop :=
  ∀ {cls above : String}, t.superclass? cls = some above → cls ∉ t.supertypes above

/-- Two classes of a table without cycles do not inherit from each other. -/
theorem Acyclic.eq_of_mem (h : t.Acyclic) {cls cls' : String} (hcls : cls' ∈ t.supertypes cls)
    (hcls' : cls ∈ t.supertypes cls') : cls = cls' := by
  by_contra hne
  obtain ⟨above, habove, hmem⟩ := mem_supertypes_of_ne hcls fun heq => hne heq.symm
  exact h habove (supertypes_subset hmem hcls')

/-! ## Members -/

/-- Whether two tables tell the same of a class and of all its superclasses. -/
def Agrees (t t' : SymbolTable) (cls : String) : Prop :=
  ∀ sup ∈ t.supertypes cls, ∃ c c', t.find? sup = some c ∧ t'.find? sup = some c' ∧ c'.Agrees c

theorem Agrees.supertypes_eq (h : t.Agrees t' cls) : t'.supertypes cls = t.supertypes cls := by
  refine supertypes_congr fun sup hsup => ?_
  obtain ⟨c, c', hc, hc', hagrees⟩ := h sup hsup
  rw [superclass?, superclass?, hc, hc', Option.bind_some, Option.bind_some, hagrees.superclass]

theorem findSome?_congr {α β : Type} {f g : α → Option β} : ∀ {as : List α},
    (∀ a ∈ as, f a = g a) → as.findSome? f = as.findSome? g
  | [], _ => rfl
  | a :: as, h => by
      obtain ⟨ha, has⟩ := List.forall_mem_cons.mp h
      rw [List.findSome?_cons, List.findSome?_cons, ha, findSome?_congr has]

/-- The field of a name is found in the same class, with the same type. -/
theorem Agrees.findField_eq (h : t.Agrees t' cls) (name : String) :
    t'.findField cls name = t.findField cls name := by
  unfold findField
  rw [h.supertypes_eq]
  refine findSome?_congr fun sup hsup => ?_
  obtain ⟨c, c', hc, hc', hagrees⟩ := h sup hsup
  rw [hc, hc', Option.bind_eq_bind, Option.bind_eq_bind, Option.bind_some, Option.bind_some,
    hagrees.fields]

/-- The methods of a name are found in the same classes, with the same signatures. -/
theorem Agrees.findMethods_eq (h : t.Agrees t' cls) (name : String) :
    t'.findMethods cls name = t.findMethods cls name := by
  unfold findMethods
  rw [h.supertypes_eq]
  refine List.flatMap_congr fun sup hsup => ?_
  obtain ⟨c, c', hc, hc', hagrees⟩ := h sup hsup
  rw [hc, hc']
  dsimp only
  rw [hagrees.methods]

end SymbolTable

end ProbeLang
