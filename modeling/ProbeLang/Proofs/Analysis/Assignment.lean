import ProbeLang.Proofs.Analysis.Lookup

/-!
# Assignment compatibility is an order

Where the superclasses of the classes involved are loaded, whether a value of one type may stand
where another is wanted is a relation between the two types (`SymbolTable.Fits`), which finding it
out leaves alone. On types that are known the relation is reflexive and transitive, and it is
antisymmetric unless superclasses form a cycle (`NameScope.assignable_order`). All this needs that the
root has no superclass, as it is built in: no step of a task changes that (`Session.Persists.root`).
-/

namespace ProbeLang

open SessionM

/-- Whether a value of one type may stand where another is wanted, as far as a table tells. -/
inductive SymbolTable.Fits (t : SymbolTable) : Ty → Ty → Prop
  | refl (ty : Ty) : t.Fits ty ty
  | unknown (sup : Ty) : t.Fits .unknown sup
  | toUnknown (sub : Ty) : t.Fits sub .unknown
  | null {sup : Ty} (href : sup.isReference = true) : t.Fits .null sup
  | intLong : t.Fits .int .long
  | charInt : t.Fits .char .int
  | charLong : t.Fits .char .long
  | object (cls : String) : t.Fits (.cls cls) .object
  | inherits {cls sup : String} (hsup : sup ∈ t.supertypes cls) (hhas : t.has sup = true) :
      t.Fits (.cls cls) (.cls sup)
  | arrayObject (elem : Ty) : t.Fits (.array elem) .object
  | array {sub sup : Ty} (href : sub.isReference = true) (helem : t.Fits sub sup) :
      t.Fits (.array sub) (.array sup)

namespace SymbolTable

variable {t : SymbolTable} {a b c : Ty}

/-! ## The order -/

namespace Fits

/-- What a class fits is the root or one of its superclasses. -/
theorem cls_iff (cls sup : String) : t.Fits (.cls cls) (.cls sup) ↔
    cls = sup ∨ sup = objectName ∨ sup ∈ t.supertypes cls ∧ t.has sup = true := by
  constructor
  · intro h
    cases h with
    | refl => exact .inl rfl
    | object => exact .inr (.inl rfl)
    | inherits hsup hhas => exact .inr (.inr ⟨hsup, hhas⟩)
  · rintro (rfl | rfl | ⟨hsup, hhas⟩)
    · exact .refl _
    · exact .object cls
    · exact .inherits hsup hhas

/-- What a reference fits is a reference, if it is known. -/
theorem isReference (h : t.Fits a b) (ha : a.isReference = true) (hb : b.Known) :
    b.isReference = true := by
  cases h with
  | refl => exact ha
  | toUnknown => exact hb.elim
  | null href => exact href
  | object | inherits | arrayObject | array => rfl
  | unknown | intLong | charInt | charLong => cases ha

theorem trans_cls (hroot : t.Rooted) {x y z : String} (h : t.Fits (.cls x) (.cls y))
    (h' : t.Fits (.cls y) (.cls z)) : t.Fits (.cls x) (.cls z) := by
  rw [cls_iff] at h' ⊢
  rcases h' with rfl | rfl | ⟨hz, hhas⟩
  · exact (cls_iff x y).mp h
  · exact .inr (.inl rfl)
  · rcases (cls_iff x y).mp h with rfl | rfl | ⟨hy, -⟩
    · exact .inr (.inr ⟨hz, hhas⟩)
    · exact .inr (.inl (hroot.eq_of_mem hz))
    · exact .inr (.inr ⟨supertypes_subset hy hz, hhas⟩)

/-- What fits the root is all that it fits. -/
theorem eq_object (hroot : t.Rooted) (h : t.Fits .object b) (hb : b.Known) : b = .object := by
  cases h with
  | refl => rfl
  | toUnknown => exact hb.elim
  | object => rfl
  | inherits hsup => exact congrArg Ty.cls (hroot.eq_of_mem hsup)

/-- A type that fits another one that fits a third one fits the third one. -/
theorem trans (hroot : t.Rooted) (h : t.Fits a b) (h' : t.Fits b c) (hb : b.Known)
    (hc : c.Known) : t.Fits a c := by
  induction h generalizing c with
  | refl => exact h'
  | unknown => exact .unknown c
  | toUnknown => exact hb.elim
  | null href => exact .null (h'.isReference href hc)
  | intLong =>
      cases h' with
      | refl => exact .intLong
      | toUnknown => exact hc.elim
  | charInt =>
      cases h' with
      | refl => exact .charInt
      | intLong => exact .charLong
      | toUnknown => exact hc.elim
  | charLong =>
      cases h' with
      | refl => exact .charLong
      | toUnknown => exact hc.elim
  | object cls =>
      rw [h'.eq_object hroot hc]
      exact .object cls
  | @inherits cls sup hsup hhas =>
      cases h' with
      | refl => exact .inherits hsup hhas
      | toUnknown => exact hc.elim
      | object => exact .object cls
      | inherits hsup' hhas' =>
          exact trans_cls hroot (.inherits hsup hhas) (.inherits hsup' hhas')
  | arrayObject elem =>
      rw [h'.eq_object hroot hc]
      exact .arrayObject elem
  | @array sub sup href helem ih =>
      cases h' with
      | refl => exact .array href helem
      | toUnknown => exact hc.elim
      | arrayObject => exact .arrayObject sub
      | array _ helem' => exact .array href (ih helem' hb hc)

/-- Types that fit each other are the same if no class inherits from itself. -/
theorem antisymm (hroot : t.Rooted) (hacyclic : t.Acyclic) (h : t.Fits a b) (h' : t.Fits b a)
    (ha : a.Known) (hb : b.Known) : a = b := by
  induction h with
  | refl => rfl
  | unknown => exact ha.elim
  | toUnknown => exact hb.elim
  | null href =>
      cases h' with
      | refl => rfl
      | unknown => exact hb.elim
      | null => rfl
  | intLong | charInt | charLong => cases h'
  | object cls => exact h'.eq_object hroot trivial
  | @inherits cls sup hsup hhas =>
      rcases (cls_iff sup cls).mp h' with rfl | rfl | ⟨hcls, -⟩
      · rfl
      · exact congrArg Ty.cls (hroot.eq_of_mem hsup).symm
      · exact congrArg Ty.cls (hacyclic.eq_of_mem hsup hcls)
  | arrayObject elem => cases h'
  | array href helem ih =>
      cases h' with
      | refl => rfl
      | array _ helem' => exact congrArg Ty.array (ih helem' ha hb)

end Fits

end SymbolTable

/-! ## Sessions -/

variable {σ : Type} {s : Session σ}

/-- Whether the superclasses of the class in a type, if there is one, are loaded. -/
def Session.LoadedIn (s : Session σ) (ty : Ty) : Prop :=
  ∀ cls, ty.class? = some cls → s.Loaded cls

namespace NameScope

variable {ns : NameScope σ}

/-- Where superclasses are loaded, it is a relation between types whether a value of one may stand
for another. -/
theorem run_assignable (hns : ns.Bounded s) : ∀ sub sup : Ty, s.LoadedIn sub →
    ∃ ok, (ns.assignable sub sup).run.run s = (.ok ok, s) ∧
      (ok = true ↔ s.symbols.Fits sub sup) := by
  intro sub sup
  fun_induction ns.assignable sub sup with
  | case1 ty => exact fun _ => ⟨true, rfl, fun _ => .refl ty, fun _ => rfl⟩
  | case2 sup => exact fun _ => ⟨true, rfl, fun _ => .unknown sup, fun _ => rfl⟩
  | case3 sub => exact fun _ => ⟨true, rfl, fun _ => .toUnknown sub, fun _ => rfl⟩
  | case4 sup =>
      refine fun _ => ⟨sup.isReference, rfl, .null, fun h => ?_⟩
      cases h with
      | refl => rfl
      | toUnknown => exact absurd rfl ‹Ty.unknown = Ty.unknown → False›
      | null href => exact href
  | case5 => exact fun _ => ⟨true, rfl, fun _ => .intLong, fun _ => rfl⟩
  | case6 => exact fun _ => ⟨true, rfl, fun _ => .charInt, fun _ => rfl⟩
  | case7 => exact fun _ => ⟨true, rfl, fun _ => .charLong, fun _ => rfl⟩
  | case8 cls sup hne =>
      intro hloaded
      refine ⟨_, run_bind_ok (run_chain hns (hloaded cls rfl)), ?_⟩
      rw [SymbolTable.Fits.cls_iff, Bool.or_eq_true, beq_iff_eq, List.contains_iff_mem,
        List.mem_filter]
      exact ⟨.inr, fun h => h.resolve_left fun heq => hne (congrArg Ty.cls heq)⟩
  | case9 elem sup =>
      refine fun _ => ⟨_, rfl, fun h => ?_, fun h => ?_⟩
      · rw [eq_of_beq h]
        exact .arrayObject elem
      · cases h
        exact beq_self_eq_true _
  | case10 sub sup href hne ih =>
      intro hloaded
      obtain ⟨ok, hrun, hok⟩ := ih hloaded
      refine ⟨ok, hrun, fun h => .array href (hok.mp h), fun h => ?_⟩
      cases h with
      | refl => exact absurd rfl hne
      | array _ helem => exact hok.mpr helem
  | case11 sub sup href hne =>
      refine fun _ => ⟨false, rfl, fun h => absurd h Bool.false_ne_true, fun h => ?_⟩
      cases h with
      | refl => exact absurd rfl hne
      | array href' => exact absurd href' href
  | case12 sub sup hne =>
      refine fun _ => ⟨false, rfl, fun h => absurd h Bool.false_ne_true, fun h => ?_⟩
      cases h <;> simp_all [Ty.object]

/-- Whether it is found in a session that a value of one type may stand where another is wanted. -/
def Accepts (ns : NameScope σ) (s : Session σ) (sub sup : Ty) : Prop :=
  ((ns.assignable sub sup).run.run s).1 = .ok true

theorem accepts_iff (hns : ns.Bounded s) {sub sup : Ty} (hsub : s.LoadedIn sub) :
    ns.Accepts s sub sup ↔ s.symbols.Fits sub sup := by
  obtain ⟨ok, hrun, hok⟩ := run_assignable hns sub sup hsub
  rw [Accepts, hrun, Except.ok.injEq, hok]

/-- On known types whose superclasses are loaded it is always found out whether a value of one may
stand where another is wanted, and nothing is changed. The types are preordered by it, and ordered if
no class inherits from itself. -/
theorem assignable_order (hns : ns.Bounded s) (hroot : s.symbols.Rooted) {a b c : Ty}
    (ha : a.Known ∧ s.LoadedIn a) (hb : b.Known ∧ s.LoadedIn b) (hc : c.Known ∧ s.LoadedIn c) :
    (∃ ok, (ns.assignable a b).run.run s = (.ok ok, s)) ∧
    ns.Accepts s a a ∧
    (ns.Accepts s a b → ns.Accepts s b c → ns.Accepts s a c) ∧
    (s.symbols.Acyclic → ns.Accepts s a b → ns.Accepts s b a → a = b) := by
  simp only [accepts_iff hns ha.2, accepts_iff hns hb.2]
  refine ⟨?_, .refl a, fun h h' => h.trans hroot h' hb.1 hc.1, fun hacyclic h h' => ?_⟩
  · obtain ⟨ok, hrun, -⟩ := run_assignable hns a b ha.2
    exact ⟨ok, hrun⟩
  · exact h.antisymm hroot hacyclic h' ha.1 hb.1

end NameScope

/-- A class as it is known from an artifact without members. -/
def libraryClass (name superclass : String) : String × ClassSymbol :=
  (name, { ClassSymbol.ofBuiltin name (some superclass) [] with
    binary := name, package := none, origin := .classPath })

/-- A session that has loaded a class whose chain of superclasses ends in a missing one. -/
def chainSession : Session Unit where
  options := {}
  files := ⟨[], ""⟩
  store := .inMemory none
  listener := none
  state := ()
  symbols := .builtins ++ [libraryClass "Inner" "Outer", libraryClass "Outer" "Lost"]
  missing := ["Lost"]

/-- A scope that loads superclasses, with room for a few classes. -/
def smallScope : NameScope Unit :=
  ⟨"", none, [], [], loadChain 10 1⟩

theorem loaded_chainSession {cls : String} (hcls : cls ∈ ["Inner", "Outer"]) :
    chainSession.Loaded cls := by
  have hsupers : ∀ cls ∈ ["Inner", "Outer"], ∀ sup ∈ chainSession.symbols.supertypes cls,
      sup ∈ ["Inner", "Outer", "Lost"] := by decide +kernel
  intro sup hsup
  have hmem := hsupers cls hcls sup hsup
  simp only [List.mem_cons, List.not_mem_nil, or_false] at hmem
  rcases hmem with rfl | rfl | rfl
  · exact .inl ⟨_, rfl, rfl⟩
  · exact .inl ⟨_, rfl, rfl⟩
  · exact .inr ⟨rfl, List.mem_cons_self⟩

theorem acyclic_chainSession : chainSession.symbols.Acyclic := by
  have hall : ∀ p ∈ chainSession.symbols, ∀ above ∈ p.2.superclass,
      p.1 ∉ chainSession.symbols.supertypes above := by decide +kernel
  intro cls above h
  obtain ⟨c, hc, habove⟩ := Option.bind_eq_some_iff.mp h
  exact hall _ (Table.mem_of_find? hc) above habove

theorem NameScope.assignable_order_arrays :
    smallScope.Accepts chainSession (.array (.cls "Inner")) (.array (.cls "Outer")) ∧
    smallScope.Accepts chainSession (.array (.cls "Outer")) .object ∧
    smallScope.Accepts chainSession (.array (.cls "Inner")) .object ∧
    ¬ smallScope.Accepts chainSession (.array (.cls "Outer")) (.array (.cls "Inner")) := by
  have harray (cls : String) (hcls : cls ∈ ["Inner", "Outer"]) :
      (Ty.array (.cls cls)).Known ∧ chainSession.LoadedIn (.array (.cls cls)) := by
    refine ⟨trivial, fun cls' h => ?_⟩
    cases h
    exact loaded_chainSession hcls
  have hobject : Ty.object.Known ∧ chainSession.LoadedIn .object := by
    refine ⟨trivial, fun cls h => ?_⟩
    cases h
    have hsupers : chainSession.symbols.supertypes objectName = [objectName] := by decide +kernel
    intro sup hsup
    rw [hsupers] at hsup
    obtain rfl := List.mem_singleton.mp hsup
    exact .inl ⟨_, rfl, rfl⟩
  have hscope : smallScope.Bounded chainSession := ⟨10, 0, rfl, by decide +kernel⟩
  have hinner := harray "Inner" (by simp)
  have houter := harray "Outer" (by simp)
  have hlower : smallScope.Accepts chainSession (.array (.cls "Inner")) (.array (.cls "Outer")) :=
    (accepts_iff hscope hinner.2).mpr (.array rfl (.inherits (by decide +kernel) rfl))
  have hupper : smallScope.Accepts chainSession (.array (.cls "Outer")) .object :=
    (accepts_iff hscope houter.2).mpr (.arrayObject _)
  obtain ⟨-, -, htrans, hanti⟩ := assignable_order hscope rfl hinner houter hobject
  refine ⟨hlower, hupper, htrans hlower hupper, fun h => ?_⟩
  exact absurd (hanti acyclic_chainSession hlower h) (by decide)

end ProbeLang
