import ProbeLang.Analysis.Names
import ProbeLang.Proofs.Session.Loading

/-!
# Names keep a session sound

Finding out what a name means loads classes and does nothing else to a session. A class that a name
leads to is known. A type that is written has a meaning, unless an error is reported: a type name
that leads nowhere is the unknown type.
-/

namespace ProbeLang

open SessionM

variable {σ : Type} {s : Session σ} {P : Prop}

/-- Whether loading a class and its superclasses keeps a session sound. -/
def NameScope.Steady (ns : NameScope σ) : Prop :=
  ∀ (cls : String) {s : Session σ} {P : Prop}, Keeps s P (ns.chain cls) fun _ _ => True

namespace NameScope

variable {ns : NameScope σ}

/-- Whether a class that a name leads to is known. -/
def Leads (found : Option String) (t : Session σ) : Prop :=
  ∀ cls, found = some cls → t.symbols.has cls = true

theorem leads_none : Leads none s := by
  intro cls h
  cases h

theorem leads_some {cls : String} (h : s.symbols.has cls = true) : Leads (some cls) s := by
  intro cls' hcls
  cases hcls
  exact h

theorem keeps_memberTypeOf (simple : String) (classes : List String) :
    Keeps s P (memberTypeOf simple classes) Leads := by
  refine Keeps.findSomeM? (R := fun cls t => t.symbols.has cls = true) classes
    fun c _ t => .get ?_
  split
  · exact .pure fun _ _ => leads_none
  · refine (keeps_findClass _).bind fun _ _ _ => ?_
    split
    · next hfound => exact .pure fun h _ => leads_some (h.2 hfound)
    · exact .pure fun _ _ => leads_none

theorem keeps_memberType (hns : ns.Steady) (cls simple : String) :
    Keeps s P (ns.memberType cls simple) Leads :=
  (hns cls).bind fun _ _ _ => keeps_memberTypeOf simple _

theorem keeps_lookupQualified (hns : ns.Steady) : ∀ (segments : List String) {s : Session σ}
    {P : Prop}, Keeps s P (ns.lookupQualified segments) Leads
  | [], _, _ => .pure fun _ _ => leads_none
  | last :: above, _, _ => by
      unfold lookupQualified
      refine (keeps_findClass _).bind fun _ _ _ => ?_
      split
      · next hfound => exact .pure fun h _ => leads_some (h.2 hfound)
      · refine (keeps_lookupQualified hns above).bind fun outer _ _ => ?_
        cases outer with
        | none => exact .pure fun _ _ => leads_none
        | some outer => exact keeps_memberType hns outer last

theorem keeps_lookupIn (package : Option String) (simple : String) :
    Keeps s P (lookupIn package simple) Leads := by
  unfold lookupIn
  refine (keeps_findClass _).bind fun found _ _ => ?_
  cases found with
  | true => exact .pure fun h _ => leads_some (h.2 rfl)
  | false => exact .pure fun _ _ => leads_none

theorem keeps_builtin (simple : String) :
    Keeps s P (do return ((← get).symbols.builtin? simple).map ClassSymbol.binary) Leads := by
  refine .get (.pure fun _ hs cls hcls => ?_)
  obtain ⟨c, hc, rfl⟩ := Option.map_eq_some_iff.mp hcls
  obtain ⟨hfind, -⟩ := Option.filter_eq_some_iff.mp hc
  rw [hs.named hfind]
  exact Table.has_eq_true.mpr ⟨c, hfind⟩

theorem keeps_resolveSimple (hns : ns.Steady) (simple : String) :
    Keeps s P (ns.resolveSimple simple) Leads := by
  refine Keeps.findSomeM? (R := fun cls t => t.symbols.has cls = true) _ fun m hm t => ?_
  have hkeeps : Keeps t P m Leads := by
    simp only [simpleLookups, List.mem_append, List.mem_map, List.mem_cons, List.not_mem_nil,
      or_false] at hm
    rcases hm with ((⟨cls, -, rfl⟩ | ⟨i, -, rfl⟩) | rfl | rfl) | ⟨i, -, rfl⟩
    · exact keeps_memberType hns cls simple
    · exact keeps_lookupQualified hns _
    · exact keeps_lookupIn ns.package simple
    · exact keeps_builtin simple
    · exact keeps_lookupQualified hns _
  exact hkeeps

theorem keeps_nestedType (hns : ns.Steady) : ∀ (simples : List String) (cls : String)
    {s : Session σ} {P : Prop}, (P → s.symbols.has cls = true) →
      Keeps s P (ns.nestedType cls simples) Leads
  | [], _, _, _, hcls => .pure fun h _ => leads_some (hcls h)
  | simple :: rest, cls, _, _, hcls => by
      unfold nestedType
      refine (keeps_memberType hns cls simple).bind fun nested _ _ => ?_
      cases nested with
      | none => exact .pure fun _ _ => leads_none
      | some nested => exact keeps_nestedType hns rest nested fun h => h.2 nested rfl

theorem keeps_packagedType : ∀ (rest front : List String) {s : Session σ} {P : Prop},
    Keeps s P (packagedType front rest) fun found t => Leads (found.map Prod.fst) t
  | [], _, _, _ => .pure fun _ _ => leads_none
  | segment :: rest, front, _, _ => by
      unfold packagedType
      refine (keeps_findClass _).bind fun _ _ _ => ?_
      split
      · next hfound => exact .pure fun h _ => leads_some (h.2 hfound)
      · exact keeps_packagedType rest (segment :: front)

theorem keeps_resolvePath (hns : ns.Steady) (segments : List String) :
    Keeps s P (ns.resolvePath segments) Leads := by
  cases segments with
  | nil => exact .pure fun _ _ => leads_none
  | cons first rest =>
      refine (keeps_resolveSimple hns first).bind fun found _ _ => ?_
      cases found with
      | some cls => exact keeps_nestedType hns rest cls fun h => h.2 cls rfl
      | none =>
          refine (keeps_packagedType rest [first]).bind fun found _ _ => ?_
          cases found with
          | some found => exact keeps_nestedType hns found.2 found.1 fun h => h.2 found.1 rfl
          | none => exact .pure fun _ _ => leads_none

theorem keeps_checkDeprecated (cls : String) (pos : Pos) :
    Keeps s P (ns.checkDeprecated cls pos) fun _ _ => True := by
  refine .get ?_
  split
  · split
    · split
      · exact .advise _ _ _
      · split
        · refine .of_run_eq rfl ?_ rfl rfl rfl fun _ _ => trivial
          exact { Session.Extends.refl s with }
        · exact .pure fun _ _ => trivial
    · exact .pure fun _ _ => trivial
  · exact .pure fun _ _ => trivial

/-! ## Types -/

/-- A type name stands for the type that it is taken for. -/
theorem keeps_resolveBase (hns : ns.Steady) (base : TypeName) :
    Keeps s P (ns.resolveBase base) fun ty t => base.Denotes t.symbols ty := by
  cases base with
  | named path =>
      refine (keeps_resolvePath hns path.segments).bind fun found _ _ => ?_
      cases found with
      | some cls =>
          exact (keeps_checkDeprecated cls path.pos).bind_grows fun _ _ hst =>
            .pure fun h _ => ⟨cls, rfl, hst.has (h.1.2 cls rfl)⟩
      | none => exact .problem_bind fun _ => .pure fun h => h.elim
  | void | int | long | boolean => exact .pure fun _ _ => rfl

/-- A type that is written stands for the type that it is taken for. -/
theorem keeps_resolveType (hns : ns.Steady) (t : TypeRef) :
    Keeps s P (ns.resolveType t) fun ty u => t.Denotes u.symbols ty := by
  unfold resolveType
  refine (keeps_resolveBase hns t.base).bind fun ty _ _ => ?_
  split
  · refine .pure fun h => ?_
    have hknown := TypeRef.Denotes.known (t := { t with dims := 0 }) ⟨_, h.2, rfl⟩
    exact hknown.elim
  · exact .pure fun h _ => ⟨ty, h.2, rfl⟩

theorem keeps_assignable (hns : ns.Steady) (sub sup : Ty) :
    Keeps s P (ns.assignable sub sup) fun _ _ => True := by
  fun_induction assignable ns sub sup generalizing s P with
  | case8 a b => exact (hns a).bind fun _ _ _ => .pure fun _ _ => trivial
  | case10 a b _ _ ih => exact ih
  | _ => exact .pure fun _ _ => trivial

theorem keeps_requireAssignable (hns : ns.Steady) (pos : Pos) (sub sup : Ty) :
    Keeps s P (ns.requireAssignable pos sub sup) fun _ _ => True := by
  unfold requireAssignable
  refine (keeps_assignable hns sub sup).bind fun _ _ _ => ?_
  split
  · exact .problem
  · exact .pure fun _ _ => trivial

end NameScope

end ProbeLang
