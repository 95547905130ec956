import ProbeLang.Symbol
import ProbeLang.Tree

/-!
# Declared classes

The classes that a unit declares, at any depth, with what their place in the unit says of them:
the binary name, the enclosing class, and the member numbers that lead to the declaration. This is
all that entering a class takes from the tree, and analysing the tree leaves it as it was, since
the analysis changes bodies and values of fields only (`skeleton`).
-/

namespace ProbeLang

/-! ## Skeletons -/

/-- The field without its value. -/
def FieldDecl.skeleton (f : FieldDecl) : FieldDecl :=
  { f with init := none }

/-- The method with an empty body. -/
def MethodDecl.skeleton (m : MethodDecl) : MethodDecl :=
  { m with body := { m.body with body := [] } }

mutual

/-- The class without its code. -/
def ClassDecl.skeleton (c : ClassDecl) : ClassDecl :=
  match c with
  | ⟨name, modifiers, superclass, members, pos⟩ =>
      ⟨name, modifiers, superclass, Member.skeletons members, pos⟩
termination_by structural c

/-- Members without their code. -/
def Member.skeletons (members : List Member) : List Member :=
  match members with
  | [] => []
  | .field f :: rest => .field f.skeleton :: Member.skeletons rest
  | .method m :: rest => .method m.skeleton :: Member.skeletons rest
  | .type decl :: rest => .type decl.skeleton :: Member.skeletons rest
termination_by structural members

end

/-- The unit without the code of its classes. -/
def UnitTree.skeleton (u : UnitTree) : UnitTree :=
  { u with types := u.types.map ClassDecl.skeleton }

/-! ## Declared classes -/

/-- A class in a unit of a session. -/
structure DeclaredClass where
  unit : Nat
  package : Option String
  /-- The number of the top-level class and the member numbers that lead to the class. -/
  place : List Nat
  outer : Option String
  binary : String
  decl : ClassDecl

namespace DeclaredClass

/-- The member types of the class. -/
def memberTypes (d : DeclaredClass) : Table String :=
  d.decl.nested.map fun n => (n.name.name, d.binary ++ "$" ++ n.name.name)

/-- The symbol with which the class is entered. -/
def symbol (d : DeclaredClass) : ClassSymbol where
  binary := d.binary
  package := d.package
  simple := d.decl.name.name
  outer := d.outer
  superclass := none
  members := d.memberTypes
  fields := []
  methods := []
  deprecated := (d.decl.modifiers.annotation? "Deprecated").isSome
  origin := .source d.unit d.place
  completed := false

/-- A class that is declared as a member of the class. -/
def member (d : DeclaredClass) (k : Nat) (decl : ClassDecl) : DeclaredClass where
  unit := d.unit
  package := d.package
  place := d.place ++ [k]
  outer := some d.binary
  binary := d.binary ++ "$" ++ decl.name.name
  decl := decl

/-- The declared class without its code. -/
def skeleton (d : DeclaredClass) : DeclaredClass :=
  { d with decl := d.decl.skeleton }

end DeclaredClass

mutual

/-- A class and the classes in it, outer classes first. -/
def ClassDecl.declared (unit : Nat) (package outer : Option String) (place : List Nat)
    (binary : String) (c : ClassDecl) : List DeclaredClass :=
  match c with
  | ⟨name, modifiers, superclass, members, pos⟩ =>
      ⟨unit, package, place, outer, binary, ⟨name, modifiers, superclass, members, pos⟩⟩ ::
        Member.declared unit package place binary 0 members
termination_by structural c

/-- The classes among members of a class, from a number on. -/
def Member.declared (unit : Nat) (package : Option String) (place : List Nat) (binary : String)
    (i : Nat) (members : List Member) : List DeclaredClass :=
  match members with
  | [] => []
  | .field _ :: rest => Member.declared unit package place binary (i + 1) rest
  | .method _ :: rest => Member.declared unit package place binary (i + 1) rest
  | .type decl :: rest =>
      decl.declared unit package (some binary) (place ++ [i])
          (binary ++ "$" ++ decl.name.name) ++
        Member.declared unit package place binary (i + 1) rest
termination_by structural members

end

/-- The classes among top-level classes of a unit and in them, from a number on. -/
def UnitTree.declaredFrom (unit : Nat) (u : UnitTree) : Nat → List ClassDecl → List DeclaredClass
  | _, [] => []
  | i, c :: rest =>
      c.declared unit u.packageName? none [i] (u.binaryName c) ++
        u.declaredFrom unit (i + 1) rest

/-- The classes of a unit, given its number in the session. -/
def UnitTree.declared (unit : Nat) (u : UnitTree) : List DeclaredClass :=
  u.declaredFrom unit 0 u.types

/-! ## Names -/

mutual

theorem ClassDecl.binary_declared {unit : Nat} {package outer : Option String}
    {place : List Nat} : ∀ (c : ClassDecl) {binary : String},
    (c.declared unit package outer place binary).map DeclaredClass.binary = c.binaryNames binary
  | ⟨_, _, _, members, _⟩, binary => by
      simp only [ClassDecl.declared, ClassDecl.binaryNames, List.map_cons,
        Member.binary_declared members]

theorem Member.binary_declared {unit : Nat} {package : Option String} {place : List Nat}
    {binary : String} : ∀ (members : List Member) {i : Nat},
    (Member.declared unit package place binary i members).map DeclaredClass.binary =
      Member.binaryNames binary members
  | [], _ => rfl
  | .field _ :: rest, _ => Member.binary_declared rest
  | .method _ :: rest, _ => Member.binary_declared rest
  | .type decl :: rest, _ => by
      simp only [Member.declared, Member.binaryNames, List.map_append, decl.binary_declared,
        Member.binary_declared rest]

end

theorem UnitTree.binary_declared (unit : Nat) (u : UnitTree) :
    (u.declared unit).map DeclaredClass.binary = u.binaryNames := by
  have from_ : ∀ (cs : List ClassDecl) (i : Nat),
      (u.declaredFrom unit i cs).map DeclaredClass.binary =
        cs.flatMap fun c => c.binaryNames (u.binaryName c) := by
    intro cs
    induction cs with
    | nil => intro i; rfl
    | cons c rest ih =>
        intro i
        simp only [UnitTree.declaredFrom, List.map_append, ClassDecl.binary_declared, ih,
          List.flatMap_cons]
  exact from_ u.types 0

/-! ## Places -/

theorem ClassDecl.mem_declared_self (c : ClassDecl) (unit : Nat) (package outer : Option String)
    (place : List Nat) (binary : String) :
    ⟨unit, package, place, outer, binary, c⟩ ∈ c.declared unit package outer place binary := by
  cases c
  exact List.mem_cons_self

section

variable {unit : Nat} {package : Option String} {d : DeclaredClass}

mutual

/-- A declared class is found at its place. -/
theorem ClassDecl.at?_of_mem_declared : ∀ (c : ClassDecl) {outer : Option String}
    {place : List Nat} {binary : String}, d ∈ c.declared unit package outer place binary →
    ∃ path, d.place = place ++ path ∧ c.at? path = some d.decl ∧ d.unit = unit
  | ⟨name, modifiers, superclass, members, pos⟩, outer, place, binary, h => by
      rcases List.mem_cons.mp h with rfl | h
      · exact ⟨[], by simp, rfl, rfl⟩
      · obtain ⟨k, path, decl, hplace, hmember, hat, hunit⟩ :=
          Member.at?_of_mem_declared members h
        refine ⟨k :: path, by simpa using hplace, ?_, hunit⟩
        simpa only [ClassDecl.at?, hmember] using hat

theorem Member.at?_of_mem_declared : ∀ (members : List Member) {place : List Nat}
    {binary : String} {i : Nat}, d ∈ Member.declared unit package place binary i members →
    ∃ k path decl, d.place = place ++ (i + k) :: path ∧ members[k]? = some (.type decl) ∧
      decl.at? path = some d.decl ∧ d.unit = unit
  | .field _ :: rest, place, binary, i, h => by
      obtain ⟨k, path, decl, hplace, hmember, hat⟩ := Member.at?_of_mem_declared rest h
      exact ⟨k + 1, path, decl, by rw [hplace, Nat.add_right_comm]; rfl, hmember, hat⟩
  | .method _ :: rest, place, binary, i, h => by
      obtain ⟨k, path, decl, hplace, hmember, hat⟩ := Member.at?_of_mem_declared rest h
      exact ⟨k + 1, path, decl, by rw [hplace, Nat.add_right_comm]; rfl, hmember, hat⟩
  | .type decl :: rest, place, binary, i, h => by
      rcases List.mem_append.mp h with h | h
      · obtain ⟨path, hplace, hat⟩ := decl.at?_of_mem_declared h
        exact ⟨0, path, decl, by simpa using hplace, rfl, hat⟩
      · obtain ⟨k, path, decl, hplace, hmember, hat⟩ := Member.at?_of_mem_declared rest h
        exact ⟨k + 1, path, decl, by rw [hplace, Nat.add_right_comm]; rfl, hmember, hat⟩

end

theorem Member.mem_declared_of_getElem? (unit : Nat) (package : Option String) (place : List Nat)
    (binary : String) {decl : ClassDecl} : ∀ {members : List Member} (i : Nat) {k : Nat},
    members[k]? = some (.type decl) →
      ⟨unit, package, place ++ [i + k], some binary, binary ++ "$" ++ decl.name.name, decl⟩ ∈
        Member.declared unit package place binary i members
  | m :: rest, i, 0, h => by
      cases h
      exact List.mem_append_left _ (decl.mem_declared_self ..)
  | m :: rest, i, k + 1, h => by
      have hk : rest[k]? = some (.type decl) := h
      have hrest := Member.mem_declared_of_getElem? unit package place binary (i + 1) hk
      rw [Nat.add_right_comm] at hrest
      cases m with
      | field f => exact hrest
      | method m => exact hrest
      | type decl => exact List.mem_append_right _ hrest

mutual

/-- The classes in a declared class are declared as well. -/
theorem ClassDecl.nested_mem_declared : ∀ (c : ClassDecl) {outer : Option String}
    {place : List Nat} {binary : String}, d ∈ c.declared unit package outer place binary →
    ∀ {k : Nat} {decl : ClassDecl}, d.decl.members[k]? = some (.type decl) →
      ⟨unit, package, d.place ++ [k], some d.binary, d.binary ++ "$" ++ decl.name.name, decl⟩ ∈
        c.declared unit package outer place binary
  | ⟨name, modifiers, superclass, members, pos⟩, outer, place, binary, h, k, decl, hk => by
      refine List.mem_cons_of_mem _ ?_
      rcases List.mem_cons.mp h with rfl | h
      · have := Member.mem_declared_of_getElem? unit package place binary 0 hk
        rwa [Nat.zero_add] at this
      · exact Member.nested_mem_declared members h hk

theorem Member.nested_mem_declared : ∀ (members : List Member) {place : List Nat}
    {binary : String} {i : Nat}, d ∈ Member.declared unit package place binary i members →
    ∀ {k : Nat} {decl : ClassDecl}, d.decl.members[k]? = some (.type decl) →
      ⟨unit, package, d.place ++ [k], some d.binary, d.binary ++ "$" ++ decl.name.name, decl⟩ ∈
        Member.declared unit package place binary i members
  | .field _ :: rest, _, _, _, h, _, _, hk => Member.nested_mem_declared rest h hk
  | .method _ :: rest, _, _, _, h, _, _, hk => Member.nested_mem_declared rest h hk
  | .type decl :: rest, _, _, _, h, _, _, hk =>
      List.mem_append.mpr ((List.mem_append.mp h).imp
        (fun h => decl.nested_mem_declared h hk)
        (fun h => Member.nested_mem_declared rest h hk))

end

mutual

/-- A class that is declared in another one is a member type of a class that is declared there. -/
theorem ClassDecl.enclosed_of_mem_declared : ∀ (c : ClassDecl) {outer : Option String}
    {place : List Nat} {binary : String}, d ∈ c.declared unit package outer place binary →
    d = ⟨unit, package, place, outer, binary, c⟩ ∨
      ∃ e ∈ c.declared unit package outer place binary, ∃ k,
        e.decl.members[k]? = some (.type d.decl) ∧ d = e.member k d.decl
  | ⟨name, modifiers, superclass, members, pos⟩, outer, place, binary, h => by
      rcases List.mem_cons.mp h with rfl | h
      · exact .inl rfl
      · refine .inr ?_
        rcases Member.enclosed_of_mem_declared members h with
          ⟨k, hk, hd⟩ | ⟨e, he, k, hk, hd⟩
        · rw [Nat.zero_add] at hd
          exact ⟨_, List.mem_cons_self, k, hk, hd⟩
        · exact ⟨e, List.mem_cons_of_mem _ he, k, hk, hd⟩

theorem Member.enclosed_of_mem_declared : ∀ (members : List Member) {place : List Nat}
    {binary : String} {i : Nat}, d ∈ Member.declared unit package place binary i members →
    (∃ k, members[k]? = some (.type d.decl) ∧
      d = ⟨unit, package, place ++ [i + k], some binary, binary ++ "$" ++ d.decl.name.name,
        d.decl⟩) ∨
      ∃ e ∈ Member.declared unit package place binary i members, ∃ k,
        e.decl.members[k]? = some (.type d.decl) ∧ d = e.member k d.decl
  | .field _ :: rest, place, binary, i, h => by
      refine (Member.enclosed_of_mem_declared rest h).imp_left fun ⟨k, hk, hd⟩ => ⟨k + 1, hk, ?_⟩
      rwa [Nat.add_right_comm] at hd
  | .method _ :: rest, place, binary, i, h => by
      refine (Member.enclosed_of_mem_declared rest h).imp_left fun ⟨k, hk, hd⟩ => ⟨k + 1, hk, ?_⟩
      rwa [Nat.add_right_comm] at hd
  | .type decl :: rest, place, binary, i, h => by
      rcases List.mem_append.mp h with h | h
      · rcases decl.enclosed_of_mem_declared h with rfl | ⟨e, he, hd⟩
        · exact .inl ⟨0, rfl, rfl⟩
        · exact .inr ⟨e, List.mem_append_left _ he, hd⟩
      · rcases Member.enclosed_of_mem_declared rest h with ⟨k, hk, hd⟩ | ⟨e, he, hd⟩
        · rw [Nat.add_right_comm] at hd
          exact .inl ⟨k + 1, hk, hd⟩
        · exact .inr ⟨e, List.mem_append_right _ he, hd⟩

end

end

/-- The class of a number is declared where the number says. -/
theorem UnitTree.mem_declared_of_getElem? {u : UnitTree} {unit i : Nat} {c : ClassDecl}
    (h : u.types[i]? = some c) :
    ⟨unit, u.packageName?, [i], none, u.binaryName c, c⟩ ∈ u.declared unit := by
  have from_ : ∀ (cs : List ClassDecl) (k i : Nat), cs[i]? = some c →
      ⟨unit, u.packageName?, [k + i], none, u.binaryName c, c⟩ ∈ u.declaredFrom unit k cs := by
    intro cs
    induction cs with
    | nil => intro k i h; cases h
    | cons b rest ih =>
        intro k i h
        cases i with
        | zero =>
            cases h
            exact List.mem_append_left _ (c.mem_declared_self ..)
        | succ i =>
            have := ih (k + 1) i h
            rw [Nat.add_right_comm] at this
            exact List.mem_append_right _ this
  have := from_ u.types 0 i h
  rwa [Nat.zero_add] at this

/-- The classes in a top-level class of a unit, itself included. -/
def UnitTree.declaredAt (unit : Nat) (u : UnitTree) (number : Nat) : List DeclaredClass :=
  u.types[number]?.elim [] fun c =>
    c.declared unit u.packageName? none [number] (u.binaryName c)

theorem UnitTree.declaredAt_of_getElem? {u : UnitTree} {unit i : Nat} {c : ClassDecl}
    (h : u.types[i]? = some c) :
    u.declaredAt unit i = c.declared unit u.packageName? none [i] (u.binaryName c) := by
  rw [declaredAt, h]
  rfl

theorem UnitTree.declared_eq (unit : Nat) (u : UnitTree) :
    u.declared unit = (List.range u.types.length).flatMap (u.declaredAt unit) := by
  have from_ : ∀ (cs : List ClassDecl) (k : Nat), u.declaredFrom unit k cs =
      (List.range cs.length).flatMap fun i => cs[i]?.elim [] fun c =>
        c.declared unit u.packageName? none [k + i] (u.binaryName c) := by
    intro cs
    induction cs with
    | nil => exact fun _ => rfl
    | cons c rest ih =>
        intro k
        rw [UnitTree.declaredFrom, ih, List.length_cons, List.range_succ_eq_map,
          List.flatMap_cons, List.flatMap_map]
        refine congrArg (_ ++ List.flatMap · _) (funext fun i => ?_)
        rw [Nat.add_right_comm]
        rfl
  refine (from_ u.types 0).trans (congrArg (List.flatMap · _) (funext fun i => ?_))
  rw [Nat.zero_add]
  rfl

/-- The classes in a top-level class are declared. -/
theorem UnitTree.mem_declared_at {u : UnitTree} {unit i : Nat} {c : ClassDecl}
    {d : DeclaredClass} (hc : u.types[i]? = some c)
    (h : d ∈ c.declared unit u.packageName? none [i] (u.binaryName c)) : d ∈ u.declared unit := by
  rw [declared_eq]
  refine List.mem_flatMap.mpr ⟨i, List.mem_range.mpr (List.getElem?_eq_some_iff.mp hc).1, ?_⟩
  rwa [declaredAt_of_getElem? hc]

theorem UnitTree.mem_declaredFrom {u : UnitTree} {unit : Nat} {d : DeclaredClass} :
    ∀ (cs : List ClassDecl) {k : Nat}, d ∈ u.declaredFrom unit k cs →
      ∃ (i : Nat) (c : ClassDecl), cs[i]? = some c ∧
        d ∈ c.declared unit u.packageName? none [k + i] (u.binaryName c)
  | c :: rest, k, h => by
      rcases List.mem_append.mp h with h | h
      · exact ⟨0, c, rfl, h⟩
      · obtain ⟨i, b, hb, h⟩ := UnitTree.mem_declaredFrom rest h
        rw [Nat.add_right_comm] at h
        exact ⟨i + 1, b, hb, h⟩

/-- A declared class is one of those in a top-level class. -/
theorem UnitTree.mem_declared {u : UnitTree} {unit : Nat} {d : DeclaredClass}
    (h : d ∈ u.declared unit) :
    ∃ (i : Nat) (c : ClassDecl), u.types[i]? = some c ∧
      d ∈ c.declared unit u.packageName? none [i] (u.binaryName c) := by
  obtain ⟨i, c, hc, h⟩ := UnitTree.mem_declaredFrom u.types h
  exact ⟨i, c, hc, by rwa [Nat.zero_add] at h⟩

/-- A declared class is found at its place. -/
theorem UnitTree.at?_of_mem_declared {u : UnitTree} {unit : Nat} {d : DeclaredClass}
    (h : d ∈ u.declared unit) : u.at? d.place = some d.decl ∧ d.unit = unit := by
  obtain ⟨i, c, hc, h⟩ := UnitTree.mem_declared h
  obtain ⟨path, hplace, hat, hunit⟩ := c.at?_of_mem_declared h
  refine ⟨?_, hunit⟩
  rw [hplace]
  simpa only [List.singleton_append, UnitTree.at?, hc, Option.bind_some] using hat

theorem UnitTree.nested_mem_declared {u : UnitTree} {unit : Nat} {d : DeclaredClass}
    (h : d ∈ u.declared unit) {k : Nat} {decl : ClassDecl}
    (hk : d.decl.members[k]? = some (.type decl)) :
    ⟨unit, u.packageName?, d.place ++ [k], some d.binary, d.binary ++ "$" ++ decl.name.name,
      decl⟩ ∈ u.declared unit := by
  have from_ : ∀ (cs : List ClassDecl) (i : Nat), d ∈ u.declaredFrom unit i cs →
      ⟨unit, u.packageName?, d.place ++ [k], some d.binary, d.binary ++ "$" ++ decl.name.name,
        decl⟩ ∈ u.declaredFrom unit i cs := by
    intro cs
    induction cs with
    | nil => intro i h; cases h
    | cons c rest ih =>
        intro i h
        exact List.mem_append.mpr ((List.mem_append.mp h).imp
          (fun h => c.nested_mem_declared h hk) (ih (i + 1)))
  exact from_ u.types 0 h

/-- A declared class stands on top of its unit or is a member type of a declared class. -/
theorem UnitTree.enclosed_of_mem_declared {u : UnitTree} {unit : Nat} {d : DeclaredClass}
    (h : d ∈ u.declared unit) :
    (∃ i, u.types[i]? = some d.decl ∧
      d = ⟨unit, u.packageName?, [i], none, u.binaryName d.decl, d.decl⟩) ∨
      ∃ e ∈ u.declared unit, ∃ k,
        e.decl.members[k]? = some (.type d.decl) ∧ d = e.member k d.decl := by
  obtain ⟨i, c, hc, h⟩ := UnitTree.mem_declared h
  rcases c.enclosed_of_mem_declared h with rfl | ⟨e, he, k, hk, hd⟩
  · exact .inl ⟨i, hc, rfl⟩
  · exact .inr ⟨e, UnitTree.mem_declared_at hc he, k, hk, hd⟩

/-- What holds of the top-level classes of a unit and goes over to member types holds of all declared
classes. -/
theorem UnitTree.forall_declared {u : UnitTree} {unit : Nat} {P : DeclaredClass → Prop}
    (top : ∀ i c, u.types[i]? = some c →
      P ⟨unit, u.packageName?, [i], none, u.binaryName c, c⟩)
    (member : ∀ e ∈ u.declared unit, ∀ k c, e.decl.members[k]? = some (.type c) → P e →
      P (e.member k c)) : ∀ d ∈ u.declared unit, P d := by
  -- The class around a class has a shorter place.
  have at_ : ∀ (n : Nat) (d : DeclaredClass), d ∈ u.declared unit → d.place.length < n → P d := by
    intro n
    induction n with
    | zero => exact fun d _ h => absurd h (Nat.not_lt_zero _)
    | succ n ih =>
        intro d hd hn
        rcases UnitTree.enclosed_of_mem_declared hd with ⟨i, hi, hd⟩ | ⟨e, he, k, hk, hd⟩
        · rw [hd]
          exact top i d.decl hi
        · rw [hd] at hn ⊢
          refine member e he k d.decl hk (ih e he ?_)
          simp only [DeclaredClass.member, List.length_append, List.length_singleton] at hn
          omega
  exact fun d hd => at_ _ d hd (Nat.lt_succ_self _)

/-- What holds between the classes in a class holds between those of its members that are classes. -/
theorem ClassDecl.pairwise_nested {R : ClassDecl → ClassDecl → Prop} {c : ClassDecl} :
    c.nested.Pairwise R ↔ c.members.Pairwise fun m m' =>
      ∀ decl decl', m = .type decl → m' = .type decl' → R decl decl' := by
  rw [nested, List.pairwise_filterMap]
  refine List.Pairwise.iff fun {m m'} => ?_
  cases m <;> cases m' <;> simp

theorem UnitTree.package_of_mem_declared {u : UnitTree} {unit : Nat} {d : DeclaredClass}
    (h : d ∈ u.declared unit) : d.package = u.packageName? :=
  UnitTree.forall_declared (P := fun d => d.package = u.packageName?) (fun _ _ _ => rfl)
    (fun _ _ _ _ _ he => he) d h

/-- The member types of a declared class are declared. -/
theorem UnitTree.member_mem_declared {u : UnitTree} {unit : Nat} {d : DeclaredClass}
    (h : d ∈ u.declared unit) {k : Nat} {decl : ClassDecl}
    (hk : d.decl.members[k]? = some (.type decl)) : d.member k decl ∈ u.declared unit := by
  obtain ⟨-, rfl⟩ := UnitTree.at?_of_mem_declared h
  have hmember := nested_mem_declared h hk
  rwa [← package_of_mem_declared h] at hmember

/-- A declared class has a longer name than the class around it. -/
theorem UnitTree.length_lt_of_mem_declared {u : UnitTree} {unit : Nat} {d : DeclaredClass}
    (h : d ∈ u.declared unit) {outer : String} (houter : d.outer = some outer) :
    outer.length < d.binary.length := by
  rcases UnitTree.enclosed_of_mem_declared h with ⟨i, -, hd⟩ | ⟨e, -, k, -, hd⟩
  · rw [hd] at houter
    cases houter
  · rw [hd] at houter ⊢
    cases houter
    simp only [DeclaredClass.member, String.length_append, show "$".length = 1 from rfl]
    omega

/-! ## Declarations and skeletons -/

namespace ClassDecl

@[simp] theorem name_skeleton (c : ClassDecl) : c.skeleton.name = c.name := by
  cases c; rfl

@[simp] theorem modifiers_skeleton (c : ClassDecl) : c.skeleton.modifiers = c.modifiers := by
  cases c; rfl

@[simp] theorem members_skeleton (c : ClassDecl) :
    c.skeleton.members = Member.skeletons c.members := by
  cases c; rfl

theorem fields_skeleton (c : ClassDecl) :
    c.skeleton.fields = c.fields.map FieldDecl.skeleton := by
  unfold fields
  rw [members_skeleton]
  induction c.members with
  | nil => rfl
  | cons m rest ih => cases m <;> simpa [Member.skeletons] using ih

theorem methods_skeleton (c : ClassDecl) :
    c.skeleton.methods = c.methods.map MethodDecl.skeleton := by
  unfold methods
  rw [members_skeleton]
  induction c.members with
  | nil => rfl
  | cons m rest ih => cases m <;> simpa [Member.skeletons] using ih

theorem nested_skeleton (c : ClassDecl) :
    c.skeleton.nested = c.nested.map ClassDecl.skeleton := by
  unfold nested
  rw [members_skeleton]
  induction c.members with
  | nil => rfl
  | cons m rest ih => cases m <;> simpa [Member.skeletons] using ih

end ClassDecl

mutual

theorem ClassDecl.declared_skeleton {unit : Nat} {package outer : Option String}
    {place : List Nat} : ∀ (c : ClassDecl) {binary : String},
    c.skeleton.declared unit package outer place binary =
      (c.declared unit package outer place binary).map DeclaredClass.skeleton
  | ⟨_, _, _, members, _⟩, _ => by
      simp only [ClassDecl.skeleton, ClassDecl.declared, List.map_cons, DeclaredClass.skeleton,
        Member.declared_skeletons members]

theorem Member.declared_skeletons {unit : Nat} {package : Option String} {place : List Nat}
    {binary : String} : ∀ (members : List Member) {i : Nat},
    Member.declared unit package place binary i (Member.skeletons members) =
      (Member.declared unit package place binary i members).map DeclaredClass.skeleton
  | [], _ => rfl
  | .field _ :: rest, _ => Member.declared_skeletons rest
  | .method _ :: rest, _ => Member.declared_skeletons rest
  | .type decl :: rest, _ => by
      simp only [Member.skeletons, Member.declared, List.map_append, ClassDecl.name_skeleton,
        decl.declared_skeleton, Member.declared_skeletons rest]

end

theorem UnitTree.declared_skeleton (unit : Nat) (u : UnitTree) :
    u.skeleton.declared unit = (u.declared unit).map DeclaredClass.skeleton := by
  have from_ : ∀ (cs : List ClassDecl) (i : Nat),
      u.skeleton.declaredFrom unit i (cs.map ClassDecl.skeleton) =
        (u.declaredFrom unit i cs).map DeclaredClass.skeleton := by
    intro cs
    induction cs with
    | nil => intro i; rfl
    | cons c rest ih =>
        intro i
        have hname : u.skeleton.binaryName c.skeleton = u.binaryName c := by
          simp [UnitTree.binaryName, UnitTree.skeleton, UnitTree.packageName?]
        have hpackage : u.skeleton.packageName? = u.packageName? := rfl
        simp only [List.map_cons, UnitTree.declaredFrom, List.map_append,
          ClassDecl.declared_skeleton, hname, hpackage, ih]
  exact from_ u.types 0

theorem DeclaredClass.symbol_skeleton (d : DeclaredClass) : d.skeleton.symbol = d.symbol := by
  simp [DeclaredClass.symbol, DeclaredClass.skeleton, DeclaredClass.memberTypes,
    ClassDecl.nested_skeleton, Function.comp_def]

/-! ## Different classes have different places -/

section

variable {unit : Nat} {package : Option String}

mutual

theorem ClassDecl.nodup_places : ∀ (c : ClassDecl) {outer : Option String} {place : List Nat}
    {binary : String},
    ((c.declared unit package outer place binary).map DeclaredClass.place).Nodup
  | ⟨name, modifiers, superclass, members, pos⟩, outer, place, binary => by
      refine List.nodup_cons.mpr ⟨fun h => ?_, Member.nodup_places members⟩
      obtain ⟨d, hd, hplace⟩ := List.mem_map.mp h
      obtain ⟨k, path, _, hd, _⟩ := Member.at?_of_mem_declared members hd
      rw [hplace] at hd
      simpa using congrArg List.length hd

theorem Member.nodup_places : ∀ (members : List Member) {place : List Nat} {binary : String}
    {i : Nat},
    ((Member.declared unit package place binary i members).map DeclaredClass.place).Nodup
  | [], _, _, _ => List.nodup_nil
  | .field _ :: rest, _, _, _ => Member.nodup_places rest
  | .method _ :: rest, _, _, _ => Member.nodup_places rest
  | .type decl :: rest, place, binary, i => by
      simp only [Member.declared, List.map_append]
      refine List.nodup_append.mpr ⟨decl.nodup_places, Member.nodup_places rest, ?_⟩
      rintro _ ha _ hb rfl
      obtain ⟨d, hd, hplace⟩ := List.mem_map.mp ha
      obtain ⟨d', hd', hplace'⟩ := List.mem_map.mp hb
      obtain ⟨path, hd, _⟩ := decl.at?_of_mem_declared hd
      obtain ⟨k, path', _, hd', _⟩ := Member.at?_of_mem_declared rest hd'
      rw [hplace] at hd
      rw [hplace', hd, List.append_assoc] at hd'
      have hi := List.append_cancel_left hd'
      simp at hi
      omega

end

theorem UnitTree.nodup_places (u : UnitTree) :
    ((u.declared unit).map DeclaredClass.place).Nodup := by
  have from_ : ∀ (cs : List ClassDecl) (k : Nat),
      ((u.declaredFrom unit k cs).map DeclaredClass.place).Nodup := by
    intro cs
    induction cs with
    | nil => intro k; exact List.nodup_nil
    | cons c rest ih =>
        intro k
        simp only [UnitTree.declaredFrom, List.map_append]
        refine List.nodup_append.mpr ⟨c.nodup_places, ih (k + 1), ?_⟩
        rintro _ ha _ hb rfl
        obtain ⟨d, hd, hplace⟩ := List.mem_map.mp ha
        obtain ⟨d', hd', hplace'⟩ := List.mem_map.mp hb
        obtain ⟨path, hd, _⟩ := c.at?_of_mem_declared hd
        obtain ⟨i, c', _, hd'⟩ := UnitTree.mem_declaredFrom rest hd'
        obtain ⟨path', hd', _⟩ := c'.at?_of_mem_declared hd'
        rw [hplace] at hd
        rw [hplace', hd] at hd'
        simp at hd'
        omega
  exact from_ u.types 0

end

end ProbeLang
