import ProbeLang.Proofs.Code.Evaluation
import ProbeLang.Proofs.Code.Jumps
import ProbeLang.Proofs.Code.Methods
import ProbeLang.Proofs.Tree.Declared
import ProbeLang.Verifier.Policy

/-!
# Constructs and the code they become

The instructions that carry out a construct stand only in the code of trees in which the construct
occurs, and the code of trees without loops has no jump that leads back. So the constructs that a
policy looks for in the tree of a class are all that the code of the class can have of them.
-/

namespace ProbeLang

open CodeM Code SymbolicCode

/-! ## Occurrences -/

/-- A construct and where it stands. -/
structure Occurrence where
  construct : Construct
  pos : Pos
  deriving Repr, DecidableEq

mutual

/-- The constructs in an expression. -/
def Expr.occurrences : Expr → List Occurrence
  | .literal .. | .name .. | .this _ => []
  | .field _ target _ => target.occurrences
  | .call _ _ args => Expr.allOccurrences args
  | .invoke _ target _ args => target.occurrences ++ Expr.allOccurrences args
  | .new n _ args => ⟨.objectCreation, n.pos⟩ :: Expr.allOccurrences args
  | .newArray n _ length => ⟨.objectCreation, n.pos⟩ :: length.occurrences
  | .index _ target i => target.occurrences ++ i.occurrences
  | .unary _ _ operand => operand.occurrences
  | .binary _ _ lhs rhs => lhs.occurrences ++ rhs.occurrences
  | .assign n target value =>
      (if target.assignsField then [⟨.fieldAssignment, n.pos⟩] else []) ++
        (target.occurrences ++ value.occurrences)

/-- The constructs in expressions. -/
def Expr.allOccurrences : List Expr → List Occurrence
  | [] => []
  | e :: rest => e.occurrences ++ Expr.allOccurrences rest

end

/-- The constructs in an optional expression. -/
def Expr.occurrences? : Option Expr → List Occurrence
  | none => []
  | some e => e.occurrences

/-- The constructs in the first part of a `for` header. -/
def ForInit.occurrences : ForInit → List Occurrence
  | .none => []
  | .declare d => Expr.occurrences? d.init
  | .expr _ e => e.occurrences

mutual

/-- The constructs in a statement. -/
def Stmt.occurrences : Stmt → List Occurrence
  | .block _ body => Stmt.allOccurrences body
  | .declare d => Expr.occurrences? d.init
  | .ifThen _ cond s => cond.occurrences ++ s.occurrences
  | .ifElse _ cond s t => cond.occurrences ++ s.occurrences ++ t.occurrences
  | .whileLoop pos cond body => ⟨.loop, pos⟩ :: (cond.occurrences ++ body.occurrences)
  | .forLoop pos init cond update body =>
      ⟨.loop, pos⟩ :: (init.occurrences ++ Expr.occurrences? cond ++ Expr.occurrences? update ++
        body.occurrences)
  | .ret _ value => Expr.occurrences? value
  | .throw pos value => ⟨.throw, pos⟩ :: value.occurrences
  | .synchronized pos lock _ body =>
      ⟨.synchronized, pos⟩ :: (lock.occurrences ++ Stmt.allOccurrences body)
  | .expr _ e => e.occurrences
  | .empty _ => []

/-- The constructs in statements. -/
def Stmt.allOccurrences : List Stmt → List Occurrence
  | [] => []
  | s :: rest => s.occurrences ++ Stmt.allOccurrences rest

end

/-- A member that is not static. -/
def instanceOccurrence (m : Modifiers) (pos : Pos) : List Occurrence :=
  if m.has .isStatic then [] else [⟨.instanceMember, pos⟩]

mutual

/-- The constructs in a class. -/
def ClassDecl.occurrences (c : ClassDecl) : List Occurrence :=
  match c with
  | ⟨_, _, _, members, _⟩ => Member.allOccurrences members
termination_by structural c

/-- The constructs in a member. -/
def Member.occurrences : Member → List Occurrence
  | .field f => instanceOccurrence f.modifiers f.pos ++ Expr.occurrences? f.init
  | .method m => instanceOccurrence m.modifiers m.pos ++ Stmt.allOccurrences m.body.body
  | .type decl => ⟨.nestedClass, decl.pos⟩ :: decl.occurrences
termination_by structural m => m

/-- The constructs in members. -/
def Member.allOccurrences : List Member → List Occurrence
  | [] => []
  | m :: rest => m.occurrences ++ Member.allOccurrences rest
termination_by structural ms => ms

end

/-- Whether a construct is among occurrences. -/
def Construct.Among (k : Construct) (os : List Occurrence) : Prop :=
  ∃ o ∈ os, o.construct = k

namespace Construct.Among

variable {k : Construct} {os os' : List Occurrence}

theorem mono (h : k.Among os) (hos : os ⊆ os') : k.Among os' := by
  obtain ⟨o, ho, hk⟩ := h
  exact ⟨o, hos ho, hk⟩

theorem left (h : k.Among os) (os' : List Occurrence) : k.Among (os ++ os') :=
  h.mono (List.subset_append_left _ _)

theorem right (h : k.Among os') (os : List Occurrence) : k.Among (os ++ os') :=
  h.mono (List.subset_append_right _ _)

theorem self {pos : Pos} : k.Among (⟨k, pos⟩ :: os) :=
  ⟨_, List.mem_cons_self, rfl⟩

theorem behind (h : k.Among os) (o : Occurrence) : k.Among (o :: os) :=
  h.mono (List.subset_cons_self _ _)

end Construct.Among

/-! ## Instructions -/

/-- The construct that an instruction carries out. Whether a jump belongs to a loop is not to be seen
from the jump alone. -/
def Instr.construct? {κ : Type} : Instr κ → Option Construct
  | .new _ | .newArray _ => some .objectCreation
  | .throw => some .throw
  | .monitorEnter | .monitorExit => some .synchronized
  | .putField _ | .putStatic _ => some .fieldAssignment
  | _ => none

namespace Instr

variable {κ κ' : Type}

@[simp] theorem construct?_map (f : κ → κ') (i : Instr κ) : (i.map f).construct? = i.construct? := by
  cases i <;> rfl

@[simp] theorem construct?_untargeted (i : Instr κ) : i.untargeted.construct? = i.construct? := by
  cases i <;> rfl

end Instr

/-! ## Expressions -/

theorem Expr.allOccurrences_eq : ∀ es : List Expr,
    Expr.allOccurrences es = es.flatMap Expr.occurrences
  | [] => rfl
  | e :: rest => by rw [Expr.allOccurrences, Expr.allOccurrences_eq rest, List.flatMap_cons]

mutual

/-- What occurs in an expression that is evaluated with another occurs in that one. -/
theorem Expr.occurrences_subset : ∀ (e : Expr) {x : Expr}, x ∈ e.evaluated →
    x.occurrences ⊆ e.occurrences
  | .literal .., x, h | .name .., x, h | .this _, x, h | .new .., x, h => by
      obtain rfl := List.mem_singleton.mp h
      exact List.Subset.refl _
  | .field n target member, x, h => by
      rcases List.mem_cons.mp h with rfl | h
      · exact List.Subset.refl _
      · exact target.occurrences_subset (List.mem_ite_nil_left.mp h).2
  | .call n callee args, x, h => by
      rcases List.mem_cons.mp h with rfl | h
      · exact List.Subset.refl _
      · exact Expr.allOccurrences_subset args h
  | .invoke n target callee args, x, h => by
      rcases List.mem_cons.mp h with rfl | h
      · exact List.Subset.refl _
      rcases List.mem_append.mp h with h | h
      · exact List.subset_append_of_subset_left _
          (target.occurrences_subset (List.mem_ite_nil_left.mp h).2)
      · exact List.subset_append_of_subset_right _ (Expr.allOccurrences_subset args h)
  | .newArray n elem length, x, h => by
      rcases List.mem_cons.mp h with rfl | h
      · exact List.Subset.refl _
      · exact List.subset_cons_of_subset _ (length.occurrences_subset h)
  | .index n target i, x, h => by
      rcases List.mem_cons.mp h with rfl | h
      · exact List.Subset.refl _
      rcases List.mem_append.mp h with h | h
      · exact List.subset_append_of_subset_left _ (target.occurrences_subset h)
      · exact List.subset_append_of_subset_right _ (i.occurrences_subset h)
  | .unary n op operand, x, h => by
      rcases List.mem_cons.mp h with rfl | h
      · exact List.Subset.refl _
      · exact operand.occurrences_subset h
  | .binary n op lhs rhs, x, h => by
      rcases List.mem_cons.mp h with rfl | h
      · exact List.Subset.refl _
      rcases List.mem_append.mp h with h | h
      · exact List.subset_append_of_subset_left _ (lhs.occurrences_subset h)
      · exact List.subset_append_of_subset_right _ (rhs.occurrences_subset h)
  | .assign n target value, x, h => by
      have hvalue : x ∈ value.evaluated → x.occurrences ⊆ Expr.occurrences (.assign n target value) :=
        fun hx => List.subset_append_of_subset_right _
          (List.subset_append_of_subset_right _ (value.occurrences_subset hx))
      have htarget {e : Expr} (he : e.occurrences ⊆ target.occurrences)
          (hx : x.occurrences ⊆ e.occurrences) :
          x.occurrences ⊆ Expr.occurrences (.assign n target value) :=
        List.subset_append_of_subset_right _
          (List.subset_append_of_subset_left _ (List.Subset.trans hx he))
      cases target with
      | field m of member =>
          rcases List.mem_cons.mp h with rfl | h
          · exact List.Subset.refl _
          rcases List.mem_append.mp h with h | h
          · exact htarget (List.Subset.refl _)
              (of.occurrences_subset (List.mem_ite_nil_left.mp h).2)
          · exact hvalue h
      | index m of at_ =>
          rcases List.mem_cons.mp h with rfl | h
          · exact List.Subset.refl _
          rcases List.mem_append.mp h with h | h
          · rcases List.mem_append.mp h with h | h
            · exact htarget (List.subset_append_left _ _) (of.occurrences_subset h)
            · exact htarget (List.subset_append_right _ _) (at_.occurrences_subset h)
          · exact hvalue h
      | _ =>
          rcases List.mem_cons.mp h with rfl | h
          · exact List.Subset.refl _
          · exact hvalue h

theorem Expr.allOccurrences_subset : ∀ (es : List Expr) {x : Expr}, x ∈ Expr.evaluatedAll es →
    x.occurrences ⊆ Expr.allOccurrences es
  | e :: rest, x, h => by
      rcases List.mem_append.mp h with h | h
      · exact List.subset_append_of_subset_left _ (e.occurrences_subset h)
      · exact List.subset_append_of_subset_right _ (Expr.allOccurrences_subset rest h)

end

/-- Only what assigns a field stores in one. -/
theorem Expr.assignsField_of_mem_stores {target : Expr} {i : Instr String} {k : Construct}
    (h : i ∈ target.stores) (hk : i.construct? = some k) :
    k = .fieldAssignment ∧ target.assignsField = true := by
  unfold stores at h
  unfold assignsField
  split at h
  all_goals
    simp [SymbolicCode.self] at h
  case h_1 | h_6 =>
    rcases h with rfl | rfl <;> cases hk
  all_goals
    next hr =>
      rw [hr]
      rcases h with rfl | rfl | rfl <;> cases hk
      exact ⟨rfl, rfl⟩

/-- What an expression itself contributes carries out what occurs in it. -/
theorem Expr.among_of_mem_own {e : Expr} {i : Instr String} {k : Construct} (h : i ∈ e.own)
    (hk : i.construct? = some k) : k.Among e.occurrences := by
  have hplain (hown : ∀ j ∈ e.own, j.construct? = none) : k.Among e.occurrences := by
    rw [hown i h] at hk
    cases hk
  cases e with
  | new n type args =>
      simp only [own] at h
      split at h
      · simp only [SymbolicCode.create, List.mem_cons, List.not_mem_nil, or_false] at h
        rcases h with rfl | rfl | rfl <;> cases hk
        exact .self
      · cases h
  | newArray n elem length =>
      obtain rfl := List.mem_singleton.mp h
      cases hk
      exact .self
  | assign n target value =>
      obtain ⟨rfl, hassigns⟩ := Expr.assignsField_of_mem_stores h hk
      rw [Expr.occurrences, if_pos hassigns]
      exact .self
  | literal n v => exact hplain (by cases v <;> simp [own, SymbolicCode.constant, Instr.construct?])
  | name n ident | call n callee args | invoke n target callee args =>
      refine hplain ?_
      simp only [own]
      split <;> simp [SymbolicCode.self, Instr.construct?]
  | field n target member =>
      refine hplain ?_
      simp only [own]
      split
      · simp [Instr.construct?]
      · simp [Instr.construct?]
      · split <;> simp [Instr.construct?]
  | this n | index n target at_ => exact hplain (by simp [own, SymbolicCode.self, Instr.construct?])
  | unary n op operand => exact hplain (by cases op <;> simp [own, unaryInstr, Instr.construct?])
  | binary n op lhs rhs =>
      refine hplain ?_
      cases op <;> cases htext : n.ty.any Ty.isString <;>
        simp [own, skipInstr, binaryInstr, Instr.construct?, htext]

/-- The code of an expression carries out what occurs in it. -/
theorem Expr.among_of_mem_code {e : Expr} {pc : Nat} {i : Instr String} {k : Construct}
    (h : i ∈ e.code pc) (hk : i.construct? = some k) : k.Among e.occurrences := by
  obtain ⟨x, hx, hown⟩ := e.contributes_of_mem_code h
  exact (Expr.among_of_mem_own hown (by rwa [Instr.construct?_untargeted])).mono
    (e.occurrences_subset hx)

theorem Expr.among_of_mem_discardedCode {e : Expr} {pc : Nat} {i : Instr String} {k : Construct}
    (h : i ∈ e.discardedCode pc) (hk : i.construct? = some k) : k.Among e.occurrences := by
  unfold discardedCode at h
  split at h
  · exact Expr.among_of_mem_code h hk
  · rcases List.mem_append.mp h with h | h
    · exact Expr.among_of_mem_code h hk
    · obtain rfl := List.mem_singleton.mp h
      cases hk

theorem Expr.among_of_mem_discardedCode? {e : Option Expr} {pc : Nat} {i : Instr String}
    {k : Construct} (h : i ∈ Expr.discardedCode? pc e) (hk : i.construct? = some k) :
    k.Among (Expr.occurrences? e) := by
  cases e with
  | none => cases h
  | some e => exact Expr.among_of_mem_discardedCode h hk

/-! ## Statements -/

theorem LocalVar.among_of_mem_code {d : LocalVar} {pc : Nat} {i : Instr String} {k : Construct}
    (h : i ∈ d.code pc) (hk : i.construct? = some k) : k.Among (Expr.occurrences? d.init) := by
  unfold LocalVar.code at h
  split at h
  · next e slot hinit _ =>
      rw [hinit]
      rcases List.mem_append.mp h with h | h
      · exact Expr.among_of_mem_code h hk
      · obtain rfl := List.mem_singleton.mp h
        cases hk
  · cases h

theorem ForInit.among_of_mem_code {init : ForInit} {pc : Nat} {i : Instr String} {k : Construct}
    (h : i ∈ init.code pc) (hk : i.construct? = some k) : k.Among init.occurrences := by
  cases init with
  | none => cases h
  | declare d => exact LocalVar.among_of_mem_code h hk
  | expr pos e => exact Expr.among_of_mem_discardedCode h hk

mutual

/-- The code of a statement carries out what occurs in it. -/
theorem Stmt.among_of_mem_code : ∀ (s : Stmt) {pc slot : Nat} {i : Instr String} {k : Construct},
    i ∈ s.code pc slot → i.construct? = some k → k.Among s.occurrences
  | .block _ body, _, _, _, _, h, hk => Stmt.among_of_mem_codeAll body h hk
  | .declare _, _, _, _, _, h, hk => LocalVar.among_of_mem_code h hk
  | .ifThen _ cond s, _, _, _, _, h, hk => by
      rcases List.mem_append.mp h with h | h
      · exact (Expr.among_of_mem_code h hk).left _
      rcases List.mem_cons.mp h with rfl | h
      · cases hk
      · exact (s.among_of_mem_code h hk).right _
  | .ifElse _ cond s t, _, _, _, _, h, hk => by
      rcases List.mem_append.mp h with h | h
      · rcases List.mem_append.mp h with h | h
        · exact ((Expr.among_of_mem_code h hk).left _).left _
        rcases List.mem_cons.mp h with rfl | h
        · cases hk
        · exact ((s.among_of_mem_code h hk).right _).left _
      rcases List.mem_cons.mp h with rfl | h
      · cases hk
      · exact (t.among_of_mem_code h hk).right _
  | .whileLoop _ cond body, _, _, _, _, h, hk => by
      rcases List.mem_append.mp h with h | h
      · rcases List.mem_append.mp h with h | h
        · exact ((Expr.among_of_mem_code h hk).left _).behind _
        rcases List.mem_cons.mp h with rfl | h
        · cases hk
        · exact ((body.among_of_mem_code h hk).right _).behind _
      · obtain rfl := List.mem_singleton.mp h
        cases hk
  | .forLoop _ init none update body, _, _, _, _, h, hk => by
      rcases List.mem_append.mp h with h | h
      · rcases List.mem_append.mp h with h | h
        · rcases List.mem_append.mp h with h | h
          · exact ((((ForInit.among_of_mem_code h hk).left _).left _).left _).behind _
          · exact ((body.among_of_mem_code h hk).right _).behind _
        · exact (((Expr.among_of_mem_discardedCode? h hk).right _).left _).behind _
      · obtain rfl := List.mem_singleton.mp h
        cases hk
  | .forLoop _ init (some cond) update body, _, _, _, _, h, hk => by
      have hcond {pc : Nat} {i : Instr String} {k : Construct} (h : i ∈ cond.code pc)
          (hk : i.construct? = some k) : k.Among (Expr.occurrences? (some cond)) :=
        Expr.among_of_mem_code h hk
      rcases List.mem_append.mp h with h | h
      · rcases List.mem_append.mp h with h | h
        · rcases List.mem_append.mp h with h | h
          · rcases List.mem_append.mp h with h | h
            · exact ((((ForInit.among_of_mem_code h hk).left _).left _).left _).behind _
            · exact ((((hcond h hk).right _).left _).left _).behind _
          rcases List.mem_cons.mp h with rfl | h
          · cases hk
          · exact ((body.among_of_mem_code h hk).right _).behind _
        · exact (((Expr.among_of_mem_discardedCode? h hk).right _).left _).behind _
      · obtain rfl := List.mem_singleton.mp h
        cases hk
  | .ret _ none, _, _, _, _, h, hk => by
      obtain rfl := List.mem_singleton.mp h
      cases hk
  | .ret _ (some e), _, _, _, _, h, hk => by
      rcases List.mem_append.mp h with h | h
      · have hvalue := Expr.among_of_mem_code h hk
        exact hvalue
      · obtain rfl := List.mem_singleton.mp h
        cases hk
  | .throw _ value, _, _, _, _, h, hk => by
      rcases List.mem_append.mp h with h | h
      · exact (Expr.among_of_mem_code h hk).behind _
      · obtain rfl := List.mem_singleton.mp h
        cases hk
        exact .self
  | .synchronized _ lock _ body, _, _, _, _, h, hk => by
      rcases List.mem_append.mp h with h | h
      · rcases List.mem_append.mp h with h | h
        · rcases List.mem_append.mp h with h | h
          · exact ((Expr.among_of_mem_code h hk).left _).behind _
          · simp only [List.mem_cons, List.not_mem_nil, or_false] at h
            rcases h with rfl | rfl | rfl <;> cases hk
            exact .self
        · exact ((Stmt.among_of_mem_codeAll body h hk).right _).behind _
      · simp only [List.mem_cons, List.not_mem_nil, or_false] at h
        rcases h with rfl | rfl <;> cases hk
        exact .self
  | .expr _ e, _, _, _, _, h, hk => Expr.among_of_mem_discardedCode h hk
  | .empty _, _, _, _, _, h, _ => by cases h

theorem Stmt.among_of_mem_codeAll : ∀ (ss : List Stmt) {pc slot : Nat} {i : Instr String}
    {k : Construct}, i ∈ Stmt.codeAll pc slot ss → i.construct? = some k →
      k.Among (Stmt.allOccurrences ss)
  | [], _, _, _, _, h, _ => by cases h
  | s :: rest, _, _, _, _, h, hk => by
      rcases List.mem_append.mp h with h | h
      · exact (s.among_of_mem_code h hk).left _
      · exact (Stmt.among_of_mem_codeAll rest h hk).right _

end

mutual

/-- Without loops in a statement all jumps in its code lead further on. -/
theorem Stmt.code_skips : ∀ (s : Stmt) (pc slot : Nat), ¬ Construct.loop.Among s.occurrences →
    Skips pc (s.code pc slot)
  | .block _ body, pc, slot, h => Stmt.codeAll_skips body pc slot h
  | .declare d, pc, _, _ => d.code_skips pc
  | .ifThen _ cond s, pc, slot, h =>
      (cond.code_skips pc).jump_over (s.code_skips _ slot fun hs => h (hs.right _))
        fun _ ht => by cases ht; rfl
  | .ifElse _ cond s t, pc, slot, h =>
      (cond.code_skips pc).branches (s.code_skips _ slot fun hs => h ((hs.right _).left _))
        (t.code_skips _ (slot + s.locks) fun ht => h (ht.right _)) rfl rfl
  | .whileLoop pos cond body, _, _, h => absurd .self h
  | .forLoop pos init cond update body, _, _, h => absurd .self h
  | .ret _ none, pc, _, _ => .of_straight (by simp [Stmt.code, Instr.target?]) pc
  | .ret _ (some e), pc, _, _ => (e.code_skips pc).append_straight (by simp [Instr.target?])
  | .throw _ value, pc, _, _ => (value.code_skips pc).append_straight (by simp [Instr.target?])
  | .synchronized _ lock _ body, pc, slot, h => by
      have henter : Skips pc (lock.code pc ++ [.dup, .store (UInt16.ofNat slot), .monitorEnter]) :=
        (lock.code_skips pc).append_straight (by simp [Instr.target?])
      exact (henter.append (Stmt.codeAll_skips body _ (slot + 1) fun hs =>
        h ((hs.right _).behind _))).append_straight (by simp [Instr.target?])
  | .expr _ e, pc, _, _ => e.discardedCode_skips pc
  | .empty _, pc, _, _ => .of_straight straight_nil pc

theorem Stmt.codeAll_skips : ∀ (ss : List Stmt) (pc slot : Nat),
    ¬ Construct.loop.Among (Stmt.allOccurrences ss) → Skips pc (Stmt.codeAll pc slot ss)
  | [], pc, _, _ => .of_straight straight_nil pc
  | s :: rest, pc, slot, h => by
      exact (s.code_skips pc slot fun hs => h (hs.left _)).append
        (Stmt.codeAll_skips rest _ _ fun hs => h (hs.right _))

end

/-! ## Classes -/

theorem Member.allOccurrences_eq : ∀ members : List Member,
    Member.allOccurrences members = members.flatMap Member.occurrences
  | [] => rfl
  | m :: rest => by rw [Member.allOccurrences, Member.allOccurrences_eq rest, List.flatMap_cons]

theorem instanceMember_among {m : Modifiers} {pos : Pos} (h : m.has .isStatic = false) :
    Construct.instanceMember.Among (instanceOccurrence m pos) := by
  rw [instanceOccurrence, h]
  exact .self

mutual

/-- What occurs in a class that is declared in another occurs in that one. -/
theorem ClassDecl.occurrences_declared {unit : Nat} {package : Option String} {d : DeclaredClass} :
    ∀ (c : ClassDecl) {outer : Option String} {place : List Nat} {binary : String},
      d ∈ c.declared unit package outer place binary → d.decl.occurrences ⊆ c.occurrences
  | ⟨_, _, _, members, _⟩, _, _, _, h => by
      rcases List.mem_cons.mp h with rfl | h
      · exact List.Subset.refl _
      · exact Member.occurrences_declared members h

theorem Member.occurrences_declared {unit : Nat} {package : Option String} {d : DeclaredClass} :
    ∀ (members : List Member) {place : List Nat} {binary : String} {i : Nat},
      d ∈ Member.declared unit package place binary i members →
        d.decl.occurrences ⊆ Member.allOccurrences members
  | .field _ :: rest, _, _, _, h | .method _ :: rest, _, _, _, h =>
      List.subset_append_of_subset_right _ (Member.occurrences_declared rest h)
  | .type decl :: rest, _, _, _, h => by
      rcases List.mem_append.mp h with h | h
      · exact List.subset_append_of_subset_left _
          (List.subset_cons_of_subset _ (decl.occurrences_declared h))
      · exact List.subset_append_of_subset_right _ (Member.occurrences_declared rest h)

end

namespace ClassDecl

variable {c : ClassDecl} {symbol : ClassSymbol} {superclass : String} {sym : SymbolicMethod}
  {k : Construct}

theorem occurrences_member {m : Member} (hm : m ∈ c.members) : m.occurrences ⊆ c.occurrences := by
  cases c
  intro o ho
  show o ∈ Member.allOccurrences _
  rw [Member.allOccurrences_eq]
  exact List.mem_flatMap.mpr ⟨m, hm, ho⟩

theorem method_among {m : MethodDecl} (hm : m ∈ c.methods)
    (h : k.Among (Member.occurrences (.method m))) : k.Among c.occurrences := by
  obtain ⟨m, hm, heq⟩ := List.mem_filterMap.mp hm
  cases m <;> cases heq
  exact h.mono (occurrences_member hm)

/-- The methods of the artifact of a class are its initialisers and those that are declared. -/
theorem mem_symbolicMethods (h : sym ∈ c.symbolicMethods symbol superclass) :
    sym = c.symbolicInit symbol superclass ∨ sym = c.symbolicClassInit symbol ∨
      ∃ m ∈ c.methods, ∃ sig, sym = m.symbolic sig := by
  rcases List.mem_cons.mp h with rfl | h
  · exact .inl rfl
  rcases List.mem_append.mp h with h | h
  · obtain ⟨⟨m, sig⟩, hm, rfl⟩ := List.mem_map.mp h
    exact .inr (.inr ⟨m, (List.of_mem_zip hm).1, sig, rfl⟩)
  · split at h
    · exact .inr (.inl (List.mem_singleton.mp h))
    · cases h

end ClassDecl

namespace ClassDecl

variable {c : ClassDecl} {symbol : ClassSymbol} {superclass : String} {sym : SymbolicMethod}
  {k : Construct}

end ClassDecl

end ProbeLang
