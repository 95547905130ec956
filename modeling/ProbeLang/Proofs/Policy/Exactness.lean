import ProbeLang.Proofs.Policy.Occurrences
import ProbeLang.Proofs.Tree.Walk

/-!
# A policy finds exactly what it forbids

Every part of a class is at most one construct, at its own place (`TreePart.construct?`). The scan of
a policy notes, wherever it comes, the construct that the part is, if it is forbidden, and goes on
with the walk; so what is wrong with a class is read off from the parts below it, in their order
(`Policy.check_exact`). Annotations have no parts.
-/

namespace ProbeLang

namespace TreePart

/-- The construct that a part is. -/
def construct? : TreePart → Option Construct
  | .cls _ => some .nestedClass
  | .field f => if f.modifiers.has .isStatic then none else some .instanceMember
  | .method m => if m.modifiers.has .isStatic then none else some .instanceMember
  | .stmt (.whileLoop ..) | .stmt (.forLoop ..) => some .loop
  | .stmt (.throw ..) => some .throw
  | .stmt (.synchronized ..) => some .synchronized
  | .stmt _ => none
  | .expr (.new ..) | .expr (.newArray ..) => some .objectCreation
  | .expr (.assign _ target _) => if target.assignsField then some .fieldAssignment else none
  | .expr _ => none

/-- Where a part stands. -/
def pos : TreePart → Pos
  | .cls c => c.pos
  | .field f => f.pos
  | .method m => m.pos
  | .stmt s => s.pos
  | .expr e => e.pos

/-- The constructs in a part, itself included. -/
def occurrences : TreePart → List Occurrence
  | .cls c => Member.occurrences (.type c)
  | .field f => Member.occurrences (.field f)
  | .method m => Member.occurrences (.method m)
  | .stmt s => s.occurrences
  | .expr e => e.occurrences

end TreePart

/-! ## Policies -/

/-- The parts of a class that are not the class itself, with their places. -/
def ClassDecl.walk (c : ClassDecl) : List (List Nat × TreePart) :=
  (TreePart.cls c).below

namespace Policy

/-- The violation that a part is. -/
def violation? (p : Policy) (t : TreePart) : Option Violation :=
  (t.construct?.filter p.forbids).map fun k => ⟨k, p.messageKey k, t.pos⟩

/-- Note the violation that a part is. -/
def note (p : Policy) (t : TreePart) (found : Array Violation) : Array Violation :=
  (p.violation? t).elim found found.push

theorem note_eq (p : Policy) (t : TreePart) (found : Array Violation) :
    p.note t found = t.construct?.elim found fun k => p.flag k t.pos found := by
  unfold note violation? flag
  cases t.construct? with
  | none => rfl
  | some k => cases hk : p.forbids k <;> simp [Option.filter_some, hk]

/-- The scan goes on with the walk everywhere. -/
theorem scan_eq (p : Policy) : p.scan = .each p.note := by
  unfold scan Visitor.each
  congr 1 <;> funext t walk found <;> rw [note_eq] <;> refine congrArg walk ?_
  case e_cls => rfl
  case e_field | e_method =>
    dsimp only [TreePart.construct?]
    split <;> rfl
  case e_stmt => cases t <;> rfl
  case e_expr =>
    cases t with
    | assign n target value =>
        dsimp only [TreePart.construct?]
        split <;> rfl
    | _ => rfl

theorem foldl_note (p : Policy) (ts : List TreePart) (found : Array Violation) :
    (ts.foldl (fun found t => p.note t found) found).toList =
      found.toList ++ ts.filterMap p.violation? := by
  induction ts generalizing found with
  | nil => exact (List.append_nil _).symm
  | cons t rest ih =>
      rw [List.foldl_cons, ih, note, List.filterMap_cons]
      cases p.violation? t <;> simp

theorem check_eq_walk (p : Policy) (c : ClassDecl) :
    p.check c = (c.walk.map Prod.snd).filterMap p.violation? := by
  rw [check, scan_eq]
  show (((Visitor.each p.note).walk (.cls c)) #[]).toList = _
  rw [Visitor.walk_each, foldl_note]
  rfl

/-- What is wrong with a class is what the parts below it are that are forbidden constructs, each at
its own place, in the order of the walk. The walk comes to every place below the class once, in the
order of the source. So does every visitor: it visits the children of a class, and gives each hook
the walk that visits the children of its part. If it goes on with the walk wherever it comes, it comes
to the parts of the walk one after another. -/
theorem check_exact (p : Policy) (c : ClassDecl) :
    p.check c = c.walk.filterMap (fun w => p.violation? w.2) ∧
    c.walk.Pairwise (fun a b => List.Lex (· < ·) a.1 b.1) ∧
    (∀ (path : List Nat) (t : TreePart),
      (path, t) ∈ c.walk ↔ path ≠ [] ∧ (TreePart.cls c).at? path = some t) ∧
    ∀ σ : Type,
      (∀ (v : Visitor σ) (s : σ),
        v.walkClass c s = (TreePart.cls c).children.foldl (fun s u => v.visit u s) s) ∧
      (∀ (v : Visitor σ) (t : TreePart),
        v.visit t = v.hook t fun s => t.children.foldl (fun s u => v.visit u s) s) ∧
      ∀ (f : TreePart → σ → σ) (s : σ),
        (Visitor.each f).walkClass c s = c.walk.foldl (fun s w => f w.2 s) s := by
  refine ⟨?_, (TreePart.cls c).below_sorted, fun _ _ => TreePart.mem_below_iff_at?, fun σ =>
    ⟨fun v s => v.walk_eq (.cls c) s, Visitor.visit_eq, fun f s => ?_⟩⟩
  · rw [check_eq_walk, List.filterMap_map]
    rfl
  · exact (Visitor.walk_each f (.cls c) s).trans List.foldl_map

/-- The class `class P \x7b @A(new B()) static int f; \x7d`. -/
def annotatedClass : ClassDecl where
  name := ⟨"P", ⟨1, 7⟩⟩
  modifiers := {}
  superclass := none
  members := [.field {
    modifiers := {
      annotations := [⟨⟨["A"], ⟨1, 12⟩⟩,
        [.value (.new ⟨⟨1, 14⟩, none, none⟩ ⟨.named ⟨["B"], ⟨1, 18⟩⟩, 0, ⟨1, 18⟩⟩ [])], ⟨1, 11⟩⟩],
      flags := [.isStatic] }
    type := ⟨.int, 0, ⟨1, 30⟩⟩
    name := ⟨"f", ⟨1, 34⟩⟩
    init := none
    pos := ⟨1, 30⟩ }]
  pos := ⟨1, 1⟩

/-- The class `class P \x7b static int x; static void f() \x7b x = 1; \x7d \x7d` before it has been
analysed. -/
def assigningClass : ClassDecl where
  name := ⟨"P", ⟨1, 7⟩⟩
  modifiers := {}
  superclass := none
  members := [
    .field {
      modifiers := { flags := [.isStatic] }
      type := ⟨.int, 0, ⟨1, 18⟩⟩
      name := ⟨"x", ⟨1, 22⟩⟩
      init := none
      pos := ⟨1, 18⟩ },
    .method {
      modifiers := { flags := [.isStatic] }
      ret := ⟨.void, 0, ⟨1, 32⟩⟩
      name := ⟨"f", ⟨1, 37⟩⟩
      params := []
      body := ⟨⟨1, 41⟩, [.expr ⟨1, 43⟩ (.assign ⟨⟨1, 43⟩, none, none⟩
        (.name ⟨⟨1, 43⟩, none, none⟩ "x") (.literal ⟨⟨1, 47⟩, none, none⟩ (.int 1)))]⟩
      pos := ⟨1, 32⟩ }]
  pos := ⟨1, 1⟩

/-- What is created in an annotation is not found, nor is the assignment to a field by its name alone
in a class that has not been analysed. -/
theorem check_overlooks :
    (strict.forbids .objectCreation = true ∧ strict.check annotatedClass = [] ∧
      ∃ f ∈ annotatedClass.fields, ∃ a ∈ f.modifiers.annotations, ∃ n type args,
        AnnotationArg.value (.new n type args) ∈ a.args) ∧
    strict.forbids .fieldAssignment = true ∧ strict.check assigningClass = [] ∧
      ∃ f ∈ assigningClass.fields, ∃ m ∈ assigningClass.methods, ∃ pos n n' value,
        m.body.body = [.expr pos (.assign n (.name n' f.name.name) value)] :=
  ⟨⟨by decide, by decide +kernel, _, List.mem_cons_self, _, List.mem_cons_self, _, _, _,
      List.mem_cons_self⟩,
    by decide, by decide +kernel, _, List.mem_cons_self, _, List.mem_cons_self, _, _, _, _, rfl⟩

end Policy

end ProbeLang
