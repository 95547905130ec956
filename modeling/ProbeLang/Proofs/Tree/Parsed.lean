import ProbeLang.Proofs.Fallible
import ProbeLang.Proofs.Tree.Declared
import ProbeLang.Proofs.Tree.Walk
import ProbeLang.Proofs.Tree.Words
import ProbeLang.Tree.Parser

/-!
# Trees straight from the parser

Nothing in a tree that has just been parsed refers to anything yet, only objects of named classes
are created, every name is a word, and `void` stands only where nothing is given back, or for a
parameter. Every reader of the parser sees to that, as long as the tokens that it may read hold what
their kinds allow (`Parse.Yields`).
-/

namespace ProbeLang

/-! ## Expressions and statements -/

/-- Whether what is written in an expression by itself is as the parser leaves it. -/
def Expr.Formed : Expr → Prop
  | .new _ type _ => type.dims = 0 ∧ ∃ path, type.base = .named path
  | .newArray _ elem _ => elem.base ≠ .void
  | .call _ callee _ | .invoke _ _ callee _ => Word callee.name
  | _ => True

/-- Whether an expression by itself is as the parser leaves it. -/
def Expr.AsParsed (e : Expr) : Prop :=
  e.note.refers = none ∧ e.Formed

/-- Whether an expression is as the parser leaves it. -/
def Expr.Parsed (e : Expr) : Prop :=
  ∀ x ∈ e.preorder, x.AsParsed

/-- Whether expressions are as the parser leaves them. -/
def Expr.AllParsed (es : List Expr) : Prop :=
  ∀ x ∈ Expr.preorderAll es, x.AsParsed

theorem Expr.Parsed.self {e : Expr} (h : e.Parsed) : e.AsParsed :=
  h e e.mem_preorder_self

theorem Expr.Parsed.operand {e x : Expr} (h : e.Parsed) (hx : x ∈ e.operands) : x.Parsed :=
  fun y hy => h y (mem_preorder_of_operand hx hy)

theorem Expr.Parsed.operands {e : Expr} (h : e.Parsed) : AllParsed e.operands := by
  intro x hx
  obtain ⟨y, hy, hx⟩ := mem_preorderAll.mp hx
  exact h.operand hy x hx

/-- Whether an optional expression is as the parser leaves it. -/
def Expr.Parsed? (e : Option Expr) : Prop :=
  ∀ x ∈ Expr.preorder? e, x.AsParsed

/-- Whether the declaration of a local variable is as the parser leaves it. -/
structure LocalVar.Parsed (d : LocalVar) : Prop where
  base : d.type.base ≠ .void
  init : Expr.Parsed? d.init

/-- Whether the first part of a `for` header is as the parser leaves it. -/
def ForInit.Parsed : ForInit → Prop
  | .none => True
  | .declare d => d.Parsed
  | .expr _ e => e.Parsed

mutual

/-- Whether a statement is as the parser leaves it. -/
def Stmt.Parsed : Stmt → Prop
  | .block _ body => Stmt.AllParsed body
  | .declare d => d.Parsed
  | .ifThen _ cond s => cond.Parsed ∧ s.Parsed
  | .ifElse _ cond s t => cond.Parsed ∧ s.Parsed ∧ t.Parsed
  | .whileLoop _ cond body => cond.Parsed ∧ body.Parsed
  | .forLoop _ init cond update body =>
      init.Parsed ∧ Expr.Parsed? cond ∧ Expr.Parsed? update ∧ body.Parsed
  | .ret _ value => Expr.Parsed? value
  | .throw _ value => value.Parsed
  | .synchronized _ lock _ body => lock.Parsed ∧ Stmt.AllParsed body
  | .expr _ value => value.Parsed
  | .empty _ => True

/-- Whether statements are as the parser leaves them. -/
def Stmt.AllParsed : List Stmt → Prop
  | [] => True
  | s :: rest => s.Parsed ∧ Stmt.AllParsed rest

end

theorem Stmt.allParsed_iff : ∀ {ss : List Stmt}, Stmt.AllParsed ss ↔ ∀ s ∈ ss, s.Parsed
  | [] => by simp [Stmt.AllParsed]
  | s :: ss => by rw [List.forall_mem_cons, ← Stmt.allParsed_iff, Stmt.AllParsed]

/-! ## Classes -/

/-- Whether there is no array of `void` in a type as written. -/
def TypeRef.Formed (t : TypeRef) : Prop :=
  t.base = .void → t.dims = 0

/-- Whether the declaration of a field, apart from its value, is as the parser leaves it. -/
def FieldDecl.Formed (f : FieldDecl) : Prop :=
  f.type.base ≠ .void

/-- Whether the declaration of a method, apart from its body, is as the parser leaves it. -/
structure MethodDecl.Formed (m : MethodDecl) : Prop where
  name : Word m.name.name
  ret : m.ret.Formed
  params : ∀ p ∈ m.params, p.type.Formed

/-- Whether the declarations of a class, apart from code, are as the parser leaves them. -/
structure ClassDecl.Formed (c : ClassDecl) : Prop where
  fields : ∀ f ∈ c.fields, f.Formed
  methods : ∀ m ∈ c.methods, m.Formed

mutual

/-- Whether a class is as the parser leaves it. -/
def ClassDecl.Parsed (c : ClassDecl) : Prop :=
  match c with
  | ⟨name, _, _, members, _⟩ => Word name.name ∧ Member.AllParsed members
termination_by structural c

/-- Whether members are as the parser leaves them. -/
def Member.AllParsed (members : List Member) : Prop :=
  match members with
  | [] => True
  | .field f :: rest => (f.Formed ∧ Expr.Parsed? f.init) ∧ Member.AllParsed rest
  | .method m :: rest => (m.Formed ∧ Stmt.AllParsed m.body.body) ∧ Member.AllParsed rest
  | .type c :: rest => c.Parsed ∧ Member.AllParsed rest
termination_by structural members

end

/-- Whether a member is as the parser leaves it. -/
def Member.Parsed : Member → Prop
  | .field f => f.Formed ∧ Expr.Parsed? f.init
  | .method m => m.Formed ∧ Stmt.AllParsed m.body.body
  | .type c => c.Parsed

theorem Member.allParsed_iff : ∀ {members : List Member},
    Member.AllParsed members ↔ ∀ m ∈ members, m.Parsed
  | [] => by simp [Member.AllParsed]
  | .field _ :: rest | .method _ :: rest | .type _ :: rest => by
      rw [List.forall_mem_cons, ← Member.allParsed_iff]
      rfl

namespace ClassDecl

variable {c c' : ClassDecl}

theorem Parsed.name (h : c.Parsed) : Word c.name.name := by
  cases c
  exact h.1

theorem Parsed.members (h : c.Parsed) : ∀ m ∈ c.members, m.Parsed := by
  cases c
  exact Member.allParsed_iff.mp h.2

theorem Parsed.formed (h : c.Parsed) : c.Formed := by
  constructor
  · intro f hf
    obtain ⟨m, hm, heq⟩ := List.mem_filterMap.mp hf
    cases m <;> cases heq
    exact (h.members _ hm).1
  · intro f hf
    obtain ⟨m, hm, heq⟩ := List.mem_filterMap.mp hf
    cases m <;> cases heq
    exact (h.members _ hm).1

/-- The code of a class has no part in how its declarations are formed. -/
theorem Formed.of_skeleton (h : c.Formed) (hskeleton : c'.skeleton = c.skeleton) : c'.Formed := by
  constructor
  · intro f' hf'
    have hmem : f'.skeleton ∈ c'.skeleton.fields := by
      rw [fields_skeleton]
      exact List.mem_map_of_mem hf'
    rw [hskeleton, fields_skeleton] at hmem
    obtain ⟨f, hf, heq⟩ := List.mem_map.mp hmem
    have htype := congrArg FieldDecl.type heq
    show f'.type.base ≠ .void
    exact htype ▸ h.fields f hf
  · intro m' hm'
    have hmem : m'.skeleton ∈ c'.skeleton.methods := by
      rw [methods_skeleton]
      exact List.mem_map_of_mem hm'
    rw [hskeleton, methods_skeleton] at hmem
    obtain ⟨m, hm, heq⟩ := List.mem_map.mp hmem
    have hname := congrArg MethodDecl.name heq
    have hret := congrArg MethodDecl.ret heq
    have hparams := congrArg MethodDecl.params heq
    dsimp only [MethodDecl.skeleton] at hname hret hparams
    obtain ⟨hword, hvoid, hvoids⟩ := h.methods m hm
    exact ⟨hname ▸ hword, hret ▸ hvoid, hparams ▸ hvoids⟩

end ClassDecl

mutual

/-- The classes in a parsed class are parsed and have names that are spelled. -/
theorem ClassDecl.parsed_of_mem_declared {unit : Nat} {package : Option String}
    {d : DeclaredClass} : ∀ (c : ClassDecl) {outer : Option String} {place : List Nat}
    {binary : String}, c.Parsed → Spelled binary →
    d ∈ c.declared unit package outer place binary → d.decl.Parsed ∧ Spelled d.binary
  | ⟨_, _, _, members, _⟩, _, _, _, h, hbinary, hd => by
      rcases List.mem_cons.mp hd with rfl | hd
      · exact ⟨h, hbinary⟩
      · exact Member.parsed_of_mem_declared members h.2 hbinary hd

theorem Member.parsed_of_mem_declared {unit : Nat} {package : Option String}
    {d : DeclaredClass} : ∀ (members : List Member) {place : List Nat} {binary : String} {i : Nat},
      Member.AllParsed members → Spelled binary →
      d ∈ Member.declared unit package place binary i members → d.decl.Parsed ∧ Spelled d.binary
  | .field _ :: rest, _, _, _, h, hbinary, hd | .method _ :: rest, _, _, _, h, hbinary, hd =>
      Member.parsed_of_mem_declared rest h.2 hbinary hd
  | .type c :: rest, _, binary, _, h, hbinary, hd => by
      rcases List.mem_append.mp hd with hd | hd
      · have hname : Spelled (binary ++ "$" ++ c.name.name) :=
          (hbinary.append word_dollar.spelled).append h.1.name.spelled
        exact c.parsed_of_mem_declared h.1 hname hd
      · exact Member.parsed_of_mem_declared rest h.2 hbinary hd

end

/-- Whether a unit is as the parser leaves it. -/
structure UnitTree.Parsed (u : UnitTree) : Prop where
  package : ∀ name, u.packageName? = some name → Spelled name
  types : ∀ c ∈ u.types, c.Parsed

/-- The classes of a parsed unit are parsed and have names that are spelled. -/
theorem UnitTree.Parsed.declared {u : UnitTree} (h : u.Parsed) {unit : Nat} {d : DeclaredClass}
    (hd : d ∈ u.declared unit) : d.decl.Parsed ∧ Spelled d.binary := by
  obtain ⟨i, c, hc, hd⟩ := UnitTree.mem_declared hd
  have hparsed := h.types c (List.mem_of_getElem? hc)
  refine c.parsed_of_mem_declared hparsed ?_ hd
  unfold UnitTree.binaryName
  cases hpackage : u.packageName? with
  | none => exact hparsed.name.spelled
  | some package =>
      exact ((h.package package hpackage).append spelled_dot).append hparsed.name.spelled

namespace Parse

variable {α β : Type} {m : Parse α} {f : α → Parse β} {Q Q' : α → Prop} {R : β → Prop}

/-- Whether the tokens that are still to be read hold what their kinds allow. -/
def Worded (s : TokenStream) : Prop :=
  ∀ t ∈ s.current :: s.rest, t.Worded

/-- Whether all that a reader can answer has a property, given tokens that hold what their kinds
allow. -/
def Yields (m : Parse α) (Q : α → Prop) : Prop :=
  ∀ s a t, Worded s → m.run s = .ok (a, t) → Worded t ∧ Q a

/-- Whether a reader leaves the tokens behind it as they are. -/
class Passes (m : Parse α) : Prop where
  yields : Yields m fun _ => True

namespace Yields

theorem pure {a : α} (h : Q a) : Yields (pure a) Q := by
  rintro s _ t hs hrun
  obtain ⟨rfl, rfl⟩ := pure_ok hrun
  exact ⟨hs, h⟩

theorem bind (hm : Yields m Q) (hf : ∀ a, Q a → Yields (f a) R) : Yields (m >>= f) R := by
  intro s b t hs hrun
  obtain ⟨a, s', ha, hrun⟩ := bind_ok hrun
  obtain ⟨hs', hq⟩ := hm s a s' hs ha
  exact hf a hq s' b t hs' hrun

theorem mono (hm : Yields m Q) (h : ∀ a, Q a → Q' a) : Yields m Q' :=
  fun s a t hs hrun => (hm s a t hs hrun).imp_right (h a)

theorem passes (hm : Yields m Q) : Passes m :=
  ⟨hm.mono fun _ _ => trivial⟩

/-- What is read first does not count. -/
theorem skip [hm : Passes m] (hf : ∀ a, Yields (f a) R) : Yields (m >>= f) R :=
  hm.yields.bind fun a _ => hf a

theorem fail {fault : SyntaxFault} : Yields (Parse.fail fault) Q := by
  rintro s a t hs hrun
  cases hrun

theorem failAt {pos : Pos} {fault : SyntaxFault} : Yields (Parse.failAt pos fault) Q := by
  rintro s a t hs hrun
  cases hrun

end Yields

instance {a : α} : Passes (pure a) := Yields.passes (Q := fun _ => True) (.pure trivial)

instance {g : α → β} [Passes m] : Passes (g <$> m) := by
  rw [map_eq_pure_bind]
  exact Yields.passes (Q := fun _ => True) (.skip fun _ => .pure trivial)

/-! ## Tokens and names -/

theorem worded_advance {s : TokenStream} (h : Worded s) : Worded s.advance := by
  obtain ⟨current, rest⟩ := s
  cases rest with
  | nil => exact h
  | cons t rest => exact (List.forall_mem_cons.mp h).2

theorem yields_get : Yields get Worded := by
  intro s a t hs hrun
  cases hrun
  exact ⟨hs, hs⟩

theorem yields_advance : Yields advance Token.Worded := by
  intro s a t hs hrun
  cases hrun
  exact ⟨worded_advance hs, hs _ List.mem_cons_self⟩

instance : Passes (get : Parse TokenStream) := yields_get.passes

instance : Passes advance := yields_advance.passes

theorem yields_peek : Yields peek Token.Worded :=
  yields_get.bind fun _ hs => .pure (hs _ List.mem_cons_self)

instance : Passes peek := yields_peek.passes

instance {kind : Token.Kind} : Passes (check kind) :=
  Yields.passes (Q := fun _ => True) (.skip fun _ => .pure trivial)

instance {kind : Token.Kind} : Passes (accept kind) := by
  refine Yields.passes (Q := fun _ => True) (.skip fun found => ?_)
  cases found with
  | true => exact .skip fun _ => .pure trivial
  | false => exact .pure trivial

/-- What is expected is read. -/
theorem yields_expect (kind : Token.Kind) :
    Yields (expect kind) fun t => t.kind = kind ∧ t.Worded := by
  intro s a t hs hrun
  obtain ⟨a', s', hpeek, hrun⟩ := bind_ok hrun
  cases hpeek
  by_cases hkind : s.current.kind = kind
  · rw [if_pos hkind] at hrun
    cases hrun
    exact ⟨worded_advance hs, hkind, hs _ List.mem_cons_self⟩
  · rw [if_neg hkind] at hrun
    split at hrun <;> cases hrun

instance {kind : Token.Kind} : Passes (expect kind) := (yields_expect kind).passes

theorem yields_ident : Yields ident fun i => Identifier i.name :=
  (yields_expect .identifier).bind fun _ ht => .pure (ht.2.ident ht.1)

instance : Passes ident := yields_ident.passes

theorem yields_pathRest : ∀ fuel (done : List String),
    Yields (pathRest fuel done) fun segments => ∃ more, segments = done.reverse ++ more ∧
      ∀ s ∈ more, Identifier s
  | 0, done => .pure ⟨[], (List.append_nil _).symm, List.forall_mem_nil _⟩
  | fuel + 1, done => by
      unfold pathRest
      refine .skip fun s => ?_
      split
      · refine .skip fun _ => (yields_expect .identifier).bind fun t ht => ?_
        refine (yields_pathRest fuel _).mono ?_
        rintro _ ⟨more, rfl, hmore⟩
        exact ⟨t.text :: more, by simp, List.forall_mem_cons.mpr ⟨ht.2.ident ht.1, hmore⟩⟩
      · exact .pure ⟨[], (List.append_nil _).symm, List.forall_mem_nil _⟩

/-- A dotted name has a segment, and its segments are identifiers. -/
theorem yields_segments (fuel : Nat) :
    Yields (path fuel) fun p => p.segments ≠ [] ∧ ∀ s ∈ p.segments, Identifier s := by
  refine (yields_expect .identifier).bind fun t ht => (yields_pathRest fuel [t.text]).bind ?_
  rintro _ ⟨more, rfl, hmore⟩
  exact .pure ⟨List.cons_ne_nil _ _, List.forall_mem_cons.mpr ⟨ht.2.ident ht.1, hmore⟩⟩

theorem yields_path (fuel : Nat) : Yields (path fuel) fun p => Spelled p.text := by
  refine (yields_segments fuel).mono fun p hp => ?_
  obtain ⟨first, rest, hsegments⟩ := List.exists_cons_of_ne_nil hp.1
  have hidents := hp.2
  rw [hsegments] at hidents
  obtain ⟨hfirst, hrest⟩ := List.forall_mem_cons.mp hidents
  rw [Path.text, hsegments]
  exact spelled_intercalate hfirst.word.spelled fun s hs => (hrest s hs).word

instance {fuel : Nat} : Passes (path fuel) := (yields_path fuel).passes

instance passes_dims : ∀ {fuel n : Nat}, Passes (dims fuel n)
  | 0, _ => Yields.passes (Q := fun _ => True) (.pure trivial)
  | fuel + 1, n => by
      refine Yields.passes (Q := fun _ => True) (.skip fun s => ?_)
      split
      · refine .skip fun _ => .skip fun _ => ?_
        split
        · exact .fail
        · exact passes_dims.yields
      · exact .pure trivial

instance {fuel : Nat} : Passes (typeName fuel) := by
  refine Yields.passes (Q := fun _ => True) (.skip fun t => ?_)
  split
  · exact .skip fun _ => .pure trivial
  · split
    · exact .skip fun _ => .pure trivial
    · exact .fail

theorem yields_type (fuel : Nat) : Yields (type fuel) TypeRef.Formed := by
  refine .skip fun t => .skip fun base => .skip fun n => ?_
  split
  · exact .failAt
  · next h =>
      refine .pure fun hvoid => ?_
      exact Nat.eq_zero_of_not_pos fun hn => h ⟨hvoid, hn⟩

instance {fuel : Nat} : Passes (type fuel) := (yields_type fuel).passes

/-- Only the word itself is read as `void`. -/
theorem ne_void_of_run {fuel : Nat} {s t : TokenStream} {base : TypeName}
    (hrun : (typeName fuel).run s = .ok (base, t)) (hs : s.current.kind ≠ .kwVoid) :
    base ≠ .void := by
  obtain ⟨_, s', hpeek, hrun⟩ := bind_ok hrun
  cases hpeek
  split at hrun
  · next named hprimitive =>
      obtain ⟨_, s', -, hrun⟩ := bind_ok hrun
      obtain ⟨rfl, -⟩ := pure_ok hrun
      rintro rfl
      unfold primitive? at hprimitive
      split at hprimitive
      · next hkind => exact hs hkind
      all_goals cases hprimitive
  · split at hrun
    · obtain ⟨path, s', -, hrun⟩ := bind_ok hrun
      obtain ⟨rfl, -⟩ := pure_ok hrun
      rintro ⟨⟩
    · cases hrun

theorem yields_notVoid {fuel : Nat} {fault : SyntaxFault} {P : TypeName → Prop}
    {f : TypeName → Parse β} (hname : Yields (typeName fuel) P)
    (hf : ∀ base, base ≠ .void → P base → Yields (f base) R) :
    Yields (do
      if ← check .kwVoid then Parse.fail fault
      let base ← typeName fuel
      f base) R := by
  intro s b t hs hrun
  obtain ⟨_, s', hcheck, hrun⟩ := bind_ok hrun
  cases hcheck
  split at hrun
  · cases hrun
  · next hkind =>
      obtain ⟨base, s', hbase, hrun⟩ := bind_ok hrun
      obtain ⟨hs', hp⟩ := hname s base s' hs hbase
      refine hf base (ne_void_of_run hbase ?_) hp s' b t hs' hrun
      simpa using hkind

/-! ## Expressions -/

/-- An expression is as parsed if it is so by itself and its operands are. -/
theorem parsed_of_operands {e : Expr} {operands : List Expr}
    (hpreorder : e.preorder = e :: operands) (hself : e.AsParsed)
    (hoperands : ∀ x ∈ operands, x.AsParsed) : e.Parsed := by
  intro x hx
  rw [hpreorder] at hx
  rcases List.mem_cons.mp hx with rfl | hx
  · exact hself
  · exact hoperands x hx

theorem allParsed_iff : ∀ {es : List Expr}, Expr.AllParsed es ↔ ∀ e ∈ es, e.Parsed
  | [] => by simp [Expr.AllParsed, Expr.preorderAll]
  | e :: es => by
      rw [List.forall_mem_cons, ← allParsed_iff]
      exact List.forall_mem_append

theorem allParsed_cons {e : Expr} {es : List Expr} (he : e.Parsed) (hes : Expr.AllParsed es) :
    Expr.AllParsed (e :: es) :=
  List.forall_mem_append.mpr ⟨he, hes⟩

theorem allParsed_reverse {es : List Expr} (h : Expr.AllParsed es) :
    Expr.AllParsed es.reverse :=
  allParsed_iff.mpr fun e he => allParsed_iff.mp h e (List.mem_reverse.mp he)

/-- Two operands are as parsed if each of them is. -/
theorem operands_append {es es' : List Expr} (h : ∀ x ∈ es, x.AsParsed)
    (h' : ∀ x ∈ es', x.AsParsed) : ∀ x ∈ es ++ es', x.AsParsed :=
  List.forall_mem_append.mpr ⟨h, h'⟩

mutual

theorem yields_expr : ∀ fuel, Yields (expr fuel) Expr.Parsed
  | 0 => .fail
  | fuel + 1 => by
      unfold expr
      refine (yields_binary fuel 0).bind fun target htarget => .skip fun _ => ?_
      split
      · refine (yields_expr fuel).bind fun value hvalue => .pure ?_
        exact parsed_of_operands rfl ⟨rfl, trivial⟩ (operands_append htarget hvalue)
      · exact .pure htarget

theorem yields_binary : ∀ fuel level, Yields (binary fuel level) Expr.Parsed
  | 0, _ => .fail
  | fuel + 1, level =>
      (yields_unary fuel).bind fun lhs hlhs => yields_binaryRest fuel level lhs hlhs

theorem yields_binaryRest : ∀ fuel level lhs, Expr.Parsed lhs →
    Yields (binaryRest fuel level lhs) Expr.Parsed
  | 0, _, _, _ => .fail
  | fuel + 1, level, lhs, hlhs => by
      unfold binaryRest
      refine .skip fun t => ?_
      split
      · exact .pure hlhs
      · split
        · exact .pure hlhs
        · refine .skip fun _ => (yields_binary fuel _).bind fun rhs hrhs => ?_
          refine yields_binaryRest fuel level _ ?_
          exact parsed_of_operands rfl ⟨rfl, trivial⟩ (operands_append hlhs hrhs)

theorem yields_unary : ∀ fuel, Yields (unary fuel) Expr.Parsed
  | 0 => .fail
  | fuel + 1 => by
      unfold unary
      refine .skip fun t => ?_
      split
      · refine .skip fun _ => (yields_unary fuel).bind fun operand h => .pure ?_
        exact parsed_of_operands rfl ⟨rfl, trivial⟩ h
      · exact (yields_primary fuel).bind fun base h => yields_postfix fuel base h

theorem yields_postfix : ∀ fuel base, Expr.Parsed base →
    Yields (postfix_ fuel base) Expr.Parsed
  | 0, _, _ => .fail
  | fuel + 1, base, hbase => by
      unfold postfix_
      refine .skip fun _ => ?_
      split
      · refine yields_ident.bind fun name hname => .skip fun _ => ?_
        split
        · refine (yields_arguments fuel).bind fun args hargs => yields_postfix fuel _ ?_
          exact parsed_of_operands rfl ⟨rfl, hname.word⟩ (operands_append hbase hargs)
        · refine yields_postfix fuel _ ?_
          exact parsed_of_operands rfl ⟨rfl, trivial⟩ hbase
      · refine .skip fun _ => ?_
        split
        · refine (yields_expr fuel).bind fun i hi => .skip fun _ => yields_postfix fuel _ ?_
          exact parsed_of_operands rfl ⟨rfl, trivial⟩ (operands_append hbase hi)
        · exact .pure hbase

theorem yields_primary : ∀ fuel, Yields (primary fuel) Expr.Parsed
  | 0 => .fail
  | fuel + 1 => by
      unfold primary
      refine yields_peek.bind fun t ht => ?_
      split
      · exact .skip fun _ => .pure (parsed_of_operands rfl ⟨rfl, trivial⟩ (List.forall_mem_nil _))
      · split
        · exact .skip fun _ => .pure (parsed_of_operands rfl ⟨rfl, trivial⟩ (List.forall_mem_nil _))
        · next hkind =>
            refine .skip fun _ => .skip fun _ => ?_
            split
            · refine (yields_arguments fuel).bind fun args hargs => .pure ?_
              exact parsed_of_operands rfl ⟨rfl, (ht.ident hkind).word⟩ hargs
            · exact .pure (parsed_of_operands rfl ⟨rfl, trivial⟩ (List.forall_mem_nil _))
        · exact yields_parenthesised fuel
        · exact yields_creation fuel
        · exact .fail
        · exact .fail

theorem yields_parenthesised : ∀ fuel, Yields (parenthesised fuel) Expr.Parsed
  | 0 => .fail
  | fuel + 1 => .skip fun _ => (yields_expr fuel).bind fun _ h => .skip fun _ => .pure h

theorem yields_creation : ∀ fuel, Yields (creation fuel) Expr.Parsed
  | 0 => .fail
  | fuel + 1 => by
      unfold creation
      have hname : Passes (typeName fuel) := inferInstance
      refine .skip fun t => .skip fun start =>
        yields_notVoid hname.yields fun base hbase _ => .skip fun _ => ?_
      split
      · refine (yields_expr fuel).bind fun length hlength => .skip fun _ => .skip fun n => ?_
        exact .pure (parsed_of_operands rfl ⟨rfl, hbase⟩ hlength)
      · split
        · next path =>
            refine (yields_arguments fuel).bind fun args hargs => .pure ?_
            exact parsed_of_operands rfl ⟨rfl, rfl, path, rfl⟩ hargs
        · exact .fail

theorem yields_arguments : ∀ fuel, Yields (arguments fuel) Expr.AllParsed
  | 0 => .fail
  | fuel + 1 => .skip fun _ => yields_argumentsRest fuel [] (List.forall_mem_nil _)

theorem yields_argumentsRest : ∀ fuel done, Expr.AllParsed done →
    Yields (argumentsRest fuel done) Expr.AllParsed
  | 0, _, _ => .fail
  | fuel + 1, done, hdone => by
      unfold argumentsRest
      refine .skip fun _ => ?_
      split
      · exact .pure (allParsed_reverse hdone)
      · refine (yields_expr fuel).bind fun arg harg => .skip fun _ => ?_
        split
        · exact .skip fun _ => yields_argumentsRest fuel _ (allParsed_cons harg hdone)
        · exact yields_argumentsRest fuel _ (allParsed_cons harg hdone)

end

/-! ## Statements -/

theorem yields_initialiser? (fuel : Nat) : Yields (initialiser? fuel) Expr.Parsed? := by
  unfold initialiser?
  refine .skip fun _ => ?_
  split
  · exact (yields_expr fuel).bind fun e he => .pure he
  · exact .pure (List.forall_mem_nil _)

theorem yields_localVar (fuel : Nat) : Yields (localVar fuel) LocalVar.Parsed := by
  unfold localVar
  refine .skip fun t => ?_
  split
  · intro s a t hs hrun
    cases hrun
  · next hbase =>
      exact .skip fun _ => (yields_initialiser? fuel).bind fun e he => .pure ⟨hbase, he⟩

theorem yields_exprUnless (stop : Token.Kind) (fuel : Nat) :
    Yields (exprUnless stop fuel) Expr.Parsed? := by
  unfold exprUnless
  refine .skip fun _ => ?_
  split
  · exact .pure (List.forall_mem_nil _)
  · exact (yields_expr fuel).bind fun e he => .pure he

theorem yields_forInit (fuel : Nat) : Yields (forInit fuel) ForInit.Parsed := by
  unfold forInit
  refine .skip fun s => ?_
  split
  · exact .pure trivial
  · split
    · exact (yields_localVar fuel).bind fun d hd => .pure hd
    · exact (yields_expr fuel).bind fun e he => .pure he

mutual

theorem yields_stmt : ∀ fuel, Yields (stmt fuel) Stmt.Parsed
  | 0 => .fail
  | fuel + 1 => by
      unfold stmt
      refine .skip fun s => ?_
      dsimp only
      split
      · exact (yields_block fuel).bind fun b hb => .pure hb
      · exact .skip fun _ => .pure trivial
      · refine .skip fun _ => (yields_parenthesised fuel).bind fun cond hcond => ?_
        refine (yields_stmt fuel).bind fun s hs => .skip fun _ => ?_
        split
        · exact (yields_stmt fuel).bind fun t ht => .pure ⟨hcond, hs, ht⟩
        · exact .pure ⟨hcond, hs⟩
      · refine .skip fun _ => (yields_parenthesised fuel).bind fun cond hcond => ?_
        exact (yields_stmt fuel).bind fun body hbody => .pure ⟨hcond, hbody⟩
      · refine .skip fun _ => .skip fun _ => (yields_forInit fuel).bind fun init hinit => ?_
        refine .skip fun _ => (yields_exprUnless _ fuel).bind fun cond hcond => ?_
        refine .skip fun _ => (yields_exprUnless _ fuel).bind fun update hupdate => ?_
        refine .skip fun _ => (yields_stmt fuel).bind fun body hbody => .pure ?_
        exact ⟨hinit, hcond, hupdate, hbody⟩
      · refine .skip fun _ => (yields_exprUnless _ fuel).bind fun value hvalue => ?_
        exact .skip fun _ => .pure hvalue
      · exact .skip fun _ => (yields_expr fuel).bind fun value hvalue => .skip fun _ =>
          .pure hvalue
      · refine .skip fun _ => (yields_parenthesised fuel).bind fun lock hlock => ?_
        exact (yields_block fuel).bind fun b hb => .pure ⟨hlock, hb⟩
      · split
        · exact (yields_localVar fuel).bind fun d hd => .skip fun _ => .pure hd
        · split
          · exact .fail
          · exact (yields_expr fuel).bind fun value hvalue => .skip fun _ => .pure hvalue

theorem yields_block : ∀ fuel, Yields (block fuel) fun b => Stmt.AllParsed b.body
  | 0 => .fail
  | fuel + 1 =>
      .skip fun _ => (yields_blockRest fuel [] trivial).bind fun _ hbody => .pure hbody

theorem yields_blockRest : ∀ fuel done, Stmt.AllParsed done →
    Yields (blockRest fuel done) Stmt.AllParsed
  | 0, _, _ => .fail
  | fuel + 1, done, hdone => by
      unfold blockRest
      refine .skip fun _ => ?_
      split
      · refine .pure (Stmt.allParsed_iff.mpr fun s hs => ?_)
        exact Stmt.allParsed_iff.mp hdone s (List.mem_reverse.mp hs)
      · refine .skip fun _ => ?_
        split
        · exact .fail
        · exact (yields_stmt fuel).bind fun s hs => yields_blockRest fuel (s :: done) ⟨hs, hdone⟩

end

/-! ## Annotations and modifiers -/

instance passes_annotationArgs : ∀ {fuel : Nat} {done : List AnnotationArg},
    Passes (annotationArgs fuel done)
  | 0, _ => Yields.passes (Q := fun _ => True) .fail
  | fuel + 1, done => by
      have hbinary : Passes (binary fuel 0) := (yields_binary fuel 0).passes
      have hrest (arg : AnnotationArg) : Yields (do
          if !(← check .closeParen) then
            let _ ← expect .comma
          annotationArgs fuel (arg :: done)) fun _ => True := by
        refine .skip fun closed => ?_
        split
        · exact .skip fun _ => passes_annotationArgs.yields
        · exact passes_annotationArgs.yields
      refine Yields.passes (Q := fun _ => True) (.skip fun _ => ?_)
      split
      · exact .pure trivial
      · refine .skip fun s => ?_
        split
        · exact .skip fun _ => .skip fun _ => .skip fun _ => .skip hrest
        · exact .skip fun _ => .skip hrest

instance {fuel : Nat} : Passes <| annotation fuel := by
  refine Yields.passes (Q := fun _ => True) (.skip fun _ => .skip fun _ => .skip fun hasArgs => ?_)
  split
  · exact .skip fun _ => .pure trivial
  · exact .pure trivial

instance passes_modifiersRest : ∀ {fuel : Nat} {annotations : List Annotation}
    {flags : List Modifier}, Passes (modifiersRest fuel annotations flags)
  | 0, _, _ => Yields.passes (Q := fun _ => True) .fail
  | fuel + 1, annotations, flags => by
      refine Yields.passes (Q := fun _ => True) (.skip fun t => ?_)
      split
      · exact .skip fun _ => passes_modifiersRest.yields
      · split
        · exact .pure trivial
        · refine .skip fun _ => ?_
          split
          · exact .failAt
          · exact passes_modifiersRest.yields

instance {fuel : Nat} : Passes (modifiers fuel) := passes_modifiersRest

/-! ## Declarations -/

theorem yields_params : ∀ fuel (done : List Param), (∀ p ∈ done, p.type.Formed) →
    Yields (params fuel done) fun ps => ∀ p ∈ ps, p.type.Formed
  | 0, _, _ => .fail
  | fuel + 1, done, hdone => by
      unfold params
      refine .skip fun _ => ?_
      split
      · exact .pure fun p hp => hdone p (List.mem_reverse.mp hp)
      · refine (yields_type fuel).bind fun t ht => .skip fun name => .skip fun _ => ?_
        split
        · exact .skip fun _ => yields_params fuel _ (List.forall_mem_cons.mpr ⟨ht, hdone⟩)
        · exact yields_params fuel _ (List.forall_mem_cons.mpr ⟨ht, hdone⟩)

theorem yields_fieldOrMethod (fuel : Nat) (mods : Modifiers) :
    Yields (fieldOrMethod fuel mods) Member.Parsed := by
  unfold fieldOrMethod
  refine (yields_type fuel).bind fun t ht => yields_ident.bind fun name hname => .skip fun _ => ?_
  split
  · refine (yields_params fuel [] (List.forall_mem_nil _)).bind fun ps hps => ?_
    exact (yields_block fuel).bind fun body hbody => .pure ⟨⟨hname.word, ht, hps⟩, hbody⟩
  · split
    · exact .fail
    · next hbase =>
        exact (yields_initialiser? fuel).bind fun init hinit => .skip fun _ => .pure ⟨hbase, hinit⟩

mutual

theorem yields_classDecl : ∀ fuel mods, Yields (classDecl fuel mods) ClassDecl.Parsed
  | 0, _ => .fail
  | fuel + 1, mods => by
      unfold classDecl
      refine .skip fun t => yields_ident.bind fun name hname => .skip fun extended => ?_
      split <;>
      · refine .skip fun superclass => .skip fun _ => ?_
        refine (yields_membersRest fuel [] trivial).bind fun members hmembers => ?_
        exact .pure ⟨hname.word, hmembers⟩

theorem yields_membersRest : ∀ fuel done, Member.AllParsed done →
    Yields (membersRest fuel done) Member.AllParsed
  | 0, _, _ => .fail
  | fuel + 1, done, hdone => by
      unfold membersRest
      refine .skip fun _ => ?_
      split
      · refine .pure (Member.allParsed_iff.mpr fun m hm => ?_)
        exact Member.allParsed_iff.mp hdone m (List.mem_reverse.mp hm)
      · refine .skip fun _ => ?_
        split
        · exact .fail
        · refine .skip fun _ => ?_
          split
          · exact yields_membersRest fuel done hdone
          · refine (yields_member fuel).bind fun m hm => yields_membersRest fuel _ ?_
            refine Member.allParsed_iff.mpr (List.forall_mem_cons.mpr ⟨hm, ?_⟩)
            exact Member.allParsed_iff.mp hdone

theorem yields_member : ∀ fuel, Yields (member fuel) Member.Parsed
  | 0 => .fail
  | fuel + 1 => by
      unfold member
      refine .skip fun mods => .skip fun _ => ?_
      split
      · exact (yields_classDecl fuel mods).bind fun decl hdecl => .pure hdecl
      · exact yields_fieldOrMethod fuel mods

end

/-! ## Units -/

instance passes_importRest : ∀ {fuel : Nat} {done : List String}, Passes (importRest fuel done)
  | 0, _ => Yields.passes (Q := fun _ => True) (.pure trivial)
  | fuel + 1, done => by
      refine Yields.passes (Q := fun _ => True) (.skip fun _ => ?_)
      split
      · refine .skip fun _ => ?_
        split
        · exact .pure trivial
        · exact .skip fun _ => passes_importRest.yields
      · exact .pure trivial

instance {fuel : Nat} : Passes (importDecl fuel) := by
  refine Yields.passes (Q := fun _ => True) (.skip fun first => .skip fun r => .skip fun _ => ?_)
  split
  · exact .failAt
  · exact .pure trivial

instance passes_imports : ∀ {fuel : Nat} {done : List Import}, Passes (imports fuel done)
  | 0, _ => Yields.passes (Q := fun _ => True) .fail
  | fuel + 1, done => by
      refine Yields.passes (Q := fun _ => True) (.skip fun _ => ?_)
      split
      · exact .skip fun _ => passes_imports.yields
      · exact .pure trivial

theorem yields_types : ∀ fuel done, (∀ c ∈ done, c.Parsed) →
    Yields (types fuel done) fun cs => ∀ c ∈ cs, c.Parsed
  | 0, _, _ => .fail
  | fuel + 1, done, hdone => by
      unfold types
      refine .skip fun _ => ?_
      split
      · exact .pure fun c hc => hdone c (List.mem_reverse.mp hc)
      · refine .skip fun _ => ?_
        split
        · exact yields_types fuel done hdone
        · refine .skip fun mods => (yields_classDecl fuel mods).bind fun c hc => ?_
          exact yields_types fuel _ (List.forall_mem_cons.mpr ⟨hc, hdone⟩)

theorem yields_unit (fuel : Nat) (source : String) :
    Yields (unit fuel source) UnitTree.Parsed := by
  have hrest (package : Option Path) (hpackage : ∀ p, package = some p → Spelled p.text) :
      Yields (do
        let is ← imports fuel []
        let ts ← types fuel []
        return (⟨source, package, is, ts⟩ : UnitTree)) UnitTree.Parsed := by
    refine .skip fun is => (yields_types fuel [] (List.forall_mem_nil _)).bind fun ts hts =>
      .pure ⟨fun name hname => ?_, hts⟩
    obtain ⟨p, hp, rfl⟩ := Option.map_eq_some_iff.mp hname
    exact hpackage p hp
  unfold unit
  refine .skip fun packaged => ?_
  split
  · refine (yields_path fuel).bind fun p hp => .skip fun _ => hrest (some p) fun q hq => ?_
    cases hq
    exact hp
  · exact hrest none (by intro p hp; cases hp)

theorem worded_ofList {tokens : List Token} (h : ∀ t ∈ tokens, t.Worded) :
    Worded (.ofList tokens) := by
  cases tokens with
  | nil => exact List.forall_mem_singleton.mpr (Token.worded_of_kind (by decide))
  | cons t rest => exact h

/-- What the readers see to holds of what is read from a text. -/
theorem Yields.of_parse {source text : String} {tree : UnitTree} {P : UnitTree → Prop}
    (hunit : ∀ fuel, Yields (unit fuel source) P) (h : UnitTree.parse source text = .ok tree) :
    P tree := by
  obtain ⟨tokens, htokens, h⟩ := except_bind_ok h
  obtain ⟨⟨tree', rest⟩, hrun, h⟩ := except_bind_ok h
  cases h
  exact (hunit _ _ _ _ (worded_ofList (Token.worded_scan htokens)) hrun).2

end Parse

/-- A tree that comes from the parser is as the parser leaves it. -/
theorem UnitTree.parsed_of_parse {source text : String} {tree : UnitTree}
    (h : UnitTree.parse source text = .ok tree) : tree.Parsed :=
  Parse.Yields.of_parse (fun fuel => Parse.yields_unit fuel source) h

end ProbeLang
