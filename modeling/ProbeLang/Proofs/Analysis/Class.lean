import ProbeLang.Analysis.Class
import ProbeLang.Proofs.Analysis.Completion
import ProbeLang.Proofs.Analysis.Numbering
import ProbeLang.Proofs.Stack.Analysis

/-!
# Analysed classes are fit for code

A class that is analysed without an error is fit for code down to its innermost classes, its methods
give back a value where they should, its names refer to the slots that they have, and it differs from
the class that was parsed in nothing but the values of fields and the bodies of methods. In a plain
session its code uses values only. Its methods come in the order of the signatures that completion
gave it, so each is analysed with its own.
-/

namespace ProbeLang

open SessionM

variable {σ : Type} {s t : Session σ} {P : Prop}

/-- Whether all methods of a class, and of those in it, give back a value if they have a result. -/
def ClassDecl.Concludes (c : ClassDecl) : Prop :=
  c.Each (fun _ => True) MethodDecl.Concludes

/-- Whether all methods of a member give back a value if they have a result. -/
def Member.Concludes (m : Member) : Prop :=
  m.Each (fun _ => True) MethodDecl.Concludes

theorem Member.skeletons_append : ∀ (ms ms' : List Member),
    Member.skeletons (ms ++ ms') = Member.skeletons ms ++ Member.skeletons ms'
  | [], _ => rfl
  | .field _ :: rest, ms' | .method _ :: rest, ms' | .type _ :: rest, ms' => by
      rw [List.cons_append, Member.skeletons, Member.skeletons, Member.skeletons_append rest ms',
        List.cons_append]

/-- Whether a class of a name is declared at a place. -/
def Session.Places (s : Session σ) (unit : Nat) (place : List Nat) (cls : String)
    (decl : ClassDecl) : Prop :=
  ∃ package outer, s.Declares ⟨unit, package, place, outer, cls, decl⟩

namespace Session.Places

variable {unit : Nat} {place : List Nat} {cls : String} {decl : ClassDecl}

theorem of_extends (h : s.Places unit place cls decl) (hst : s.Extends t) :
    t.Places unit place cls decl := by
  obtain ⟨package, outer, hd⟩ := h
  exact ⟨package, outer, hd.of_extends hst⟩

theorem nested (h : s.Places unit place cls decl) {k : Nat} {n : ClassDecl}
    (hk : decl.members[k]? = some (.type n)) :
    s.Places unit (place ++ [k]) (cls ++ "$" ++ n.name.name) n := by
  obtain ⟨package, outer, e, he, hd⟩ := h
  exact ⟨_, _, e, he, UnitTree.nested_mem_declared hd hk⟩

/-- The symbol of a class that is declared. It has its signatures once it has a superclass. -/
theorem symbol (h : s.Places unit place cls decl) (hs : s.Sound) :
    ∃ c, s.symbols.find? cls = some c ∧ c.origin = .source unit place ∧
      (c.superclass.isSome = true → c.Written s.symbols decl) := by
  obtain ⟨package, outer, hd⟩ := h
  obtain ⟨c, hc, hentered⟩ := hs.declared hd
  have horigin : c.origin = .source unit place := congrArg ClassSymbol.origin hentered
  obtain ⟨d, hd', -, hentered', hwritten⟩ := hs.origin hc (by rw [ClassSymbol.isSource, horigin])
  have hdecl : d.decl = decl := hd'.eq_of_origin hd (by rw [← hentered', hentered])
  exact ⟨c, hc, horigin, fun h => hdecl ▸ hwritten h⟩

end Session.Places

namespace NameScope

variable {ns : NameScope σ}

theorem keeps_analyseField (hns : ns.Steady) (sigs : List FieldSig) (f : FieldDecl)
    (hP : P → Expr.Parsed? f.init) :
    Keeps s P (ns.analyseField sigs f) fun f' _ => f'.skeleton = f.skeleton ∧ f'.Fit := by
  unfold analyseField
  split
  · next hinit =>
      refine .pure fun _ _ => ⟨rfl, fun e he => ?_⟩
      rw [hinit] at he
      cases he
  · next e hinit =>
      refine .bind (BodyScope.keeps_value hns e fun h => ⟨List.forall_mem_nil _, ?_⟩)
        fun r _ _ => ?_
      · have hparsed := hP h
        rwa [hinit] at hparsed
      refine (keeps_requireAssignable hns _ _ _).bind fun _ _ _ => .pure fun h _ => ⟨rfl, ?_⟩
      intro e' he' x hx
      cases he'
      have hholds := h.1.2.2.2 x hx
      exact ⟨hholds.toFitFor, hholds.closed rfl⟩

/-- The value of a field with a type of values uses values. -/
theorem ensures_analyseField (hns : ns.Steady) (sigs : List FieldSig) (f : FieldDecl)
    (hP : P → Expr.Parsed? f.init ∧ f.name.name ∈ sigs.map FieldSig.name ∧
      ∀ sig ∈ sigs, sig.ty.Valued) :
    Ensures s P (ns.analyseField sigs f) fun f' _ => f'.Uses := by
  unfold analyseField
  split
  · next hinit =>
      refine .pure fun _ _ _ e he => ?_
      rw [hinit] at he
      cases he
  · next e hinit =>
      refine (BodyScope.ensures_value hns e fun h => ⟨?_, ?_⟩).bind fun r _ _ => ?_
      · exact List.forall_mem_nil _
      · have hparsed := (hP h).1
        rwa [hinit] at hparsed
      refine .bind_keeps (keeps_require_value hns _ _ _) fun _ _ _ => .pure fun h _ _ => ?_
      obtain ⟨-, hname, hvalued⟩ := hP h.1.1
      have hfound : (sigs.find? fun s => s.name == f.name.name).isSome = true := by
        obtain ⟨sig, hsig, heq⟩ := List.mem_map.mp hname
        exact List.find?_isSome.mpr ⟨sig, hsig, beq_iff_eq.mpr heq⟩
      obtain ⟨sig, hsig⟩ := Option.isSome_iff_exists.mp hfound
      have hty : (((sigs.find? fun s => s.name == f.name.name).map FieldSig.ty).getD
          .unknown).Valued := by
        rw [hsig]
        exact hvalued sig (List.mem_of_find?_eq_some hsig)
      intro e' he'
      cases he'
      exact h.1.2.consumes (h.2 hty)

/-- Parameters that are declared are of the kind that their types are of. -/
theorem keeps_declareParams {cx : BodyScope σ} {T : Ty → Prop} :
    ∀ (params : List (Param × Ty)) (l : Locals) {s : Session σ} {P : Prop},
      (P → (∀ v ∈ l.vars, T v.ty) ∧ ∀ p ∈ params, T p.2) →
      Keeps s P (declareParams cx l params) fun l' _ => ∀ v ∈ l'.vars, T v.ty
  | [], _, _, _, hP => .pure fun h _ => (hP h).1
  | (p, ty) :: rest, l, _, _, hP => by
      unfold declareParams
      refine (BodyScope.keeps_declare_all p.name ty fun h => ⟨(hP h).1, ?_⟩).bind fun r _ _ => ?_
      · exact (hP h).2 (p, ty) List.mem_cons_self
      · exact keeps_declareParams rest r.1 fun h =>
          ⟨h.2, fun q hq => (hP h.1).2 q (List.mem_cons_of_mem _ hq)⟩

theorem keeps_analyseMethod (hns : ns.Steady) (sig : MethodSig) (m : MethodDecl)
    (hP : P → Stmt.AllParsed m.body.body ∧ (∀ p ∈ sig.params, p.Known) ∧
      sig.isStatic = m.modifiers.has .isStatic ∧ (m.ret.base ≠ .void → sig.ret ≠ .void)) :
    Keeps s P (ns.analyseMethod sig m) fun m' _ =>
      m'.skeleton = m.skeleton ∧ m'.Fit ∧ m'.Concludes := by
  unfold analyseMethod
  refine .bind (keeps_declareParams (T := Ty.Known) _ ⟨[], _⟩ fun h =>
    ⟨List.forall_mem_nil _, fun p hp => ?_⟩) fun l _ _ => ?_
  · exact (hP h).2.1 p.2 (List.of_mem_zip hp).2
  refine .bind (BodyScope.keeps_stmts hns m.body.body l []
    fun h => ⟨h.2, (hP h.1).1, List.forall_mem_nil _⟩) fun r _ _ => ?_
  dsimp only
  split
  · exact .problem_bind fun _ => .pure fun h => h.elim
  · next hreturns =>
      refine .pure fun h _ => ⟨rfl, ?_, fun hbase => ?_⟩
      · obtain ⟨-, -, hstatic, -⟩ := hP h.1.1
        show Stmt.AllFitFor (m.modifiers.has .isStatic) r.2
        exact hstatic ▸ h.2.2.1
      · have hret := (hP h.1.1).2.2.2 hbase
        obtain ⟨-, -, body, hbody, hconclude⟩ := h.2
        rw [List.reverse_nil, List.nil_append] at hbody
        dsimp only
        rw [hbody, Stmt.allComplete_of_concludes hconclude]
        exact ⟨by simpa [hret] using hreturns, Stmt.allReturned_of_concludes hconclude hret⟩

/-- The body of a method uses values if its parameters have values. -/
theorem ensures_analyseMethod (hns : ns.Steady) (sig : MethodSig) (m : MethodDecl)
    (hP : P → Stmt.AllParsed m.body.body ∧ (∀ p ∈ sig.params, p.Valued) ∧ sig.ret.Yielded) :
    Ensures s P (ns.analyseMethod sig m) fun m' _ => m'.Uses := by
  unfold analyseMethod
  refine .bind_keeps (keeps_declareParams (T := Ty.Valued) _ ⟨[], _⟩ fun h =>
    ⟨List.forall_mem_nil _, fun p hp => ?_⟩) fun l _ _ => ?_
  · exact (hP h).2.1 p.2 (List.of_mem_zip hp).2
  refine (BodyScope.ensures_stmts hns m.body.body l []
    fun h => ⟨h.2, (hP h.1).2.2, (hP h.1).1, List.forall_mem_nil _⟩).bind fun r _ _ => ?_
  dsimp only
  split
  · exact .problem_bind fun _ => .pure fun h => h.elim
  · exact .pure fun h _ _ => h.2.2

end NameScope

theorem NameScope.keeps_checkImports {ns : NameScope σ} (hns : ns.Steady) :
    ∀ (is : List Import) {s : Session σ} {P : Prop},
      Keeps s P (ns.checkImports is) fun _ _ => True
  | [], _, _ => .pure fun _ _ => trivial
  | i :: rest, _, _ => by
      unfold checkImports
      dsimp only
      split
      · refine (keeps_lookupQualified hns _).bind fun _ _ _ => ?_
        split
        · exact .problem_bind fun _ => keeps_checkImports hns rest
        · exact keeps_checkImports hns rest
      · exact keeps_checkImports hns rest

namespace SessionM

theorem keeps_owns {unit : Nat} {place : List Nat} {cls : String}
    (hP : P → ∃ decl, s.Places unit place cls decl) :
    Keeps s P (owns unit place cls) fun owned _ => owned = true := by
  refine .get (.pure fun h hs => ?_)
  obtain ⟨decl, hplaces⟩ := hP h
  obtain ⟨c, hc, horigin, -⟩ := hplaces.symbol hs
  simp [hc, horigin]

/-- What a method is matched with its signature by. -/
def methodKey (m : MethodDecl) : String × Nat × Bool :=
  (m.name.name, m.params.length, m.modifiers.has .isStatic)

/-- What a signature is matched with its method by. -/
def signatureKey (m : MethodSig) : String × Nat × Bool :=
  (m.name, m.params.length, m.isStatic)

/-- What is known of the members of a class that are to be analysed: the classes among them are
declared, nothing in them has been analysed, and the signatures are those of their fields and
methods. -/
structure MembersReady (s : Session σ) (unit : Nat) (place : List Nat) (cls : String) (i : Nat)
    (fields : List FieldSig) (methods : List MethodSig) (members : List Member) : Prop where
  places : ∀ {k decl}, members[k]? = some (.type decl) →
    s.Places unit (place ++ [i + k]) (cls ++ "$" ++ decl.name.name) decl
  parsed : Member.AllParsed members
  settled : s.Settled
  signs : methods.map signatureKey =
    (members.filterMap fun | .method m => some m | _ => none).map methodKey
  declared : ∀ f, .field f ∈ members → f.name.name ∈ fields.map FieldSig.name
  known : ∀ m ∈ methods, ∀ p ∈ m.params, p.Known
  results : List.Forall₂ (fun sig (m : MethodDecl) => m.ret.base ≠ .void → sig.ret ≠ .void) methods
    (members.filterMap fun | .method m => some m | _ => none)
  valued : s.Plain → (∀ f ∈ fields, f.ty.Valued) ∧
    ∀ m ∈ methods, (∀ p ∈ m.params, p.Valued) ∧ m.ret.Yielded

/-- What is known of members that have been analysed: they are fit for code, methods give back what
they should, names refer to the slots that they have, and they use values in a plain session. -/
structure MembersDone (s : Session σ) (members : List Member) : Prop where
  fit : ∀ m ∈ members, m.Fit
  concludes : ∀ m ∈ members, m.Concludes
  inScope : ∀ m ∈ members, m.Scoped
  uses : s.Plain → ∀ m ∈ members, m.Uses

namespace MembersDone

theorem nil : MembersDone s [] :=
  ⟨List.forall_mem_nil _, List.forall_mem_nil _, List.forall_mem_nil _,
    fun _ => List.forall_mem_nil _⟩

theorem cons {m : Member} {members : List Member} (h : MembersDone s members) (hst : s.Extends t)
    (hfit : m.Fit) (hconcludes : m.Concludes) (hscoped : m.Scoped) (huses : t.Plain → m.Uses) :
    MembersDone t (m :: members) where
  fit := List.forall_mem_cons.mpr ⟨hfit, h.fit⟩
  concludes := List.forall_mem_cons.mpr ⟨hconcludes, h.concludes⟩
  inScope := List.forall_mem_cons.mpr ⟨hscoped, h.inScope⟩
  uses ht := List.forall_mem_cons.mpr ⟨huses ht, h.uses (ht.of_extends hst)⟩

theorem reverse {members : List Member} (h : MembersDone s members) :
    MembersDone s members.reverse where
  fit m hm := h.fit m (List.mem_reverse.mp hm)
  concludes m hm := h.concludes m (List.mem_reverse.mp hm)
  inScope m hm := h.inScope m (List.mem_reverse.mp hm)
  uses hs m hm := h.uses hs m (List.mem_reverse.mp hm)

end MembersDone

namespace MembersReady

variable {unit i : Nat} {place : List Nat} {cls : String} {fields : List FieldSig}
  {methods : List MethodSig} {members : List Member} {m : Member}

/-- The members of a class that has been completed are ready. -/
theorem of_written {decl : ClassDecl} {c : ClassSymbol} (hs : s.Sound) (hsettled : s.Settled)
    (hplaces : s.Places unit place cls decl) (hparsed : decl.Parsed)
    (hc : s.symbols.find? cls = some c) (hwritten : c.Written s.symbols decl) :
    MembersReady s unit place cls 0 c.fields c.methods decl.members where
  places {k decl'} hk := by
    rw [Nat.zero_add]
    exact hplaces.nested hk
  parsed := by
    cases decl
    exact hparsed.2
  settled := hsettled
  signs := hwritten.signs.methods
  declared f hf := by
    have hnames := congrArg (List.map Prod.fst) hwritten.signs.fields
    rw [List.map_map, List.map_map] at hnames
    have hmem : f ∈ decl.fields := List.mem_filterMap.mpr ⟨_, hf, rfl⟩
    show f.name.name ∈ c.fields.map FieldSig.name
    refine (show c.fields.map FieldSig.name = _ from hnames) ▸ ?_
    exact List.mem_map.mpr ⟨f, hmem, rfl⟩
  known := (hs.known hc).params
  results := hwritten.methods.imp fun sig m h hbase => (h.ret.valued hbase).ne_void
  valued hplain :=
    have hvalued := hplain.valued hs hc
    ⟨hvalued.fields, fun m hm => ⟨fun p hp => (hvalued.params m hm p hp).1,
      (hvalued.methods m hm).1⟩⟩

/-- The members behind the first one are ready if the signature of the first one is taken away. -/
theorem tail {methods' : List MethodSig}
    (h : MembersReady s unit place cls i fields methods (m :: members))
    (hst : s.Extends t) (hadvances : s.Advances t) (hmethods : methods' ⊆ methods)
    (hsigns : methods'.map signatureKey =
      (members.filterMap fun | .method m => some m | _ => none).map methodKey)
    (hresults : List.Forall₂ (fun sig (m : MethodDecl) => m.ret.base ≠ .void → sig.ret ≠ .void)
      methods' (members.filterMap fun | .method m => some m | _ => none)) :
    MembersReady t unit place cls (i + 1) fields methods' members where
  places {k decl} hk := by
    have hplaces := h.places (k := k + 1) hk
    rw [show i + (k + 1) = i + 1 + k by omega] at hplaces
    exact hplaces.of_extends hst
  parsed := Member.allParsed_iff.mpr (List.forall_mem_cons.mp (Member.allParsed_iff.mp h.parsed)).2
  settled := h.settled.of_advances hadvances
  signs := hsigns
  declared f hf := h.declared f (List.mem_cons_of_mem _ hf)
  known m hm := h.known m (hmethods hm)
  results := hresults
  valued ht :=
    have ⟨hfields, hvalued⟩ := h.valued (ht.of_extends hst)
    ⟨hfields, fun m hm => hvalued m (hmethods hm)⟩

theorem self_parsed (h : MembersReady s unit place cls i fields methods (m :: members)) :
    m.Parsed :=
  Member.allParsed_iff.mp h.parsed m List.mem_cons_self

end MembersReady

theorem skeletons_reverse_append {m m' : Member} (done rest : List Member)
    (h : Member.skeletons [m'] = Member.skeletons [m]) :
    Member.skeletons ((m' :: done).reverse ++ rest) =
      Member.skeletons (done.reverse ++ m :: rest) := by
  rw [List.reverse_cons, List.append_assoc, List.singleton_append, Member.skeletons_append,
    Member.skeletons_append, ← List.singleton_append, Member.skeletons_append, h,
    ← Member.skeletons_append, List.singleton_append]

/-- The signatures of a class that has been completed are those of its declaration. -/
theorem written_of_completed {unit : Nat} {place : List Nat} {cls : String} {decl : ClassDecl}
    (hs : s.Sound) (hsettled : s.Settled) (hplaces : s.Places unit place cls decl)
    (hcompleted : ∀ c, s.symbols.find? cls = some c → c.isSource = true →
      c.completed = true ∨ c.superclass.isSome = true) :
    ∃ c, s.symbols.find? cls = some c ∧ c.superclass.isSome = true ∧
      c.Written s.symbols decl := by
  obtain ⟨c, hc, horigin, hwritten⟩ := hplaces.symbol hs
  have hsource : c.isSource = true := by rw [ClassSymbol.isSource, horigin]
  have hsuper : c.superclass.isSome = true := by
    rcases hcompleted c hc hsource with h | h
    · refine Option.isSome_iff_ne_none.mpr fun hsuper => ?_
      exact hsettled cls ⟨c, hc, hsource, h, hsuper⟩
    · exact h
  exact ⟨c, hc, hsuper, hwritten hsuper⟩

mutual

/-- A class that is analysed without an error is fit for code, its names refer to the slots that they
have, and the classes in it have got their signatures. In a plain session its code uses values. -/
theorem keeps_analyseClass {unit : Nat} : ∀ (c : ClassDecl) {ns : NameScope σ}
    {place : List Nat} {cls : String} {s : Session σ} {P : Prop}, ns.Steady →
    (P → s.Places unit place cls c ∧ c.Parsed ∧ s.Settled) →
    Keeps s P (analyseClass ns unit place cls c) fun c' t => c'.skeleton = c.skeleton ∧
      c'.Fit ∧ c'.Concludes ∧ c'.Scoped ∧ (t.Plain → c'.Uses) ∧
        ∀ name ∈ c.binaryNames cls, t.Signed name
  | ⟨name, modifiers, superclass, members, pos⟩, ns, place, cls, s, P, hns, hP => by
      have hinner : NameScope.Steady { ns with classes := cls :: ns.classes } :=
        fun cls {_ _} => hns cls
      have hsigned {t : Session σ} (hs : t.Sound) (hst : s.Extends t)
          (h : P ∧ (∀ c, t.symbols.find? cls = some c → c.isSource = true →
            c.completed = true ∨ c.superclass.isSome = true) ∧ s.Advances t ∧ s.Extends t) :=
        written_of_completed hs ((hP h.1).2.2.of_advances h.2.2.1) ((hP h.1).1.of_extends hst) h.2.1
      unfold analyseClass
      refine (keeps_complete (fun cls {_ _} => hns cls) cls).remember.bind_grows fun _ t hst => ?_
      refine .get (.with_sound ?_)
      dsimp only
      refine (keeps_analyseMembers members hinner fun h => ⟨?_, .nil⟩).remember.bind
        fun members' _ _ => .pure fun h _ => ?_
      · obtain ⟨c, hc, -, hwritten⟩ := hsigned h.2 hst.toExtends h.1
        obtain ⟨⟨h, -, hadvances, -⟩, hs⟩ := h
        simp only [hc]
        exact .of_written hs ((hP h).2.2.of_advances hadvances)
          ((hP h).1.of_extends hst.toExtends) (hP h).2.1 hc hwritten
      · obtain ⟨h, ⟨hskeleton, hdone, hnested⟩, -, hext⟩ := h
        refine ⟨by simp only [ClassDecl.skeleton, hskeleton, List.reverse_nil, List.nil_append],
          Member.allFit_iff.mpr hdone.fit, Member.allEach_iff.mpr hdone.concludes,
          Member.allEach_iff.mpr hdone.inScope, fun hplain => Member.allEach_iff.mpr (hdone.uses hplain),
          List.forall_mem_cons.mpr ⟨?_, hnested⟩⟩
        obtain ⟨c, hc, hsuper, -⟩ := hsigned h.2 hst.toExtends h.1
        exact Session.Signed.of_extends ⟨c, hc, hsuper⟩ hext

theorem keeps_analyseMembers {unit : Nat} : ∀ (members : List Member) {ns : NameScope σ}
    {place : List Nat} {cls : String} {fields : List FieldSig} {methods : List MethodSig} {i : Nat}
    {done : List Member} {s : Session σ} {P : Prop}, ns.Steady →
    (P → MembersReady s unit place cls i fields methods members ∧ MembersDone s done) →
    Keeps s P (analyseMembers ns unit place cls fields methods i done members) fun members' t =>
      Member.skeletons members' = Member.skeletons (done.reverse ++ members) ∧
        MembersDone t members' ∧ ∀ name ∈ Member.binaryNames cls members, t.Signed name
  | [], _, _, _, _, _, _, done, _, _, _, hP => .pure fun h _ => by
      exact ⟨by rw [List.append_nil], (hP h).2.reverse, nofun⟩
  | .field f :: rest, ns, place, cls, fields, methods, i, done, s, P, hns, hP => by
      unfold analyseMembers
      have hfit := (NameScope.keeps_analyseField (s := s) hns fields f
        fun h => (hP h).1.self_parsed.2).and
          (NameScope.keeps_analyseField_scoped hns fields f fun h => (hP h).1.self_parsed.2)
      have huses : Ensures s P (ns.analyseField fields f) fun f' _ => f'.Uses :=
        .with_plain <| NameScope.ensures_analyseField hns fields f fun h =>
          ⟨(hP h.1).1.self_parsed.2, (hP h.1).1.declared f List.mem_cons_self,
            ((hP h.1).1.valued h.2).1⟩
      refine (hfit.and_ensures huses).remember.bind fun f' t _ => ?_
      refine .mono (keeps_analyseMembers rest hns fun h => ⟨?_,
        (hP h.1).2.cons h.2.2.2 h.2.1.1.1.2 trivial h.2.1.1.2 h.2.1.2⟩) id
          fun members' _ h hmembers => ⟨?_, hmembers.2⟩
      · exact (hP h.1).1.tail h.2.2.2 h.2.2.1 (List.Subset.refl _) (hP h.1).1.signs
          (hP h.1).1.results
      · rw [hmembers.1]
        exact skeletons_reverse_append done rest
          (congrArg (fun f => [Member.field f]) h.2.1.1.1.1)
  | .method m :: rest, ns, place, cls, fields, methods, i, done, s, P, hns, hP => by
      unfold analyseMembers
      cases methods with
      | nil =>
          refine .bind (.pure (Q := fun _ _ => False) fun h => ?_) fun _ _ _ =>
            .mono (keeps_analyseMembers rest hns fun h => h.2.elim) id fun _ _ h => h.2.elim
          have hsigns := (hP h).1.signs
          simp at hsigns
      | cons sig methods =>
          have hsigns : P → signatureKey sig = methodKey m ∧ methods.map signatureKey =
              (rest.filterMap fun | .method m => some m | _ => none).map methodKey :=
            fun h => List.cons.inj (hP h).1.signs
          have hresults := fun h : P => List.forall₂_cons.mp (hP h).1.results
          have hstatic := fun h : P => congrArg (fun key => key.2.2) (hsigns h).1
          have hfit := (NameScope.keeps_analyseMethod (s := s) hns sig m fun h =>
            ⟨(hP h).1.self_parsed.2, (hP h).1.known sig List.mem_cons_self, hstatic h,
              (hresults h).1⟩).and
            (NameScope.keeps_analyseMethod_scoped hns sig m fun h =>
              ⟨(hP h).1.self_parsed.2, (hP h).1.known sig List.mem_cons_self, hstatic h,
                congrArg (fun key => key.2.1) (hsigns h).1⟩)
          have huses : Ensures s P (ns.analyseMethod sig m) fun m' _ => m'.Uses :=
            .with_plain <| NameScope.ensures_analyseMethod hns sig m fun h =>
              ⟨(hP h.1).1.self_parsed.2, ((hP h.1).1.valued h.2).2 sig List.mem_cons_self⟩
          refine (hfit.and_ensures huses).remember.bind fun m' t _ => ?_
          refine .mono (keeps_analyseMembers rest hns fun h => ⟨?_,
            (hP h.1).2.cons h.2.2.2 h.2.1.1.1.2.1 h.2.1.1.1.2.2 h.2.1.1.2 h.2.1.2⟩) id
              fun members' _ h hmembers => ⟨?_, hmembers.2⟩
          · exact (hP h.1).1.tail h.2.2.2 h.2.2.1 (List.subset_cons_self _ _) (hsigns h.1).2
              (hresults h.1).2
          · rw [hmembers.1]
            exact skeletons_reverse_append done rest
              (congrArg (fun m => [Member.method m]) h.2.1.1.1.1)
  | .type decl :: rest, ns, place, cls, fields, methods, i, done, s, P, hns, hP => by
      unfold analyseMembers
      refine (keeps_owns fun h => ⟨decl, ?_⟩).remember.bind fun owned t _ => ?_
      · exact (hP h).1.places (k := 0) rfl
      dsimp only
      split
      · refine (keeps_analyseClass decl hns fun h => ⟨?_, ?_, ?_⟩).remember.bind
          fun decl' u _ => ?_
        · exact ((hP h.1).1.places (k := 0) rfl).of_extends h.2.2.2
        · exact (hP h.1).1.self_parsed
        · exact (hP h.1).1.settled.of_advances h.2.2.1
        refine .mono (.remember (keeps_analyseMembers rest hns fun h => ⟨?_,
          (hP h.1.1).2.cons (h.1.2.2.2.trans h.2.2.2) h.2.1.2.1 h.2.1.2.2.1 h.2.1.2.2.2.1
            h.2.1.2.2.2.2.1⟩)) id
            fun members' _ h hmembers => ⟨?_, hmembers.1.2.1, ?_⟩
        · exact (hP h.1.1).1.tail (h.1.2.2.2.trans h.2.2.2)
            (.trans h.1.2.2.2 h.1.2.2.1 h.2.2.2 h.2.2.1) (List.Subset.refl _)
            (hP h.1.1).1.signs (hP h.1.1).1.results
        · rw [hmembers.1.1]
          exact skeletons_reverse_append done rest
            (congrArg (fun decl => [Member.type decl]) h.2.1.1)
        · refine List.forall_mem_append.mpr ⟨fun name hname => ?_, hmembers.1.2.2⟩
          exact (h.2.1.2.2.2.2.2 name hname).of_extends hmembers.2.2
      · next howned =>
          refine .bind (.pure (Q := fun _ _ => False) fun h => absurd h.2.1 howned) fun _ _ _ => ?_
          exact .mono (keeps_analyseMembers rest hns fun h => h.2.elim) id fun _ _ h => h.2.elim

end

/-! ## Top-level classes -/

/-- Analyse a top-level class without replacing the tree. -/
def analyseDecl (bound unit number : Nat) (tree : UnitTree) (decl : ClassDecl) :
    SessionM σ (Option ClassDecl) := do
  let ns := NameScope.ofTree (loadChain bound bound) tree []
  if number = 0 then
    ns.checkImports tree.imports
  if ← owns unit [number] (tree.binaryName decl) then
    return some (← analyseClass ns unit [number] (tree.binaryName decl) decl)
  else return none

/-- The analysis of a top-level class ends with the replacement of the tree. -/
theorem analyseTop_eq {bound unit number : Nat} {tree : UnitTree} {decl : ClassDecl}
    (hdecl : tree.types[number]? = some decl) :
    (analyseTop bound unit number tree : SessionM σ UnitTree) =
      analyseDecl bound unit number tree decl >>= fun r =>
        match r with
        | some decl' => do
            let tree := { tree with types := tree.types.set number decl' }
            putTree unit tree
            return tree
        | none => return tree := by
  have hrest (ns : NameScope σ) : (do
      if ← owns unit [number] (tree.binaryName decl) then
        let decl ← analyseClass ns unit [number] (tree.binaryName decl) decl
        let tree := { tree with types := tree.types.set number decl }
        putTree unit tree
        return tree
      else return tree : SessionM σ UnitTree) = (do
      if ← owns unit [number] (tree.binaryName decl) then
        return some (← analyseClass ns unit [number] (tree.binaryName decl) decl)
      else return none) >>= fun r =>
        match r with
        | some decl' => do
            let tree := { tree with types := tree.types.set number decl' }
            putTree unit tree
            return tree
        | none => return tree := by
    rw [bind_assoc]
    refine bind_congr fun owned => ?_
    split
    · rw [bind_assoc]
      exact bind_congr fun _ => by rw [pure_bind]
    · rw [pure_bind]
  unfold analyseTop analyseDecl
  simp only [hdecl]
  split
  · rw [bind_assoc]
    exact bind_congr fun _ => hrest _
  · exact hrest _

/-- A top-level class that is analysed without an error is fit for code, its names refer to the slots
that they have, and the classes in it have got their signatures. In a plain session its code uses
values. -/
theorem keeps_analyseDecl {bound unit number : Nat} {tree : UnitTree} {decl : ClassDecl}
    (hP : P → s.Places unit [number] (tree.binaryName decl) decl ∧ decl.Parsed ∧ s.Settled) :
    Keeps s P (analyseDecl bound unit number tree decl) fun r t => ∃ decl', r = some decl' ∧
      decl'.skeleton = decl.skeleton ∧ decl'.Fit ∧ decl'.Concludes ∧ decl'.Scoped ∧
        (t.Plain → decl'.Uses) ∧
          ∀ name ∈ decl.binaryNames (tree.binaryName decl), t.Signed name := by
  have hns : NameScope.Steady (NameScope.ofTree (σ := σ) (loadChain bound bound) tree []) :=
    fun cls {_ _} => keeps_loadChain bound bound cls
  have hclass : ∀ {t : Session σ} {P' : Prop}, (P' → P ∧ s.Advances t ∧ s.Extends t) →
      Keeps t P' (do
        if ← owns unit [number] (tree.binaryName decl) then
          return some (← analyseClass (NameScope.ofTree (loadChain bound bound) tree []) unit
            [number] (tree.binaryName decl) decl)
        else return none) fun r u => ∃ decl', r = some decl' ∧
          decl'.skeleton = decl.skeleton ∧ decl'.Fit ∧ decl'.Concludes ∧ decl'.Scoped ∧
            (u.Plain → decl'.Uses) ∧
              ∀ name ∈ decl.binaryNames (tree.binaryName decl), u.Signed name := by
    intro t P' hP'
    refine (keeps_owns fun h => ⟨decl, ?_⟩).remember.bind fun owned u _ => ?_
    · exact (hP (hP' h).1).1.of_extends (hP' h).2.2
    split
    · refine (keeps_analyseClass decl hns fun h => ⟨?_, ?_, ?_⟩).bind fun decl' v _ =>
        .pure fun h _ => ⟨decl', rfl, h.2⟩
      · exact (hP (hP' h.1).1).1.of_extends ((hP' h.1).2.2.trans h.2.2.2)
      · exact (hP (hP' h.1).1).2.1
      · exact ((hP (hP' h.1).1).2.2.of_advances (hP' h.1).2.1).of_advances h.2.2.1
    · next howned => exact .pure fun h => absurd h.2.1 howned
  unfold analyseDecl
  dsimp only
  split
  · exact (NameScope.keeps_checkImports hns tree.imports).remember.bind fun _ t _ =>
      hclass fun h => ⟨h.1, h.2.2⟩
  · exact .with_sound (hclass fun h => ⟨h.1, .of_eq h.2 rfl rfl rfl, .refl s⟩)

end SessionM

end ProbeLang
