import ProbeLang.Proofs.Analysis.Expr
import ProbeLang.Proofs.Session.Plain
import ProbeLang.Proofs.Stack.Code

/-!
# What is used is a value

In a plain session that has analysed an expression without an error, everything the expression uses
is a value, and a call has an argument for each parameter of its method (`Expr.Uses`). Wherever a
value is wanted the analysis asks for a type of values, to which `void` cannot be assigned. The
lemmas follow those on attribution.
-/

namespace ProbeLang

open SessionM

/-! ## Constants that name methods -/

/-- The signature that a constant ends with is that of its method. -/
theorem referredSignature?_methodReference {owner name d : String} {cs : List Char}
    (howner : '(' ∉ owner.toList) (hname : '(' ∉ name.toList) (hd : d.toList = '(' :: cs) :
    referredSignature? (methodReference owner name d) = readMethodDescriptor d := by
  have hfront : '(' ∉ owner.toList ++ '.' :: name.toList := by
    simp [howner, hname]
  have htext : (methodReference owner name d).toList =
      (owner.toList ++ '.' :: name.toList) ++ '(' :: cs := by
    simp [methodReference, String.toList_append, hd]
  rw [referredSignature?, htext, (Ty.takeWhile_append_cons hfront cs).2, ← hd, String.ofList_toList]

theorem Spelled.no_parenthesis {s : String} (h : Spelled s) : '(' ∉ s.toList :=
  h.not_mem (by decide +kernel) (by decide)

/-- The initialiser of a class takes nothing and gives nothing back. -/
theorem callEffect?_initReference {cls : String} (h : Spelled cls) :
    callEffect? (initReference cls) = some (0, 0) := by
  have hsig : referredSignature? (initReference cls) = some ([], .void) :=
    referredSignature?_methodReference h.no_parenthesis (by decide +kernel) rfl
  rw [callEffect?, hsig]
  rfl

/-! ## Members of classes -/

/-- Whether a method of a class may be called: its class has a name that is spelled, it takes values
and gives back a value or nothing, and its descriptor can be read back. -/
structure MethodSig.Callable (m : MethodSig) (owner : String) : Prop where
  owner : Spelled owner
  params : ∀ p ∈ m.params, p.Valued ∧ p.Readable
  ret : m.ret.Yielded ∧ m.ret.Readable

namespace SymbolTable

variable {t : SymbolTable} (ht : ∀ {name c}, t.find? name = some c → c.Valued)

include ht

theorem valued_findField {cls name owner : String} {f : FieldSig}
    (h : t.findField cls name = some (owner, f)) : f.ty.Valued := by
  obtain ⟨c, -, h⟩ := List.exists_of_findSome?_eq_some h
  obtain ⟨sym, hsym, h⟩ := Option.bind_eq_some_iff.mp h
  obtain ⟨g, hg, h⟩ := Option.bind_eq_some_iff.mp h
  cases h
  exact (ht hsym).fields _ (List.mem_of_find?_eq_some hg)

theorem callable_findMethods (hspelled : ∀ {name}, t.has name = true → Spelled name)
    {cls name owner : String} {m : MethodSig} (h : (owner, m) ∈ t.findMethods cls name) :
    m.Callable owner := by
  obtain ⟨c, -, h⟩ := List.mem_flatMap.mp h
  split at h
  · cases h
  · next sym hsym =>
      obtain ⟨m', hm', heq⟩ := List.mem_map.mp h
      cases heq
      have hmem := (List.mem_filter.mp hm').1
      exact ⟨hspelled (Table.has_eq_true.mpr ⟨sym, hsym⟩), (ht hsym).params _ hmem,
        (ht hsym).methods _ hmem⟩

end SymbolTable

/-! ## Assignments -/

/-- What can be assigned to a type of values is a value. -/
theorem NameScope.keeps_assignable_value {σ : Type} {s : Session σ} {P : Prop} {ns : NameScope σ}
    (hns : ns.Steady) (sub sup : Ty) :
    Keeps s P (ns.assignable sub sup) fun ok _ => ok = true → sup.Valued → sub ≠ .void := by
  by_cases hsub : sub = .void
  · subst hsub
    by_cases hsup : sup.Valued
    · have hrun : (ns.assignable .void sup : SessionM σ Bool) = pure false := by
        cases sup <;> first | rfl | exact hsup.elim
      rw [hrun]
      exact .pure fun _ _ h => by cases h
    · exact (keeps_assignable hns _ _).mono id fun _ _ _ _ _ h => absurd h hsup
  · exact (keeps_assignable hns _ _).mono id fun _ _ _ _ _ _ => hsub

theorem NameScope.keeps_require_value {σ : Type} {s : Session σ} {P : Prop} {ns : NameScope σ}
    (hns : ns.Steady) (pos : Pos) (sub sup : Ty) :
    Keeps s P (ns.requireAssignable pos sub sup) fun _ _ => sup.Valued → sub ≠ .void := by
  unfold requireAssignable
  refine (keeps_assignable_value hns sub sup).bind fun ok _ _ => ?_
  cases ok with
  | true => exact .pure fun h _ => h.2 rfl
  | false => exact .problem

namespace BodyScope

variable {σ : Type} {s : Session σ} {P : Prop} {cx : BodyScope σ}

theorem ensures_findField (hns : cx.names.Steady) (cls name : String) :
    Ensures s P (cx.findField cls name) fun r _ => ∀ p, r = some p → p.2.ty.Valued :=
  .bind_keeps (hns cls) fun _ _ _ => .get (.pure fun _ hs hplain _ h =>
    SymbolTable.valued_findField (fun h => hplain.valued hs h) h)

theorem ensures_findMethods (hns : cx.names.Steady) (cls name : String) :
    Ensures s P (cx.findMethods cls name) fun r _ => ∀ p ∈ r, p.2.Callable p.1 :=
  .bind_keeps (hns cls) fun _ _ _ => .get (.pure fun _ hs hplain _ h =>
    SymbolTable.callable_findMethods (fun h => hplain.valued hs h) (hplain.spelled hs) h)

/-! ## Names and fields -/

/-- Whether the local variables in a scope have values. -/
def LocalsValued (cx : BodyScope σ) : Prop :=
  ∀ l ∈ cx.locals, l.ty.Valued

theorem ensures_enclosingField (hns : cx.names.Steady) (pos : Pos) (name : String) :
    ∀ (classes : List String) (static : Bool) {s : Session σ} {P : Prop},
      Ensures s P (cx.enclosingField pos name static classes) fun r _ =>
        ∀ p, r = some p → p.2.ty.Valued
  | [], _, _, _ => .pure fun _ _ _ _ h => by cases h
  | cls :: outer, static, s, P => by
      unfold enclosingField
      refine (ensures_findField hns cls name).bind fun r _ _ => ?_
      cases r with
      | none => exact (ensures_enclosingField hns pos name outer true).pre And.left
      | some p =>
          dsimp only
          split
          · exact .problem_bind fun _ => .pure fun h => h.elim
          · exact .pure fun h _ _ => h.2

theorem ensures_nameOperand (hns : cx.names.Steady) (pos : Pos) (name : String)
    (hP : P → cx.LocalsValued) :
    Ensures s P (cx.nameOperand pos name) fun r _ => ∀ ty, r.1 = .value ty → ty.Valued := by
  unfold nameOperand
  split
  · next l hl =>
      refine .pure fun h _ _ ty hty => ?_
      cases hty
      exact hP h l (List.mem_of_find?_eq_some hl)
  · refine (ensures_enclosingField hns pos name _ _).bind fun r _ _ => ?_
    cases r with
    | some p =>
        refine .pure fun h _ _ ty hty => ?_
        cases hty
        exact h.2 p rfl
    | none =>
        refine .bind_keeps (NameScope.keeps_resolveSimple hns name) fun r _ _ => ?_
        cases r with
        | some cls =>
            exact .bind_keeps (NameScope.keeps_checkDeprecated cls pos) fun _ _ _ =>
              .pure fun _ _ _ ty hty => by cases hty
        | none => exact .pure fun _ _ _ ty hty => by cases hty

/-- A member of a value is a value, and so is what it is a member of, unless the member is static. -/
theorem ensures_memberOperand (hns : cx.names.Steady) (pos : Pos) (name : Ident) (o : Operand)
    (hP : P → ∀ ty, o = .value ty → ty.Yielded) :
    Ensures s P (cx.memberOperand pos name o) fun r _ => ∀ ty, r.1 = .value ty → ty.Valued ∧
      ((∃ owner d, r.2 = some (.field owner true d)) ∨ ∃ ty', o = .value ty' ∧ ty' ≠ .void) := by
  unfold memberOperand
  split
  · next cls =>
      refine (ensures_findField hns cls name.name).bind fun r _ _ => ?_
      cases r with
      | some p =>
          refine .pure fun h _ _ ty hty => ?_
          cases hty
          exact ⟨h.2 p rfl, .inr ⟨_, rfl, nofun⟩⟩
      | none => exact .problem_bind fun _ => .pure fun h => h.elim
  · exact .pure fun h => absurd rfl (hP h _ rfl).ne_unknown
  · split
    · refine .pure fun h _ _ ty hty => ?_
      cases hty
      exact ⟨trivial, .inr ⟨_, rfl, nofun⟩⟩
    · exact .problem_bind fun _ => .pure fun h => h.elim
  · next cls =>
      refine (ensures_findField hns cls name.name).bind fun r _ _ => ?_
      cases r with
      | some p =>
          obtain ⟨owner, f⟩ := p
          dsimp only
          split
          · exact .problem_bind fun _ => .pure fun h => h.elim
          · next hstatic =>
              refine .pure fun h _ _ ty hty => ?_
              cases hty
              have hstatic : f.isStatic = true := by simpa using hstatic
              exact ⟨h.2 _ rfl, .inl ⟨owner, f.ty.descriptor, by rw [fieldReferent, hstatic]⟩⟩
      | none =>
          refine .bind_keeps (NameScope.keeps_memberType hns cls name.name) fun r _ _ => ?_
          cases r with
          | some nested =>
              exact .bind_keeps (NameScope.keeps_checkDeprecated nested name.pos) fun _ _ _ =>
                .pure fun _ _ _ ty hty => by cases hty
          | none => exact .problem_bind fun _ => .pure fun h => h.elim
  · refine .bind_keeps (keeps_findClass _) fun _ _ _ => ?_
    split
    · exact .bind_keeps (NameScope.keeps_checkDeprecated _ name.pos) fun _ _ _ =>
        .pure fun _ _ _ ty hty => by cases hty
    · exact .pure fun _ _ _ ty hty => by cases hty

/-! ## Calls -/

/-- Arguments that can be passed for values are values. -/
theorem keeps_applicable_values (hns : cx.names.Steady) : ∀ (args params : List Ty)
    {s : Session σ} {P : Prop}, (P → ∀ p ∈ params, p.Valued) →
      Keeps s P (cx.applicable args params) fun ok _ => ok = true → ∀ a ∈ args, a ≠ .void
  | [], [], _, _, _ => .pure fun _ _ _ => List.forall_mem_nil _
  | a :: args, p :: params, _, _, hP => by
      unfold applicable
      refine (NameScope.keeps_assignable_value hns a p).bind fun ok _ _ => ?_
      cases ok with
      | true =>
          refine (keeps_applicable_values hns args params fun h =>
            (List.forall_mem_cons.mp (hP h.1)).2).mono id fun _ _ h hrest hok => ?_
          have hp := (List.forall_mem_cons.mp (hP h.1)).1
          exact List.forall_mem_cons.mpr ⟨h.2 rfl hp, hrest hok⟩
      | false => exact .pure fun _ _ h => by cases h
  | [], _ :: _, _, _, _ => .pure fun _ _ h => by cases h
  | _ :: _, [], _, _, _ => .pure fun _ _ h => by cases h

theorem keeps_select_values (hns : cx.names.Steady) (args : List Ty)
    (candidates : List (String × MethodSig)) (hP : P → ∀ p ∈ candidates, p.2.Callable p.1) :
    Keeps s P (cx.select args candidates) fun r _ => ∀ p, r = some p →
      p.2.Callable p.1 ∧ p.2.params.length = args.length ∧ ∀ a ∈ args, a ≠ .void := by
  refine Keeps.findSomeM? (R := fun (p : String × MethodSig) _ => p.2.Callable p.1 ∧
    p.2.params.length = args.length ∧ ∀ a ∈ args, a ≠ .void) candidates fun p hp t => ?_
  obtain ⟨owner, m⟩ := p
  dsimp only
  split
  · next hlength =>
      refine (keeps_applicable_values hns args m.params fun h q hq =>
        ((hP h _ hp).params q hq).1).bind fun ok _ _ => ?_
      cases ok with
      | true =>
          refine .pure fun h _ p heq => ?_
          cases heq
          exact ⟨hP h.1 _ hp, beq_iff_eq.mp hlength, h.2 rfl⟩
      | false => exact .pure fun _ _ p h => by cases h
  · exact .pure fun _ _ p h => by cases h

/-- Whether a call with arguments of given types has found a method that takes them. -/
structure Callee (args : List Ty) (r : Ty × Option Referent) (owner : String) (m : MethodSig) :
    Prop where
  callable : m.Callable owner
  refers : r.2 = some (.method owner m.isStatic m.descriptor)
  ret : r.1 = m.ret
  params : m.params.length = args.length
  values : ∀ a ∈ args, a ≠ .void

theorem ensures_callOn (hns : cx.names.Steady) (name : Ident) (args : List Ty) (cls : String)
    (static : Bool) :
    Ensures s P (cx.callOn name args cls static) fun r _ => ∃ owner m, Callee args r owner m ∧
      (static = true → m.isStatic = true) := by
  unfold callOn
  refine (ensures_findMethods hns cls name.name).bind fun candidates _ _ => ?_
  split
  · exact .problem_bind fun _ => .pure fun h => h.elim
  · refine .bind_keeps (keeps_select_values hns args candidates And.right) fun r _ _ => ?_
    cases r with
    | none => exact .problem_bind fun _ => .pure fun h => h.elim
    | some p =>
        obtain ⟨owner, m⟩ := p
        dsimp only
        split
        · exact .problem_bind fun _ => .pure fun h => h.elim
        · next hstatic =>
            refine .pure fun h _ _ => ?_
            obtain ⟨hcallable, hparams, hvalues⟩ := h.2 _ rfl
            refine ⟨owner, m, ⟨hcallable, rfl, rfl, hparams, hvalues⟩, fun hs => ?_⟩
            simpa [hs] using hstatic

theorem ensures_callEnclosing (hns : cx.names.Steady) (name : Ident) (args : List Ty) :
    ∀ (classes : List String) (static : Bool) {s : Session σ} {P : Prop},
      Ensures s P (cx.callEnclosing name args static classes) fun r _ =>
        ∃ owner m, Callee args r owner m
  | [], _, _, _ => .problem_bind fun _ => .pure fun h => h.elim
  | cls :: outer, static, s, P => by
      unfold callEnclosing
      refine (ensures_findMethods hns cls name.name).bind fun candidates _ _ => ?_
      split
      · exact (ensures_callEnclosing hns name args outer true).pre And.left
      · refine (ensures_callOn hns name args cls static).mono And.left fun r _ _ h => ?_
        obtain ⟨owner, m, hcallee, -⟩ := h
        exact ⟨owner, m, hcallee⟩

/-- Whether what an operand uses are values, and it is one itself or calls a method. -/
def UsesOperand (r : Operand × Expr) : Prop :=
  ∀ ty, r.1 = .value ty → ty.Yielded ∧ ∀ x ∈ (r.2.withTy ty).evaluated, x.Uses

/-- Whether what an expression of a given type uses are values, and it is one itself or calls a
method. -/
structure UsesValue (ty : Ty) (e : Expr) : Prop where
  yielded : ty.Yielded
  ty? : e.ty? = some ty
  evaluated : ∀ x ∈ e.evaluated, x.Uses

/-- A method that is not static is called on a value. -/
theorem ensures_callOperand (hns : cx.names.Steady) (name : Ident) (args : List Ty)
    (r : Operand × Expr) (hP : P → UsesOperand r) :
    Ensures s P (cx.callOperand name args r) fun r' _ =>
      ∃ owner m, Callee args (r'.1, r'.2.1) owner m ∧
        (m.isStatic = true ∨ ∃ ty, ty ≠ .void ∧ UsesValue ty r'.2.2) := by
  obtain ⟨ty | cls | segments, target⟩ := r
  · unfold callOperand
    dsimp only
    split
    · next cls =>
        refine (ensures_callOn hns name args cls false).bind fun r _ _ => .pure fun h _ _ => ?_
        obtain ⟨owner, m, hcallee, -⟩ := h.2
        obtain ⟨hyielded, huses⟩ := hP h.1 _ rfl
        exact ⟨owner, m, hcallee, .inr ⟨.cls cls, nofun, hyielded, ty?_withTy _ target, huses⟩⟩
    · exact .pure fun h => absurd rfl (hP h _ rfl).1.ne_unknown
    · exact .problem_bind fun _ => .pure fun h => h.elim
  · refine (ensures_callOn hns name args cls true).bind fun r _ _ => .pure fun h _ _ => ?_
    obtain ⟨owner, m, hcallee, hstatic⟩ := h.2
    exact ⟨owner, m, hcallee, .inl (hstatic rfl)⟩
  · unfold callOperand packageProblem
    dsimp only
    split <;> exact .problem_bind fun _ => .pure fun h => h.elim

/-! ## Operators -/

theorem valued_unaryTy {op : UnaryOp} {ty result : Ty} (h : unaryTy op ty = some result) :
    result.Valued ∧ ty ≠ .void := by
  cases op <;> cases ty <;> simp [unaryTy] at h <;> subst h <;> simp [Ty.Valued]

theorem keeps_unary_value (pos : Pos) (op : UnaryOp) (ty : Ty) (hP : P → ty.Yielded) :
    Keeps s P (cx.unary pos op ty) fun ty' _ => ty'.Valued ∧ ty ≠ .void := by
  unfold unary
  split
  · exact .pure fun h => absurd rfl (hP h).ne_unknown
  · next result hresult => exact .pure fun _ _ => valued_unaryTy hresult
  · exact .problem_bind fun _ => .pure fun h => h.elim

theorem isNumeric_ne_void {ty : Ty} (h : ty.isNumeric = true) : ty ≠ .void := by
  rintro rfl
  cases h

theorem isReference_ne_void {ty : Ty} (h : ty.isReference = true) : ty ≠ .void := by
  rintro rfl
  cases h

theorem valued_arithmeticTy {left right result : Ty} (h : arithmeticTy left right = some result) :
    result.Valued ∧ left ≠ .void ∧ right ≠ .void := by
  unfold arithmeticTy at h
  split at h
  · next hnumeric =>
      obtain ⟨hl, hr⟩ := Bool.and_eq_true_iff.mp hnumeric
      refine ⟨?_, isNumeric_ne_void hl, isNumeric_ne_void hr⟩
      split at h <;> cases h <;> trivial
  · cases h

/-- An operation other than a test for equality is one on values. -/
theorem valued_binaryTy {op : BinaryOp} {left right result : Ty}
    (h : binaryTy op left right = some result) (hcompares : (op = .eq || op = .ne) = true →
      left ≠ .void ∧ right ≠ .void) :
    result.Valued ∧ left ≠ .void ∧ right ≠ .void := by
  cases op with
  | add =>
      simp only [binaryTy] at h
      split at h
      · next hstring =>
          simp only [ne_eq, Bool.and_eq_true, decide_eq_true_eq] at hstring
          cases h
          exact ⟨trivial, hstring.1.2, hstring.2⟩
      · exact valued_arithmeticTy h
  | sub | mul | div | rem => exact valued_arithmeticTy h
  | lt | le | gt | ge =>
      obtain ⟨ty, hty, rfl⟩ := Option.map_eq_some_iff.mp h
      exact ⟨trivial, (valued_arithmeticTy hty).2⟩
  | and | or =>
      simp only [binaryTy] at h
      split at h
      · next hboth =>
          simp only [Bool.and_eq_true, decide_eq_true_eq] at hboth
          obtain ⟨rfl, rfl⟩ := hboth
          cases h
          simp [Ty.Valued]
      · cases h
  | eq | ne =>
      cases h
      exact ⟨trivial, hcompares rfl⟩

theorem keeps_comparable_values (hns : cx.names.Steady) (left right : Ty) :
    Keeps s P (cx.comparable left right) fun ok _ => ok = true → left ≠ .void ∧ right ≠ .void := by
  unfold comparable
  split
  · next hprimitive =>
      refine .pure fun _ _ _ => ?_
      simp only [Bool.or_eq_true, Bool.and_eq_true, decide_eq_true_eq] at hprimitive
      rcases hprimitive with ⟨hl, hr⟩ | ⟨rfl, rfl⟩
      · exact ⟨isNumeric_ne_void hl, isNumeric_ne_void hr⟩
      · simp
  · split
    · next hreferences =>
        obtain ⟨hl, hr⟩ := Bool.and_eq_true_iff.mp hreferences
        have hvalues := And.intro (isReference_ne_void hl) (isReference_ne_void hr)
        refine (NameScope.keeps_assignable hns left right).bind fun _ _ _ => ?_
        split
        · exact .pure fun _ _ _ => hvalues
        · exact (NameScope.keeps_assignable hns right left).mono id fun _ _ _ _ _ => hvalues
    · exact .pure fun _ _ h => by cases h

theorem keeps_binary_values (hns : cx.names.Steady) (pos : Pos) (op : BinaryOp) (left right : Ty)
    (hP : P → left.Yielded ∧ right.Yielded) :
    Keeps s P (cx.binary pos op left right) fun ty _ =>
      ty.Valued ∧ left ≠ .void ∧ right ≠ .void := by
  unfold binary
  split
  · next hunknown =>
      refine .pure fun h _ => ?_
      obtain ⟨hl, hr⟩ := hP h
      simp [hl.ne_unknown, hr.ne_unknown] at hunknown
  · dsimp only
    rcases hty : binaryTy op left right with _ | ty <;> dsimp only
    · have hrest {s P} : Keeps s P (do
          cx.problem pos (.badOperands op left right)
          return Ty.unknown) fun ty _ => ty.Valued ∧ left ≠ .void ∧ right ≠ .void :=
        .problem_bind fun _ => .pure fun h => h.elim
      split
      · refine (keeps_comparable_values hns left right).bind fun ok _ _ => ?_
        cases ok with
        | true => exact hrest
        | false => exact .problem_bind fun _ => hrest
      · exact hrest
    · have hrest {s P} (hcompares : P → (op = .eq || op = .ne) = true →
          left ≠ .void ∧ right ≠ .void) : Keeps s P (pure ty : SessionM σ Ty) fun ty _ =>
            ty.Valued ∧ left ≠ .void ∧ right ≠ .void :=
        .pure fun h _ => valued_binaryTy hty (hcompares h)
      split
      · refine (keeps_comparable_values hns left right).bind fun ok _ _ => ?_
        cases ok with
        | true => exact hrest fun h _ => h.2 rfl
        | false => exact .problem_bind fun _ => hrest False.elim
      · next hequality => exact hrest fun _ h => absurd h hequality

theorem keeps_requireIndex_value (pos : Pos) (ty : Ty) (hP : P → ty.Yielded) :
    Keeps s P (cx.requireIndex pos ty) fun _ _ => ty ≠ .void := by
  unfold requireIndex
  split
  · exact .pure fun _ _ => nofun
  · exact .pure fun _ _ => nofun
  · exact .pure fun h => absurd rfl (hP h).ne_unknown
  · exact .problem

theorem keeps_elementTy_value (pos : Pos) (ty : Ty) (hP : P → ty.Yielded) :
    Keeps s P (cx.elementTy pos ty) fun elem _ => elem.Valued ∧ ty ≠ .void := by
  unfold elementTy
  split
  · exact .pure fun h _ => ⟨(hP h).valued nofun, nofun⟩
  · exact .pure fun h => absurd rfl (hP h).ne_unknown
  · exact .problem_bind fun _ => .pure fun h => h.elim

theorem keeps_thisTy_value (pos : Pos) : Keeps s P (cx.thisTy pos) fun ty _ => ty.Valued := by
  unfold thisTy
  dsimp only
  split
  · exact .problem_bind fun _ => .pure fun h => h.elim
  · exact .pure fun _ _ => trivial

/-- An object that is created is one of a class with a name that is spelled. -/
theorem ensures_create (hns : cx.names.Steady) (pos : Pos) (type : TypeRef) (args : List Ty)
    (hP : P → type.dims = 0 ∧ ∃ path, type.base = .named path) :
    Ensures s P (cx.create pos type args) fun r _ =>
      ∃ cls, r.1 = .cls cls ∧ r.2 = some (.cls cls) ∧ Spelled cls := by
  unfold create
  refine .bind_keeps (NameScope.keeps_resolveType hns type) fun ty _ _ => ?_
  split
  · next cls _ =>
      dsimp only
      split
      · exact .get (.problem_bind fun _ => .pure fun h => h.elim)
      · exact .pure fun h hs hplain => ⟨cls, rfl, rfl, hplain.spelled hs h.2.has_cls⟩
  · next hcls =>
      refine .pure fun h _ _ => ?_
      obtain ⟨hdims, path, hpath⟩ := hP h.1
      obtain ⟨cls, rfl⟩ := h.2.cls hpath hdims
      exact (hcls cls rfl).elim

end BodyScope

end ProbeLang
