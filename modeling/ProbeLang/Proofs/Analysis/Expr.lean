import ProbeLang.Proofs.Analysis.Attribution
import ProbeLang.Proofs.Analysis.Names
import ProbeLang.Proofs.Tree.Parsed

/-!
# Analysed expressions are attributed

An expression that is analysed without an error has a known type and refers to something, and so
have and do all expressions that are evaluated with it. The lemmas follow the analysis: members of
classes first, then names, calls and operators, then expressions by induction.
-/

namespace ProbeLang

open SessionM

/-! ## Members of classes -/

namespace SymbolTable

variable {t : SymbolTable}

theorem known_findField (ht : ∀ {name c}, t.find? name = some c → c.Known)
    {cls name owner : String} {f : FieldSig} (h : t.findField cls name = some (owner, f)) :
    f.ty.Known := by
  obtain ⟨c, -, h⟩ := List.exists_of_findSome?_eq_some h
  obtain ⟨sym, hsym, h⟩ := Option.bind_eq_some_iff.mp h
  obtain ⟨g, hg, h⟩ := Option.bind_eq_some_iff.mp h
  cases h
  exact (ht hsym).fields _ (List.mem_of_find?_eq_some hg)

theorem known_findMethods (ht : ∀ {name c}, t.find? name = some c → c.Known)
    {cls name owner : String} {m : MethodSig} (h : (owner, m) ∈ t.findMethods cls name) :
    m.ret.Known := by
  obtain ⟨c, -, h⟩ := List.mem_flatMap.mp h
  split at h
  · cases h
  · next sym hsym =>
      obtain ⟨m', hm', heq⟩ := List.mem_map.mp h
      cases heq
      exact (ht hsym).methods _ (List.mem_filter.mp hm').1

end SymbolTable

namespace BodyScope

variable {σ : Type} {s : Session σ} {P : Prop} {cx : BodyScope σ}

theorem keeps_findField (hns : cx.names.Steady) (cls name : String) :
    Keeps s P (cx.findField cls name) fun r _ => ∀ p, r = some p → p.2.ty.Known :=
  (hns cls).bind fun _ _ _ => .get (.pure fun _ hs _ h =>
    SymbolTable.known_findField (fun h => hs.known h) h)

theorem keeps_findMethods (hns : cx.names.Steady) (cls name : String) :
    Keeps s P (cx.findMethods cls name) fun r _ => ∀ p ∈ r, p.2.ret.Known :=
  (hns cls).bind fun _ _ _ => .get (.pure fun _ hs _ h =>
    SymbolTable.known_findMethods (fun h => hs.known h) h)

/-! ## Names and fields -/

theorem keeps_enclosingField (hns : cx.names.Steady) (pos : Pos) (name : String) :
    ∀ (classes : List String) (static : Bool) {s : Session σ} {P : Prop},
      Keeps s P (cx.enclosingField pos name static classes) fun r _ =>
        ∀ p, r = some p → p.2.ty.Known ∧ (static = true → p.2.isStatic = true)
  | [], _, _, _ => .pure fun _ _ _ h => by cases h
  | cls :: outer, static, s, P => by
      unfold enclosingField
      refine (keeps_findField hns cls name).bind fun r _ _ => ?_
      cases r with
      | none =>
          refine (keeps_enclosingField hns pos name outer true).mono id fun r _ _ h p hp => ?_
          exact ⟨(h p hp).1, fun _ => (h p hp).2 rfl⟩
      | some p =>
          obtain ⟨owner, f⟩ := p
          dsimp only
          split
          · exact .problem_bind fun _ => .pure fun h => h.elim
          · next hstatic =>
              refine .pure fun hP _ p hp => ?_
              cases hp
              refine ⟨hP.2 _ rfl, fun h => ?_⟩
              simpa [h] using hstatic

/-- Whether what a name refers to is a variable that may be read in a scope. -/
def Reaches (cx : BodyScope σ) (refers : Option Referent) : Prop :=
  (cx.locals ≠ [] ∧ ∃ slot, refers = some (.localVar slot)) ∨
    ∃ owner isStatic d, refers = some (.field owner isStatic d) ∧
      (cx.isStatic = true → isStatic = true)

theorem keeps_nameOperand (hns : cx.names.Steady) (pos : Pos) (name : String)
    (hP : P → cx.LocalsKnown) :
    Keeps s P (cx.nameOperand pos name) fun r _ =>
      ∀ ty, r.1 = .value ty → ty.Known ∧ cx.Reaches r.2 := by
  unfold nameOperand
  split
  · next l hl =>
      have hmem := List.mem_of_find?_eq_some hl
      refine .pure fun h _ ty hty => ?_
      cases hty
      exact ⟨hP h l hmem, .inl ⟨List.ne_nil_of_mem hmem, l.slot, rfl⟩⟩
  · refine (keeps_enclosingField hns pos name _ _).bind fun r _ _ => ?_
    cases r with
    | some p =>
        obtain ⟨owner, f⟩ := p
        refine .pure fun h _ ty hty => ?_
        cases hty
        obtain ⟨hknown, hstatic⟩ := h.2 _ rfl
        exact ⟨hknown, .inr ⟨owner, f.isStatic, _, rfl, hstatic⟩⟩
    | none =>
        refine (NameScope.keeps_resolveSimple hns name).bind fun r _ _ => ?_
        cases r with
        | some cls =>
            exact (NameScope.keeps_checkDeprecated cls pos).bind fun _ _ _ =>
              .pure fun _ _ ty hty => by cases hty
        | none => exact .pure fun _ _ ty hty => by cases hty

/-- Whether a member of an operand may be read: a field, whose class the operand may name only if
the field is static, or the length of an array. -/
def ReachesMember (o : Operand) (name : String) (refers : Option Referent) : Prop :=
  (∃ owner isStatic d, refers = some (.field owner isStatic d) ∧
    (isStatic = false → ∃ ty, o = .value ty)) ∨
    refers = none ∧ name = "length" ∧ ∃ elem, o = .value (.array elem)

theorem keeps_memberOperand (hns : cx.names.Steady) (pos : Pos) (name : Ident) (o : Operand)
    (hP : P → ∀ ty, o = .value ty → ty.Known) :
    Keeps s P (cx.memberOperand pos name o) fun r _ =>
      ∀ ty, r.1 = .value ty → ty.Known ∧ ReachesMember o name.name r.2 := by
  unfold memberOperand
  split
  · next cls =>
      refine (keeps_findField hns cls name.name).bind fun r _ _ => ?_
      cases r with
      | some p =>
          obtain ⟨owner, f⟩ := p
          refine .pure fun h _ ty hty => ?_
          cases hty
          exact ⟨h.2 _ rfl, .inl ⟨owner, f.isStatic, _, rfl, fun _ => ⟨_, rfl⟩⟩⟩
      | none => exact .problem_bind fun _ => .pure fun h => h.elim
  · exact .pure fun h => (hP h _ rfl).elim
  · split
    · next elem hname _ _ =>
        refine .pure fun h _ ty hty => ?_
        cases hty
        exact ⟨trivial, .inr ⟨rfl, hname, elem, rfl⟩⟩
    · exact .problem_bind fun _ => .pure fun h => h.elim
  · next cls =>
      refine (keeps_findField hns cls name.name).bind fun r _ _ => ?_
      cases r with
      | some p =>
          obtain ⟨owner, f⟩ := p
          dsimp only
          split
          · exact .problem_bind fun _ => .pure fun h => h.elim
          · next hstatic =>
              refine .pure fun h _ ty hty => ?_
              cases hty
              refine ⟨h.2 _ rfl, .inl ⟨owner, f.isStatic, _, rfl, fun hf => ?_⟩⟩
              simp [hf] at hstatic
      | none =>
          refine (NameScope.keeps_memberType hns cls name.name).bind fun r _ _ => ?_
          cases r with
          | some nested =>
              exact (NameScope.keeps_checkDeprecated nested name.pos).bind fun _ _ _ =>
                .pure fun _ _ ty hty => by cases hty
          | none => exact .problem_bind fun _ => .pure fun h => h.elim
  · refine (keeps_findClass _).bind fun _ _ _ => ?_
    split
    · exact (NameScope.keeps_checkDeprecated _ name.pos).bind fun _ _ _ =>
        .pure fun _ _ ty hty => by cases hty
    · exact .pure fun _ _ ty hty => by cases hty

/-! ## Calls -/

theorem keeps_applicable (hns : cx.names.Steady) : ∀ (args params : List Ty) {s : Session σ}
    {P : Prop}, Keeps s P (cx.applicable args params) fun _ _ => True
  | [], [], _, _ => .pure fun _ _ => trivial
  | a :: args, p :: params, _, _ => by
      unfold applicable
      refine (NameScope.keeps_assignable hns a p).bind fun _ _ _ => ?_
      split
      · exact keeps_applicable hns args params
      · exact .pure fun _ _ => trivial
  | [], _ :: _, _, _ | _ :: _, [], _, _ => .pure fun _ _ => trivial

theorem keeps_select (hns : cx.names.Steady) (args : List Ty)
    (candidates : List (String × MethodSig)) :
    Keeps s P (cx.select args candidates) fun r _ => ∀ p, r = some p → p ∈ candidates := by
  refine Keeps.findSomeM? candidates fun p hp t => ?_
  obtain ⟨owner, m⟩ := p
  dsimp only
  split
  · refine (keeps_applicable hns args m.params).bind fun _ _ _ => ?_
    split
    · refine .pure fun _ _ p h => ?_
      cases h
      exact hp
    · exact .pure fun _ _ p h => by cases h
  · exact .pure fun _ _ p h => by cases h

/-- Whether what a name refers to is a method, and a static one if need be. -/
def Calls (static : Bool) (refers : Option Referent) : Prop :=
  ∃ owner isStatic d, refers = some (.method owner isStatic d) ∧ (static = true → isStatic = true)

theorem keeps_callOn (hns : cx.names.Steady) (name : Ident) (args : List Ty) (cls : String)
    (static : Bool) :
    Keeps s P (cx.callOn name args cls static) fun r _ => r.1.Known ∧ Calls static r.2 := by
  unfold callOn
  refine (keeps_findMethods hns cls name.name).bind fun candidates _ _ => ?_
  split
  · exact .problem_bind fun _ => .pure fun h => h.elim
  · refine (keeps_select hns args candidates).bind fun r _ _ => ?_
    cases r with
    | none => exact .problem_bind fun _ => .pure fun h => h.elim
    | some p =>
        obtain ⟨owner, m⟩ := p
        dsimp only
        split
        · exact .problem_bind fun _ => .pure fun h => h.elim
        · next hstatic =>
            refine .pure fun h _ => ⟨h.1.2 _ (h.2 _ rfl), owner, m.isStatic, _, rfl, fun hs => ?_⟩
            simpa [hs] using hstatic

theorem keeps_callEnclosing (hns : cx.names.Steady) (name : Ident) (args : List Ty) :
    ∀ (classes : List String) (static : Bool) {s : Session σ} {P : Prop},
      Keeps s P (cx.callEnclosing name args static classes) fun r _ =>
        r.1.Known ∧ Calls static r.2
  | [], _, _, _ => .problem_bind fun _ => .pure fun h => h.elim
  | cls :: outer, static, s, P => by
      unfold callEnclosing
      refine (keeps_findMethods hns cls name.name).bind fun candidates _ _ => ?_
      split
      · refine (keeps_callEnclosing hns name args outer true).mono id fun r _ _ h => ?_
        obtain ⟨hknown, owner, isStatic, d, hr, hstatic⟩ := h
        exact ⟨hknown, owner, isStatic, d, hr, fun _ => hstatic rfl⟩
      · exact (keeps_callOn hns name args cls static).pre fun h => h.1

theorem keeps_callOperand (hns : cx.names.Steady) (name : Ident) (args : List Ty)
    (r : Operand × Expr) (hP : P → cx.HoldsOperand r) :
    Keeps s P (cx.callOperand name args r) fun r' _ =>
      r'.1.Known ∧ ∃ owner isStatic d, r'.2.1 = some (.method owner isStatic d) ∧
        (isStatic = false → ∀ x ∈ r'.2.2.evaluated, cx.Holds x) := by
  obtain ⟨ty | cls | segments, target⟩ := r
  · unfold callOperand
    dsimp only
    split
    · next cls =>
        refine (keeps_callOn hns name args cls false).bind fun r _ _ => .pure fun h _ => ?_
        obtain ⟨hknown, owner, isStatic, d, hr, -⟩ := h.2
        exact ⟨hknown, owner, isStatic, d, hr, fun _ => (hP h.1 _ rfl).2⟩
    · exact .pure fun h => (hP h _ rfl).1.elim
    · exact .problem_bind fun _ => .pure fun h => h.elim
  · refine (keeps_callOn hns name args cls true).bind fun r _ _ => .pure fun h _ => ?_
    obtain ⟨hknown, owner, isStatic, d, hr, hstatic⟩ := h.2
    exact ⟨hknown, owner, isStatic, d, hr, fun hf => by rw [hstatic rfl] at hf; cases hf⟩
  · unfold callOperand packageProblem
    dsimp only
    split <;> exact .problem_bind fun _ => .pure fun h => h.elim

/-! ## Operators -/

theorem known_unaryTy {op : UnaryOp} {ty result : Ty} (h : unaryTy op ty = some result) :
    result.Known := by
  cases op <;> cases ty <;> simp [unaryTy] at h <;> subst h <;> trivial

theorem keeps_unary (pos : Pos) (op : UnaryOp) (ty : Ty) (hP : P → ty.Known) :
    Keeps s P (cx.unary pos op ty) fun ty' _ => ty'.Known := by
  unfold unary
  split
  · exact .pure fun h => (hP h).elim
  · next result hresult => exact .pure fun _ _ => known_unaryTy hresult
  · exact .problem_bind fun _ => .pure fun h => h.elim

theorem known_arithmeticTy {left right result : Ty}
    (h : arithmeticTy left right = some result) : result.Known := by
  unfold arithmeticTy at h
  split at h
  · split at h <;> cases h <;> trivial
  · cases h

theorem known_binaryTy {op : BinaryOp} {left right result : Ty}
    (h : binaryTy op left right = some result) : result.Known := by
  cases op with
  | add =>
      simp only [binaryTy] at h
      split at h
      · cases h
        trivial
      · exact known_arithmeticTy h
  | sub | mul | div | rem => exact known_arithmeticTy h
  | lt | le | gt | ge =>
      obtain ⟨ty, -, rfl⟩ := Option.map_eq_some_iff.mp h
      trivial
  | and | or =>
      simp only [binaryTy] at h
      split at h
      · cases h
        trivial
      · cases h
  | eq | ne =>
      cases h
      trivial

theorem keeps_comparable (hns : cx.names.Steady) (left right : Ty) :
    Keeps s P (cx.comparable left right) fun _ _ => True := by
  unfold comparable
  split
  · exact .pure fun _ _ => trivial
  · split
    · refine (NameScope.keeps_assignable hns left right).bind fun _ _ _ => ?_
      split
      · exact .pure fun _ _ => trivial
      · exact NameScope.keeps_assignable hns right left
    · exact .pure fun _ _ => trivial

theorem keeps_binary (hns : cx.names.Steady) (pos : Pos) (op : BinaryOp) (left right : Ty)
    (hP : P → left.Known ∧ right.Known) :
    Keeps s P (cx.binary pos op left right) fun ty _ => ty.Known := by
  unfold binary
  split
  · next hunknown =>
      refine .pure fun h _ => ?_
      obtain ⟨hl, hr⟩ := hP h
      simp [hl.ne_unknown, hr.ne_unknown] at hunknown
  · dsimp only
    rcases hty : binaryTy op left right with _ | ty <;> dsimp only
    · have hrest {s P} : Keeps s P (do
          cx.problem pos (.badOperands op left right)
          return Ty.unknown) fun ty _ => ty.Known := .problem_bind fun _ => .pure fun h => h.elim
      split
      · refine (keeps_comparable hns left right).bind fun _ _ _ => ?_
        split
        · exact .problem_bind fun _ => hrest
        · exact hrest
      · exact hrest
    · have hrest {s P} : Keeps s P (pure ty : SessionM σ Ty) fun ty _ => ty.Known :=
        .pure fun _ _ => known_binaryTy hty
      split
      · refine (keeps_comparable hns left right).bind fun _ _ _ => ?_
        split
        · exact .problem_bind fun _ => hrest
        · exact hrest
      · exact hrest

theorem keeps_requireIndex (pos : Pos) (ty : Ty) :
    Keeps s P (cx.requireIndex pos ty) fun _ _ => True := by
  unfold requireIndex
  split
  · exact .pure fun _ _ => trivial
  · exact .pure fun _ _ => trivial
  · exact .pure fun _ _ => trivial
  · exact .problem

theorem keeps_elementTy (pos : Pos) (ty : Ty) (hP : P → ty.Known) :
    Keeps s P (cx.elementTy pos ty) fun elem _ => elem.Known := by
  unfold elementTy
  split
  · exact .pure fun h _ => hP h
  · exact .pure fun h => (hP h).elim
  · exact .problem_bind fun _ => .pure fun h => h.elim

theorem keeps_create (hns : cx.names.Steady) (pos : Pos) (type : TypeRef) (args : List Ty)
    (hP : P → type.dims = 0 ∧ ∃ path, type.base = .named path) :
    Keeps s P (cx.create pos type args) fun r _ =>
      r.1.Known ∧ ∃ cls, r.2 = some (.cls cls) := by
  unfold create
  refine (NameScope.keeps_resolveType hns type).bind fun ty _ _ => ?_
  split
  · next cls _ =>
      dsimp only
      split
      · exact .get (.problem_bind fun _ => .pure fun h => h.elim)
      · exact .pure fun _ _ => ⟨trivial, cls, rfl⟩
  · next hcls =>
      refine .pure fun h _ => ?_
      obtain ⟨hdims, path, hpath⟩ := hP h.1
      obtain ⟨cls, rfl⟩ := h.2.cls hpath hdims
      exact (hcls cls rfl).elim

theorem keeps_thisTy (pos : Pos) :
    Keeps s P (cx.thisTy pos) fun ty _ => ty.Known ∧ cx.isStatic = false := by
  unfold thisTy
  dsimp only
  split
  · exact .problem_bind fun _ => .pure fun h => h.elim
  · next hstatic => exact .pure fun _ _ => ⟨trivial, by simpa using hstatic⟩

/-! ## Expressions -/

theorem ty?_withTy (ty : Ty) (e : Expr) : (e.withTy ty).ty? = some ty := by
  cases e <;> rfl

/-- An operand is fit for code if it is by itself and all that is evaluated before it is. -/
theorem holdsOperand_value {e : Expr} {ty : Ty} {before : List Expr}
    (hevaluated : (e.withTy ty).evaluated = e.withTy ty :: before) (hty : ty.Known)
    (hresolved : (e.withTy ty).Resolved)
    (hclosed : cx.locals = [] → (e.withTy ty).place.localSlot? = none)
    (hstatic : cx.isStatic = true → (e.withTy ty).usesSelf = false)
    (hbefore : ∀ x ∈ before, cx.Holds x) : cx.HoldsOperand (.value ty, e) := by
  intro ty' hty'
  cases hty'
  refine ⟨hty, fun x hx => ?_⟩
  rw [hevaluated] at hx
  rcases List.mem_cons.mp hx with rfl | hx
  · exact ⟨⟨⟨hresolved, ty, ty?_withTy ty e, hty⟩, hstatic⟩, hclosed⟩
  · exact hbefore x hx

theorem localSlot?_eq_none {e : Expr} (h : e.note.refers = none) : e.localSlot? = none := by
  rw [Expr.localSlot?, h]

theorem holds_append {es es' : List Expr} (h : ∀ x ∈ es, cx.Holds x)
    (h' : ∀ x ∈ es', cx.Holds x) : ∀ x ∈ es ++ es', cx.Holds x :=
  List.forall_mem_append.mpr ⟨h, h'⟩

theorem keeps_settle (r : Operand × Expr) (hP : P → cx.HoldsOperand r) :
    Keeps s P (cx.settle r) fun r' _ => cx.HoldsValue r'.1 r'.2 := by
  obtain ⟨ty | cls | segments, e⟩ := r
  · exact .pure fun h _ => ⟨(hP h ty rfl).1, ty?_withTy ty e, (hP h ty rfl).2⟩
  · exact .problem_bind fun _ => .pure fun h => h.elim
  · unfold settle packageProblem
    dsimp only
    split <;> exact .problem_bind fun _ => .pure fun h => h.elim

/-- A name that is a variable in a scope is fit for code. -/
theorem holdsOperand_name {n : Note} {name : String} {refers : Option Referent} {ty : Ty}
    (hty : ty.Known) (h : cx.Reaches refers) :
    cx.HoldsOperand (.value ty, .name { n with refers } name) := by
  rcases h with ⟨hlocals, slot, rfl⟩ | ⟨owner, isStatic, d, rfl, hstatic⟩
  · exact holdsOperand_value rfl hty (.inl ⟨slot, rfl⟩) (fun h => absurd h hlocals)
      (fun _ => rfl) (List.forall_mem_nil _)
  · exact holdsOperand_value rfl hty (.inr ⟨owner, isStatic, d, rfl⟩) (fun _ => rfl)
      (fun h => by simp [Expr.withTy, Expr.mapNote, Expr.usesSelf, hstatic h]) (List.forall_mem_nil _)

/-- A member that may be read of an operand is fit for code. -/
theorem holdsOperand_field {n : Note} {target : Expr} {name : Ident} {o : Operand}
    {refers : Option Referent} {ty : Ty} (hty : ty.Known)
    (htarget : ∀ ty, o = .value ty → target.ty? = some ty ∧ ∀ x ∈ target.evaluated, cx.Holds x)
    (h : ReachesMember o name.name refers) :
    cx.HoldsOperand (.value ty, .field { n with refers } target name) := by
  rcases h with ⟨owner, isStatic, d, rfl, hstatic⟩ | ⟨rfl, hname, elem, ho⟩
  · refine holdsOperand_value rfl hty (.inl ⟨owner, isStatic, d, rfl⟩) (fun _ => rfl)
      (fun _ => rfl) ?_
    cases isStatic with
    | true => exact nofun
    | false =>
        obtain ⟨ty', ho⟩ := hstatic rfl
        exact (htarget ty' ho).2
  · refine holdsOperand_value rfl hty (.inr ⟨rfl, hname, elem, (htarget _ ho).1⟩) (fun _ => rfl)
      (fun _ => rfl) (htarget _ ho).2

/-- What can be assigned to is stored into after what it needs and the value are evaluated. -/
theorem holdsOperand_assign {n : Note} {target value : Expr} {ty ty' : Ty}
    (hrefers : n.refers = none) (htarget : cx.HoldsValue ty target)
    (hvalue : cx.HoldsValue ty' value) (hplace : target.isVariable = true) :
    cx.HoldsOperand (.value ty, .assign n target value) := by
  have hself := htarget.2.2 target target.mem_evaluated_self
  have hplace := hself.attributed.resolved.isPlace_of_isVariable hplace
  intro ty'' hty''
  cases hty''
  have hassign : cx.Holds ((Expr.assign n target value).withTy ty) := by
    refine ⟨⟨⟨⟨hrefers, hplace⟩, ty, rfl, htarget.1⟩, fun h => ?_⟩, fun h => ?_⟩
    · exact Bool.eq_false_iff.mpr fun hu =>
        Bool.eq_false_iff.mp (hself.static h) (Expr.usesSelf_assign _ value hplace hu)
    · exact hplace.place_eq ▸ hself.closed h
  refine ⟨htarget.1, fun x hx => ?_⟩
  cases target with
  | name m ident =>
      rcases List.mem_cons.mp hx with rfl | hx
      · exact hassign
      · exact hvalue.2.2 x hx
  | field m of member =>
      rcases List.mem_cons.mp hx with rfl | hx
      · exact hassign
      rcases List.mem_append.mp hx with hx | hx
      · exact htarget.2.2 x (List.mem_cons_of_mem _ hx)
      · exact hvalue.2.2 x hx
  | index m of at_ =>
      rcases List.mem_cons.mp hx with rfl | hx
      · exact hassign
      rcases List.mem_append.mp hx with hx | hx
      · exact htarget.2.2 x (List.mem_cons_of_mem _ hx)
      · exact hvalue.2.2 x hx
  | _ => exact hplace.elim

mutual

/-- An expression that is analysed without an error is fit for code. -/
theorem keeps_operand (hns : cx.names.Steady) : ∀ (e : Expr) {s : Session σ} {P : Prop},
    (P → cx.LocalsKnown ∧ e.Parsed) → Keeps s P (cx.operand e) fun r _ => cx.HoldsOperand r
  | .literal n v, _, _, hP => by
      refine .pure fun h _ => ?_
      have hrefers : n.refers = none := (hP h).2.self.1
      exact holdsOperand_value rfl (by cases v <;> trivial) hrefers
        (fun _ => localSlot?_eq_none hrefers) (fun _ => rfl) nofun
  | .name n name, _, _, hP => by
      unfold operand
      refine (keeps_nameOperand hns n.pos name fun h => (hP h).1).bind fun r _ _ => ?_
      refine .pure fun h _ ty hty => ?_
      exact holdsOperand_name (h.2 ty hty).1 (h.2 ty hty).2 ty rfl
  | .this n, _, _, hP => by
      unfold operand
      refine (keeps_thisTy n.pos).bind fun ty _ _ => .pure fun h _ => ?_
      have hrefers : n.refers = none := (hP h.1).2.self.1
      exact holdsOperand_value rfl h.2.1 hrefers (fun _ => localSlot?_eq_none hrefers)
        (fun hs => by rw [h.2.2] at hs; cases hs) nofun
  | .field n target name, _, _, hP => by
      unfold operand
      refine (keeps_operand hns target fun h => ⟨(hP h).1, (hP h).2.operand ?_⟩).bind
        fun r _ _ => ?_
      · exact List.mem_cons_self
      refine (keeps_memberOperand hns _ name r.1 fun h ty hty => (h.2 ty hty).1).bind
        fun r' _ _ => .pure fun h _ ty hty => ?_
      refine holdsOperand_field (h.2 ty hty).1 (fun ty' ho => ?_) (h.2 ty hty).2 ty rfl
      obtain ⟨o, target'⟩ := r
      cases ho
      exact ⟨ty?_withTy ty' target', (h.1.2 ty' rfl).2⟩
  | .call n name args, _, _, hP => by
      unfold operand
      refine (keeps_values hns args fun h => ⟨(hP h).1, (hP h).2.operands⟩).bind fun r _ _ => ?_
      refine (keeps_callEnclosing hns name r.1 _ _).bind fun r' _ _ => .pure fun h _ => ?_
      obtain ⟨hty, owner, isStatic, d, hr, hstatic⟩ := h.2
      refine holdsOperand_value rfl hty ⟨owner, isStatic, d, hr⟩ (fun _ => ?_) (fun hs => ?_)
        h.1.2
      · simp [Expr.withTy, Expr.mapNote, Expr.place, Expr.localSlot?, Expr.note, hr]
      · simp [Expr.withTy, Expr.mapNote, Expr.usesSelf, hr, hstatic hs]
  | .invoke n target name args, _, _, hP => by
      unfold operand
      refine (keeps_values hns args fun h => ⟨(hP h).1, ?_⟩).bind fun r _ _ => ?_
      · exact Parse.allParsed_iff.mpr fun e he =>
          (hP h).2.operand (List.mem_cons_of_mem _ he)
      refine (keeps_operand hns target fun h => ⟨(hP h.1).1, (hP h.1).2.operand ?_⟩).bind
        fun r' _ _ => ?_
      · exact List.mem_cons_self
      refine (keeps_callOperand hns name r.1 r' fun h => h.2).bind fun r'' _ _ =>
        .pure fun h _ => ?_
      obtain ⟨hty, owner, isStatic, d, hr, htarget⟩ := h.2
      refine holdsOperand_value rfl hty ⟨owner, isStatic, d, hr⟩ (fun _ => ?_) (fun _ => rfl) ?_
      · simp [Expr.withTy, Expr.mapNote, Expr.place, Expr.localSlot?, Expr.note, hr]
      · refine holds_append (fun x hx => ?_) h.1.1.2
        cases isStatic with
        | true =>
            rw [if_pos (by simp [Note.isStaticMethod, hr])] at hx
            cases hx
        | false =>
            rw [if_neg (by simp [Note.isStaticMethod, hr])] at hx
            exact htarget rfl x hx
  | .new n type args, _, _, hP => by
      unfold operand
      refine (keeps_values hns args fun h => ⟨(hP h).1, (hP h).2.operands⟩).bind fun r _ _ => ?_
      refine (keeps_create hns n.pos type r.1 fun h => (hP h.1).2.self.2).bind
        fun r' _ _ => .pure fun h _ => ?_
      obtain ⟨hty, cls, hr⟩ := h.2
      refine holdsOperand_value rfl hty ⟨cls, hr⟩ (fun _ => ?_) (fun _ => rfl) nofun
      simp [Expr.withTy, Expr.mapNote, Expr.place, Expr.localSlot?, Expr.note, hr]
  | .newArray n elem length, _, _, hP => by
      unfold operand
      refine (keeps_operand hns length fun h => ⟨(hP h).1, (hP h).2.operand ?_⟩).bind
        fun r _ _ => ?_
      · exact List.mem_cons_self
      refine (keeps_settle r fun h => h.2).bind fun r' _ _ => ?_
      refine (keeps_requireIndex _ r'.1).bind fun _ _ _ => ?_
      refine (NameScope.keeps_resolveType hns elem).bind fun ty _ _ => ?_
      split
      · exact .pure fun h => h.2.known.elim
      · refine .pure fun h _ => ?_
        have hrefers : n.refers = none := (hP h.1.1.1.1).2.self.1
        exact holdsOperand_value rfl h.2.known ⟨hrefers, ty, rfl⟩
          (fun _ => localSlot?_eq_none hrefers) (fun _ => rfl) h.1.1.2.2.2
  | .index n target i, _, _, hP => by
      unfold operand
      refine (keeps_operand hns target fun h => ⟨(hP h).1, (hP h).2.operand ?_⟩).bind
        fun r _ _ => ?_
      · exact List.mem_cons_self
      refine (keeps_settle r fun h => h.2).bind fun target' _ _ => ?_
      refine (keeps_operand hns i fun h => ⟨(hP h.1.1).1, (hP h.1.1).2.operand ?_⟩).bind
        fun r' _ _ => ?_
      · exact List.mem_cons_of_mem _ List.mem_cons_self
      refine (keeps_settle r' fun h => h.2).bind fun i' _ _ => ?_
      refine (keeps_requireIndex _ i'.1).bind fun _ _ _ => ?_
      refine (keeps_elementTy _ target'.1 fun h => h.1.1.1.2.1).bind fun ty _ _ =>
        .pure fun h _ => ?_
      have hrefers : n.refers = none := (hP h.1.1.1.1.1.1).2.self.1
      exact holdsOperand_value rfl h.2 hrefers (fun _ => localSlot?_eq_none hrefers)
        (fun _ => rfl) (holds_append h.1.1.1.1.2.2.2 h.1.1.2.2.2)
  | .unary n op e, _, _, hP => by
      unfold operand
      refine (keeps_operand hns e fun h => ⟨(hP h).1, (hP h).2.operand ?_⟩).bind fun r _ _ => ?_
      · exact List.mem_cons_self
      refine (keeps_settle r fun h => h.2).bind fun e' _ _ => ?_
      refine (keeps_unary n.pos op e'.1 fun h => h.2.1).bind fun ty _ _ => .pure fun h _ => ?_
      have hrefers : n.refers = none := (hP h.1.1.1).2.self.1
      exact holdsOperand_value rfl h.2 hrefers (fun _ => localSlot?_eq_none hrefers)
        (fun _ => rfl) h.1.2.2.2
  | .binary n op lhs rhs, _, _, hP => by
      unfold operand
      refine (keeps_operand hns lhs fun h => ⟨(hP h).1, (hP h).2.operand ?_⟩).bind
        fun r _ _ => ?_
      · exact List.mem_cons_self
      refine (keeps_settle r fun h => h.2).bind fun lhs' _ _ => ?_
      refine (keeps_operand hns rhs fun h => ⟨(hP h.1.1).1, (hP h.1.1).2.operand ?_⟩).bind
        fun r' _ _ => ?_
      · exact List.mem_cons_of_mem _ List.mem_cons_self
      refine (keeps_settle r' fun h => h.2).bind fun rhs' _ _ => ?_
      refine (keeps_binary hns n.pos op lhs'.1 rhs'.1 fun h => ⟨h.1.1.2.1, h.2.1⟩).bind
        fun ty _ _ => .pure fun h _ => ?_
      have hrefers : n.refers = none := (hP h.1.1.1.1.1).2.self.1
      exact holdsOperand_value rfl h.2 hrefers (fun _ => localSlot?_eq_none hrefers)
        (fun _ => rfl) (holds_append h.1.1.1.2.2.2 h.1.2.2.2)
  | .assign n target value, _, _, hP => by
      unfold operand
      refine (keeps_operand hns target fun h => ⟨(hP h).1, (hP h).2.operand ?_⟩).bind
        fun r _ _ => ?_
      · exact List.mem_cons_self
      refine (keeps_settle r fun h => h.2).bind fun target' _ _ => ?_
      dsimp only
      split
      · exact .problem_bind fun _ => (keeps_operand hns value fun h => h.elim).bind fun r' _ _ =>
          (keeps_settle r' fun h => h.1.elim).bind fun value' _ _ =>
            (NameScope.keeps_requireAssignable hns _ _ _).bind fun _ _ _ =>
              .pure fun h => h.1.1.1.elim
      · next hvariable =>
          refine (keeps_operand hns value fun h => ⟨(hP h.1.1).1, (hP h.1.1).2.operand ?_⟩).bind
            fun r' _ _ => ?_
          · exact List.mem_cons_of_mem _ List.mem_cons_self
          refine (keeps_settle r' fun h => h.2).bind fun value' _ _ => ?_
          refine (NameScope.keeps_requireAssignable hns _ _ _).bind fun _ _ _ =>
            .pure fun h _ => ?_
          have hrefers : n.refers = none := (hP h.1.1.1.1.1).2.self.1
          have htarget := h.1.1.1.2
          refine holdsOperand_assign hrefers htarget h.1.2 ?_
          simpa [htarget.1.ne_unknown] using hvariable

theorem keeps_values (hns : cx.names.Steady) : ∀ (es : List Expr) {s : Session σ} {P : Prop},
    (P → cx.LocalsKnown ∧ Expr.AllParsed es) →
      Keeps s P (cx.values es) fun r _ => ∀ x ∈ Expr.evaluatedAll r.2, cx.Holds x
  | [], _, _, _ => .pure fun _ _ => nofun
  | e :: rest, _, _, hP => by
      unfold values
      refine (keeps_operand hns e fun h => ⟨(hP h).1, ?_⟩).bind fun r _ _ => ?_
      · exact Parse.allParsed_iff.mp (hP h).2 e List.mem_cons_self
      refine (keeps_settle r fun h => h.2).bind fun e' _ _ => ?_
      refine (keeps_values hns rest fun h => ⟨(hP h.1.1).1, ?_⟩).bind fun rest' _ _ =>
        .pure fun h _ => holds_append h.1.2.2.2 h.2
      exact Parse.allParsed_iff.mpr fun x hx =>
        Parse.allParsed_iff.mp (hP h.1.1).2 x (List.mem_cons_of_mem _ hx)

end

/-- An expression that is analysed as a value without an error is fit for code. -/
theorem keeps_value (hns : cx.names.Steady) (e : Expr) (hP : P → cx.LocalsKnown ∧ e.Parsed) :
    Keeps s P (cx.value e) fun r _ => cx.HoldsValue r.1 r.2 :=
  (keeps_operand hns e hP).bind fun r _ _ => keeps_settle r fun h => h.2

end BodyScope

end ProbeLang
