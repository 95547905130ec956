import ProbeLang.Proofs.Analysis.Assignment
import ProbeLang.Proofs.Code.Evaluation
import ProbeLang.Task

/-!
# Calls mean the first method that takes their arguments

The candidates for a call are the methods of its name in the class that it is made on and in the
superclasses, nearest class first and in the order of their declarations. They are asked one after
the other whether they take the arguments, and the call means the first one that does
(`BodyScope.operand_calls_first`). A method whose parameters are exactly the arguments always takes
them, so no method behind the nearest one of that kind is called; one in front of it may be.
-/

namespace ProbeLang

open SessionM

variable {σ τ : Type} {s t u v : Session σ} {s' : Session τ}

namespace BodyScope

variable {cx : BodyScope σ} {cx' : BodyScope τ} {args : List Ty}

/-! ## Candidates -/

/-- Ask whether a method takes some arguments. -/
def takes (cx : BodyScope σ) (args : List Ty) (m : MethodSig) : SessionM σ Bool :=
  if m.params.length == args.length then cx.applicable args m.params else return false

theorem select_nil : cx.select args [] = pure none := rfl

theorem select_cons (p : String × MethodSig) (rest : List (String × MethodSig)) :
    cx.select args (p :: rest) =
      (do if ← cx.takes args p.2 then return some p else cx.select args rest) := by
  obtain ⟨owner, m⟩ := p
  unfold select takes
  rw [List.findSomeM?_cons]
  dsimp only
  split
  · rw [bind_assoc]
    refine bind_congr fun fits => ?_
    cases fits with
    | true => exact pure_bind _ _
    | false => exact pure_bind _ _
  · rw [pure_bind, pure_bind]
    rfl

/-- Whether candidates are asked one after the other from one session to another, and none of them
takes the arguments. -/
inductive Refuses (cx : BodyScope σ) (args : List Ty) :
    List (String × MethodSig) → Session σ → Session σ → Prop
  | nil (s : Session σ) : Refuses cx args [] s s
  | cons {p : String × MethodSig} {rest : List (String × MethodSig)} {s t u : Session σ}
      (hp : (cx.takes args p.2).run.run s = (.ok false, t)) (hrest : Refuses cx args rest t u) :
      Refuses cx args (p :: rest) s u

namespace Refuses

variable {ps qs : List (String × MethodSig)}

theorem of_append (h : cx.Refuses args (ps ++ qs) s u) :
    ∃ t, cx.Refuses args ps s t ∧ cx.Refuses args qs t u := by
  induction ps generalizing s with
  | nil => exact ⟨s, .nil s, h⟩
  | cons p ps ih =>
      cases h with
      | cons hp hrest =>
          obtain ⟨t, hps, hqs⟩ := ih hrest
          exact ⟨t, .cons hp hps, hqs⟩

theorem unique (h : cx.Refuses args ps s t) (h' : cx.Refuses args ps s u) : t = u := by
  induction h with
  | nil =>
      cases h'
      rfl
  | cons hp _ ih =>
      cases h' with
      | cons hp' hrest' =>
          rw [hp] at hp'
          cases hp'
          exact ih hrest'

end Refuses

/-- What is selected is the first candidate that takes the arguments. -/
theorem refuses_of_select : ∀ {ps : List (String × MethodSig)} {p : String × MethodSig}
    {s t : Session σ}, (cx.select args ps).run.run s = (.ok (some p), t) →
      ∃ front behind u, ps = front ++ p :: behind ∧ cx.Refuses args front s u ∧
        (cx.takes args p.2).run.run u = (.ok true, t)
  | [], _, _, _, hrun => by
      rw [select_nil] at hrun
      cases hrun
  | q :: rest, p, s, t, hrun => by
      rw [select_cons] at hrun
      obtain ⟨ok, u, hq, hrun⟩ := of_run_bind hrun
      cases ok with
      | true =>
          cases hrun
          exact ⟨[], rest, s, rfl, .nil s, hq⟩
      | false =>
          obtain ⟨front, behind, v, rfl, hfront, hp⟩ := refuses_of_select hrun
          exact ⟨q :: front, behind, v, rfl, .cons hq hfront, hp⟩

/-! ## Exact matches -/

theorem run_assignable_self {ns : NameScope σ} (ty : Ty) :
    (ns.assignable ty ty).run.run s = (.ok true, s) := by
  unfold NameScope.assignable
  rw [if_pos rfl]
  rfl

theorem run_applicable_self : ∀ params : List Ty,
    (cx.applicable params params).run.run s = (.ok true, s)
  | [] => rfl
  | p :: params => by
      unfold applicable
      rw [run_bind_ok (run_assignable_self p), if_pos rfl, run_applicable_self params]

/-- A method takes arguments of exactly the types of its parameters. -/
theorem run_takes_self (m : MethodSig) :
    (cx.takes m.params m).run.run s = (.ok true, s) := by
  unfold takes
  rw [if_pos (beq_self_eq_true _), run_applicable_self]

/-- No candidate that is an exact match is refused. -/
theorem Refuses.params_ne {ps : List (String × MethodSig)} (h : cx.Refuses args ps s t) :
    ∀ p ∈ ps, p.2.params ≠ args := by
  induction h with
  | nil => exact List.forall_mem_nil _
  | @cons p _ s t _ hp _ ih =>
      refine List.forall_mem_cons.mpr ⟨?_, ih⟩
      rintro rfl
      rw [run_takes_self] at hp
      cases hp

/-- The first candidate that takes the arguments is not behind an exact match, and is that match
if no candidate in front of it takes them. -/
theorem Refuses.exact_not_before {front behind front' behind' : List (String × MethodSig)}
    {p q : String × MethodSig} (h : cx.Refuses args front s t)
    (hp : (cx.takes args p.2).run.run t = (.ok true, u))
    (hsame : front ++ p :: behind = front' ++ q :: behind') (hexact : q.2.params = args) :
    front.length ≤ front'.length ∧ (∀ v, cx.Refuses args front' s v → p = q) := by
  rcases List.append_eq_append_iff.mp hsame with ⟨more, hfront', hmore⟩ | ⟨more, hfront, hmore⟩
  · refine ⟨by rw [hfront', List.length_append]; exact Nat.le_add_right _ _, fun v hrefused => ?_⟩
    cases more with
    | nil => exact (List.cons.inj hmore).1
    | cons r more =>
        obtain ⟨rfl, -⟩ := List.cons.inj hmore
        rw [hfront'] at hrefused
        obtain ⟨w, hfront, hrest⟩ := hrefused.of_append
        cases hrest with
        | cons hp' =>
            rw [← h.unique hfront, hp] at hp'
            cases hp'
  · cases more with
    | nil =>
        rw [List.append_nil] at hfront
        exact ⟨Nat.le_of_eq (congrArg List.length hfront), fun _ _ => (List.cons.inj hmore).1.symm⟩
    | cons r more =>
        obtain ⟨rfl, -⟩ := List.cons.inj hmore
        exact absurd hexact (h.params_ne q (by rw [hfront]; simp))

/-! ## Loaded classes -/

theorem run_applicable (hcx : cx.names.Bounded s) : ∀ args params : List Ty,
    (∀ a ∈ args, s.LoadedIn a) → ∃ ok, (cx.applicable args params).run.run s = (.ok ok, s) ∧
      (ok = true ↔ List.Forall₂ s.symbols.Fits args params)
  | [], [], _ => ⟨true, rfl, fun _ => .nil, fun _ => rfl⟩
  | [], _ :: _, _ | _ :: _, [], _ => ⟨false, rfl, fun h => absurd h Bool.false_ne_true, nofun⟩
  | a :: args, p :: params, h => by
      obtain ⟨ha, hargs⟩ := List.forall_mem_cons.mp h
      obtain ⟨fits, hfits, hiff⟩ := NameScope.run_assignable hcx a p ha
      unfold applicable
      rw [run_bind_ok hfits, List.forall₂_cons, ← hiff]
      cases fits with
      | true =>
          obtain ⟨ok, hrun, hok⟩ := run_applicable hcx args params hargs
          exact ⟨ok, hrun, by rw [hok, eq_self_iff_true, true_and]⟩
      | false => exact ⟨false, rfl, fun h => absurd h Bool.false_ne_true, fun h => h.1⟩

end BodyScope

open Classical in
/-- The methods of a name in a class and its superclasses that take some arguments, nearest first. -/
noncomputable def SymbolTable.takers (t : SymbolTable) (args : List Ty) (cls name : String) :
    List (String × MethodSig) :=
  (t.findMethods cls name).filter fun p => List.Forall₂ t.Fits args p.2.params

namespace BodyScope

variable {cx : BodyScope σ} {cx' : BodyScope τ} {args : List Ty}

open Classical in
/-- Where all classes are loaded, what is selected is the first candidate that takes the arguments as
far as the table tells. -/
theorem run_select (hcx : cx.names.Bounded s) (hargs : ∀ a ∈ args, s.LoadedIn a) :
    ∀ ps : List (String × MethodSig), (cx.select args ps).run.run s =
      (.ok (ps.filter fun p => List.Forall₂ s.symbols.Fits args p.2.params).head?, s)
  | [] => rfl
  | p :: rest => by
      rw [select_cons]
      unfold takes
      split
      · obtain ⟨ok, hrun, hok⟩ := run_applicable hcx args p.2.params hargs
        rw [run_bind_ok hrun]
        cases ok with
        | true =>
            rw [List.filter_cons_of_pos (by simpa using hok.mp rfl)]
            rfl
        | false =>
            rw [List.filter_cons_of_neg (by simpa using mt hok.mpr Bool.false_ne_true)]
            exact run_select hcx hargs rest
      · next hlength =>
          have hnot : ¬ List.Forall₂ s.symbols.Fits args p.2.params := fun h =>
            hlength (beq_iff_eq.mpr h.length_eq.symm)
          rw [List.filter_cons_of_neg (by simpa using hnot)]
          exact run_select hcx hargs rest

end BodyScope

/-! ## Declarations in another order -/

open Classical in
/-- Whether two tables know the same classes with the same superclasses, and in each of them the same
methods of a name that take some arguments, in the same order. -/
structure SymbolTable.Rearranges (t t' : SymbolTable) (args : List Ty) (name : String) : Prop where
  superclass : ∀ cls, t'.superclass? cls = t.superclass? cls
  has : ∀ cls, t'.has cls = t.has cls
  methods : ∀ {cls : String} {c c' : ClassSymbol}, t.find? cls = some c → t'.find? cls = some c' →
    (c'.methods.filter fun m => m.name == name && List.Forall₂ t.Fits args m.params) =
      c.methods.filter fun m => m.name == name && List.Forall₂ t.Fits args m.params

namespace SymbolTable

variable {t t' : SymbolTable} {args : List Ty} {cls name : String} {a b : Ty}

theorem Fits.of_supertypes (hsupers : ∀ cls, t'.supertypes cls = t.supertypes cls)
    (hhas : ∀ cls, t'.has cls = t.has cls) (h : t.Fits a b) : t'.Fits a b := by
  induction h with
  | refl ty => exact .refl ty
  | unknown sup => exact .unknown sup
  | toUnknown sub => exact .toUnknown sub
  | null href => exact .null href
  | intLong => exact .intLong
  | charInt => exact .charInt
  | charLong => exact .charLong
  | object cls => exact .object cls
  | inherits hsup hknown => exact .inherits (by rwa [hsupers]) (by rwa [hhas])
  | arrayObject elem => exact .arrayObject elem
  | array href _ ih => exact .array href ih

/-- Methods may be declared in another order as long as those that take the arguments are not. -/
theorem Rearranges.takers_eq (h : t.Rearranges t' args name) :
    t'.takers args cls name = t.takers args cls name := by
  have hsupers (cls : String) : t'.supertypes cls = t.supertypes cls :=
    supertypes_congr fun sup _ => h.superclass sup
  have hfits : t'.Fits = t.Fits := funext₂ fun a b => propext
    ⟨.of_supertypes (fun c => (hsupers c).symm) fun c => (h.has c).symm, .of_supertypes hsupers h.has⟩
  unfold takers findMethods
  rw [hfits, hsupers, List.filter_flatMap, List.filter_flatMap]
  refine List.flatMap_congr fun sup _ => ?_
  have hhas := h.has sup
  unfold Table.has at hhas
  cases hc : t.find? sup with
  | none =>
      rw [hc, Option.isSome_none, Option.isSome_eq_false_iff, Option.isNone_iff_eq_none] at hhas
      rw [hhas]
  | some c =>
      rw [hc, Option.isSome_some, Option.isSome_iff_exists] at hhas
      obtain ⟨c', hc'⟩ := hhas
      have hmethods := congrArg (List.map fun m => (sup, m)) (h.methods hc hc')
      rw [hc']
      simpa [List.filter_map, List.filter_filter, Function.comp_def, Bool.and_comm] using hmethods

end SymbolTable

/-! ## Calls -/

namespace BodyScope

variable {cx : BodyScope σ} {cx' : BodyScope τ} {args : List Ty}

/-- Whether a class is the first of some enclosing classes that has or inherits a method of a name,
as is found out on the way from one session to another. -/
inductive Encloses (cx : BodyScope σ) (name : String) :
    List String → Session σ → String → Session σ → Prop
  | here {cls : String} {outer : List String} {p : String × MethodSig}
      {ps : List (String × MethodSig)} {s t : Session σ}
      (hfind : (cx.findMethods cls name).run.run s = (.ok (p :: ps), t)) :
      Encloses cx name (cls :: outer) s cls t
  | outer {cls cls' : String} {outer : List String} {s t u : Session σ}
      (hfind : (cx.findMethods cls name).run.run s = (.ok [], t))
      (houter : Encloses cx name outer t cls' u) : Encloses cx name (cls :: outer) s cls' u

/-- Whether an expression calls a method of a name with arguments of some types on a class, as is
found out on the way from one session to another. -/
inductive CallsOn (cx : BodyScope σ) (s : Session σ) :
    Expr → Ident → List Ty → String → Session σ → Prop
  | call {n : Note} {name : Ident} {es es' : List Expr} {types : List Ty} {cls : String}
      {t u : Session σ} (hvalues : (cx.values es).run.run s = (.ok (types, es'), t))
      (hcls : cx.Encloses name.name cx.names.classes t cls u) :
      CallsOn cx s (.call n name es) name types cls u
  | invoke {n : Note} {name : Ident} {target target' : Expr} {es es' : List Expr}
      {types : List Ty} {o : Operand} {cls : String} {t u : Session σ}
      (hvalues : (cx.values es).run.run s = (.ok (types, es'), t))
      (htarget : (cx.operand target).run.run t = (.ok (o, target'), u))
      (hcls : o = .value (.cls cls) ∨ o = .type cls) :
      CallsOn cx s (.invoke n target name es) name types cls u

/-- A call that means a method has selected it among the candidates. -/
theorem select_of_callOn {name : Ident} {cls : String} {static : Bool} {ret : Ty} {r : Referent}
    (hrun : (cx.callOn name args cls static).run.run s = (.ok (ret, some r), t)) :
    ∃ owner m ps u v, (cx.findMethods cls name.name).run.run s = (.ok ps, u) ∧
      (cx.select args ps).run.run u = (.ok (some (owner, m)), v) ∧
      ret = m.ret ∧ r = .method owner m.isStatic m.descriptor := by
  unfold callOn at hrun
  obtain ⟨ps, u, hfind, hrun⟩ := of_run_bind hrun
  split at hrun
  · cases hrun
  · obtain ⟨selected, v, hselect, hrun⟩ := of_run_bind hrun
    cases selected with
    | none => cases hrun
    | some p =>
        obtain ⟨owner, m⟩ := p
        refine ⟨owner, m, ps, u, v, hfind, hselect, ?_⟩
        dsimp only at hrun
        split at hrun
        · cases hrun
          exact ⟨rfl, rfl⟩
        · cases hrun
          exact ⟨rfl, rfl⟩

theorem callOn_of_callEnclosing {name : Ident} {ret : Ty} {r : Referent} :
    ∀ {classes : List String} {static : Bool} {s : Session σ},
      (cx.callEnclosing name args static classes).run.run s = (.ok (ret, some r), t) →
        ∃ cls static' u, cx.Encloses name.name classes s cls u ∧
          (cx.callOn name args cls static').run.run u = (.ok (ret, some r), t)
  | [], _, _, hrun => by cases hrun
  | cls :: outer, static, s, hrun => by
      unfold callEnclosing at hrun
      obtain ⟨ps, u, hfind, hrun⟩ := of_run_bind hrun
      cases ps with
      | nil =>
          obtain ⟨cls', static', v, hencloses, hcall⟩ := callOn_of_callEnclosing hrun
          exact ⟨cls', static', v, .outer hfind hencloses, hcall⟩
      | cons p ps => exact ⟨cls, static, u, .here hfind, hrun⟩

theorem callOn_of_callOperand {name : Ident} {o : Operand} {target target' : Expr} {ret : Ty}
    {r : Referent}
    (hrun : (cx.callOperand name args (o, target)).run.run s = (.ok (ret, some r, target'), t)) :
    ∃ cls static, (o = .value (.cls cls) ∨ o = .type cls) ∧
      (cx.callOn name args cls static).run.run s = (.ok (ret, some r), t) := by
  cases o with
  | value ty =>
      unfold callOperand at hrun
      dsimp only at hrun
      split at hrun
      · next cls =>
          obtain ⟨⟨ret', refers⟩, u, hcall, hrun⟩ := of_run_bind hrun
          cases hrun
          exact ⟨cls, false, .inl rfl, hcall⟩
      · cases hrun
      · cases hrun
  | type cls =>
      obtain ⟨⟨ret', refers⟩, u, hcall, hrun⟩ := of_run_bind hrun
      cases hrun
      exact ⟨cls, true, .inr rfl, hcall⟩
  | package segments =>
      unfold callOperand packageProblem at hrun
      dsimp only at hrun
      split at hrun <;> cases hrun

/-- A call expression that means a method calls it on a class. -/
theorem callOn_of_operand {e e' : Expr} {o : Operand} {r : Referent}
    (hcall : (∃ n name es, e = .call n name es) ∨ ∃ n target name es, e = .invoke n target name es)
    (hrun : (cx.operand e).run.run s = (.ok (o, e'), t)) (hrefers : e'.note.refers = some r) :
    ∃ name types cls static ret u, cx.CallsOn s e name types cls u ∧
      (cx.callOn name types cls static).run.run u = (.ok (ret, some r), t) := by
  rcases hcall with ⟨n, name, es, rfl⟩ | ⟨n, target, name, es, rfl⟩
  · unfold operand at hrun
    obtain ⟨⟨types, es'⟩, u, hvalues, hrun⟩ := of_run_bind hrun
    obtain ⟨⟨ret, refers⟩, v, hcall, hrun⟩ := of_run_bind hrun
    cases hrun
    cases hrefers
    obtain ⟨cls, static, w, hencloses, hcall⟩ := callOn_of_callEnclosing hcall
    exact ⟨name, types, cls, static, ret, w, .call hvalues hencloses, hcall⟩
  · unfold operand at hrun
    obtain ⟨⟨types, es'⟩, u, hvalues, hrun⟩ := of_run_bind hrun
    obtain ⟨⟨o', target'⟩, v, htarget, hrun⟩ := of_run_bind hrun
    obtain ⟨⟨ret, refers, target''⟩, w, hcall, hrun⟩ := of_run_bind hrun
    cases hrun
    cases hrefers
    obtain ⟨cls, static, hcls, hcall⟩ := callOn_of_callOperand hcall
    exact ⟨name, types, cls, static, ret, v, .invoke hvalues htarget hcls, hcall⟩

theorem run_findMethods {cls name : String} (hcx : cx.names.Bounded s) (hcls : s.Loaded cls) :
    (cx.findMethods cls name).run.run s = (.ok (s.symbols.findMethods cls name), s) :=
  run_bind_ok (NameScope.run_chain hcx hcls)

/-- Where all classes are loaded, a call means the first of the methods that take its arguments. -/
theorem run_callOn {name : Ident} {cls owner : String} {m : MethodSig}
    {rest : List (String × MethodSig)} (hcx : cx.names.Bounded s) (hcls : s.Loaded cls)
    (hargs : ∀ a ∈ args, s.LoadedIn a)
    (htakers : s.symbols.takers args cls name.name = (owner, m) :: rest) (static : Bool) :
    ∃ t, (cx.callOn name args cls static).run.run s =
      (.ok (m.ret, some (.method owner m.isStatic m.descriptor)), t) := by
  have hselect := run_select hcx hargs (s.symbols.findMethods cls name.name)
  unfold SymbolTable.takers at htakers
  rw [htakers, List.head?_cons] at hselect
  unfold callOn
  rw [run_bind_ok (run_findMethods hcx hcls)]
  split
  · next hempty =>
      rw [List.isEmpty_iff.mp hempty] at htakers
      cases htakers
  · rw [run_bind_ok hselect]
    dsimp only
    split
    · exact ⟨_, rfl⟩
    · exact ⟨_, rfl⟩

/-- A call expression that means a method means the first one, nearest class first and in the order of
declarations, that takes the arguments. So it means no method behind the nearest one whose parameters
are exactly the arguments, and this one if no method in front of it takes them; and where all classes
are loaded, methods may be declared in another order as long as those that take the arguments are
not. -/
theorem operand_calls_first {e e' : Expr} {o : Operand} {owner d : String} {isStatic : Bool}
    (hcall : (∃ n name es, e = .call n name es) ∨ ∃ n target name es, e = .invoke n target name es)
    (hrun : (cx.operand e).run.run s = (.ok (o, e'), t))
    (hrefers : e'.note.refers = some (.method owner isStatic d)) :
    ∃ name types cls u m front behind v w x, cx.CallsOn s e name types cls u ∧
      d = m.descriptor ∧ isStatic = m.isStatic ∧
      (cx.findMethods cls name.name).run.run u = (.ok (front ++ (owner, m) :: behind), v) ∧
      v.symbols.findMethods cls name.name = front ++ (owner, m) :: behind ∧
      cx.Refuses types front v w ∧ (cx.takes types m).run.run w = (.ok true, x) ∧
      (∀ front' behind' owner' exact,
        front ++ (owner, m) :: behind = front' ++ (owner', exact) :: behind' →
        exact.params = types → front.length ≤ front'.length ∧
          ((∃ y, cx.Refuses types front' v y) → owner = owner' ∧ m = exact)) ∧
      ∀ {τ : Type} {cx' : BodyScope τ} {s' : Session τ}, cx.names.Bounded v →
        cx'.names.Bounded s' → s'.Loaded cls → (∀ a ∈ types, v.LoadedIn a ∧ s'.LoadedIn a) →
        v.symbols.Rearranges s'.symbols types name.name → ∀ static, ∃ t',
          (cx'.callOn name types cls static).run.run s' =
            (.ok (m.ret, some (.method owner m.isStatic m.descriptor)), t') := by
  obtain ⟨name, types, cls, static, ret, u, hcalls, hcall⟩ := callOn_of_operand hcall hrun hrefers
  obtain ⟨_, m, ps, v, x, hfind, hselect, -, heq⟩ := select_of_callOn hcall
  cases heq
  obtain ⟨front, behind, w, rfl, hfront, htakes⟩ := refuses_of_select hselect
  have hsymbols : v.symbols.findMethods cls name.name = front ++ (owner, m) :: behind := by
    obtain ⟨chain, v', -, hget⟩ := of_run_bind hfind
    obtain ⟨hfound, rfl⟩ := Prod.mk.inj hget
    exact Except.ok.inj hfound
  refine ⟨name, types, cls, u, m, front, behind, v, w, x, hcalls, rfl, rfl, hfind, hsymbols,
    hfront, htakes, fun front' behind' owner' exact hsame hexact => ?_,
    fun {τ cx' s'} hcx hcx' hcls hargs hsame static => ?_⟩
  · obtain ⟨hle, hfirst⟩ := hfront.exact_not_before htakes hsame hexact
    exact ⟨hle, fun ⟨y, hy⟩ => Prod.mk.inj (hfirst y hy)⟩
  · have hhead : (v.symbols.takers types cls name.name).head? = some (owner, m) := by
      have hall := run_select hcx (fun a ha => (hargs a ha).1) (front ++ (owner, m) :: behind)
      rw [hselect] at hall
      unfold SymbolTable.takers
      rw [hsymbols]
      exact ((Except.ok.inj (Prod.mk.inj hall).1)).symm
    obtain ⟨rest, htakers⟩ := List.head?_eq_some_iff.mp hhead
    have htakers' : s'.symbols.takers types cls name.name = (owner, m) :: rest := by
      rw [hsame.takers_eq, htakers]
    exact run_callOn hcx' hcls (fun a ha => (hargs a ha).2) htakers' static

end BodyScope

/-- A session that knows a class with some methods. -/
def methodSession (methods : List MethodSig) : Session Unit where
  options := {}
  files := ⟨[], ""⟩
  store := .inMemory none
  listener := none
  state := ()
  symbols := SymbolTable.builtins ++ [("A", { (libraryClass "A" objectName).2 with methods })]

/-- A method of one parameter that gives back nothing. -/
def unaryMethod (param : Ty) : MethodSig :=
  ⟨"f", [param], .void, false⟩

/-- A scope in the class. -/
def methodScope : BodyScope Unit where
  names := { smallScope with classes := ["A"] }
  isStatic := false
  locals := []

/-- A call of the method with an `int`. -/
def unaryCall : Expr :=
  .call ⟨.none, none, none⟩ ⟨"f", .none⟩ [.literal ⟨.none, none, none⟩ (.int 1)]

theorem loaded_methodSession (methods : List MethodSig) :
    (methodSession methods).Loaded "A" := by
  have hsupers : (methodSession methods).symbols.supertypes "A" = ["A", objectName] := rfl
  intro sup hsup
  rw [hsupers] at hsup
  simp only [List.mem_cons, List.not_mem_nil, or_false] at hsup
  rcases hsup with rfl | rfl
  · exact .inl ⟨_, rfl, rfl⟩
  · exact .inl ⟨_, rfl, rfl⟩

theorem bounded_methodSession (methods : List MethodSig) :
    methodScope.names.Bounded (methodSession methods) :=
  ⟨10, 0, rfl, by simp [methodSession, SymbolTable.builtins]⟩

theorem loadedIn_methodSession (methods : List MethodSig) :
    ∀ a ∈ [Ty.int], (methodSession methods).LoadedIn a := by
  simp [Session.LoadedIn, Ty.class?]

theorem find?_methodSession (methods : List MethodSig) (cls : String) :
    (methodSession methods).symbols.find? cls =
      (SymbolTable.builtins.find? cls).or
        (if cls = "A" then some { (libraryClass "A" objectName).2 with methods } else none) := by
  show Table.find? (SymbolTable.builtins ++ [("A", _)]) cls = _
  rw [Table.find?_append, Table.find?_cons, Table.find?_nil]

theorem rearranges_methodSession :
    (methodSession [unaryMethod .int, unaryMethod .object]).symbols.Rearranges
      (methodSession [unaryMethod .object, unaryMethod .int]).symbols [.int] "f" where
  superclass cls := by
    unfold SymbolTable.superclass?
    rw [find?_methodSession, find?_methodSession]
    cases SymbolTable.builtins.find? cls with
    | some c => rfl
    | none => split <;> rfl
  has cls := by
    unfold Table.has
    rw [find?_methodSession, find?_methodSession]
    cases SymbolTable.builtins.find? cls with
    | some c => rfl
    | none => split <;> rfl
  methods {cls c c'} hc hc' := by
    rw [find?_methodSession] at hc hc'
    cases hbuiltin : SymbolTable.builtins.find? cls with
    | some b =>
        rw [hbuiltin, Option.some_or] at hc hc'
        rw [← Option.some.inj hc, ← Option.some.inj hc']
    | none =>
        rw [hbuiltin, Option.none_or] at hc hc'
        by_cases hcls : cls = "A"
        · have hint {t : SymbolTable} : ¬ t.Fits .int .object := nofun
          rw [if_pos hcls] at hc hc'
          cases hc
          cases hc'
          simp [unaryMethod, hint, SymbolTable.Fits.refl]
        · rw [if_neg hcls] at hc
          cases hc

/-- A call keeps its meaning when a method that does not take its argument comes first. -/
theorem BodyScope.operand_calls_first_rearranged :
    ∃ t, (methodScope.callOn ⟨"f", .none⟩ [.int] "A" false).run.run
        (methodSession [unaryMethod .object, unaryMethod .int]) =
      (.ok (.void, some (.method "A" false "(I)V")), t) := by
  obtain ⟨⟨o, e⟩, hrun⟩ := of_isOk (m := methodScope.operand unaryCall)
    (s := methodSession [unaryMethod .int, unaryMethod .object]) (by decide +kernel)
  have hrefers : e.note.refers = some (.method "A" false "(I)V") := by
    have hall : ((methodScope.operand unaryCall).run.run
        (methodSession [unaryMethod .int, unaryMethod .object])).1.toOption.map
          (fun r => r.2.note.refers) = some (some (.method "A" false "(I)V")) := by decide +kernel
    rw [hrun] at hall
    exact Option.some.inj hall
  obtain ⟨name, types, cls, u, m, front, behind, v, w, x, hcalls, hd, -, hfind, hmethods, -, -, -,
    hsame⟩ := operand_calls_first (.inl ⟨_, _, _, rfl⟩) hrun hrefers
  have hfound {name : String} {ps : List (String × MethodSig)} {t : Session Unit}
      (h : (methodScope.findMethods "A" name).run.run
        (methodSession [unaryMethod .int, unaryMethod .object]) = (.ok ps, t)) :
      t = methodSession [unaryMethod .int, unaryMethod .object] := by
    rw [run_findMethods (bounded_methodSession _) (loaded_methodSession _)] at h
    exact (Prod.mk.inj h).2.symm
  cases hcalls with
  | call hvalues hcls =>
      cases hvalues
      cases hcls with
      | outer _ houter => cases houter
      | here hfind' =>
          obtain rfl := hfound hfind'
          obtain rfl := hfound hfind
          obtain ⟨t, ht⟩ := hsame (bounded_methodSession _) (bounded_methodSession _)
            (loaded_methodSession _)
            (fun a ha => ⟨loadedIn_methodSession _ a ha, loadedIn_methodSession _ a ha⟩)
            rearranges_methodSession false
          have hmem : ("A", m) ∈ [("A", unaryMethod .int), ("A", unaryMethod .object)] := by
            have hall : (methodSession [unaryMethod .int, unaryMethod .object]).symbols.findMethods
                "A" "f" = [("A", unaryMethod .int), ("A", unaryMethod .object)] := by decide +kernel
            rw [← hall, hmethods]
            exact List.mem_append_right _ (List.mem_cons_self ..)
          simp only [List.mem_cons, List.not_mem_nil, or_false, Prod.mk.injEq, true_and] at hmem
          rcases hmem with rfl | rfl
          · exact ⟨t, ht⟩
          · exact absurd hd (by decide)

/-- The session at the end of the task that compiles a text. -/
def textSession (text : String) : Session Unit :=
  let unit : CompilationUnit := ⟨"A", .source, "A", .text text⟩
  let task : CompilationTask Unit := { options := {}, units := [unit] }
  (task.call (task.session ⟨[], ""⟩ (.inMemory none) ())).2

/-- What the expressions in the methods of the units of a session are, in the order in which they are
evaluated: their types, and what they refer to. -/
def Session.meanings (s : Session σ) : List (Option Ty × Option Referent) :=
  (s.sources.flatMap fun e => e.tree.types.flatMap fun c => c.methods.flatMap fun m =>
    Stmt.evaluatedAll m.body.body).map fun x => (x.note.ty, x.note.refers)

/-- A class with two methods of a name, one of which is called with an `int`. -/
def longBeforeInt : String :=
  "class A { void f(long x) {} void f(int x) {} void m() { f(1); } }"

/-- The same class with the two methods the other way around. -/
def intBeforeLong : String :=
  "class A { void f(int x) {} void f(long x) {} void m() { f(1); } }"

/-- An exact match is not called behind a method that takes the arguments as well, so it matters in
which order the two are declared. -/
theorem not_calls_exact :
    (textSession longBeforeInt).log.Clean ∧
    (textSession longBeforeInt).symbols.findMethods "A" "f" =
      [("A", unaryMethod .long), ("A", unaryMethod .int)] ∧
    (textSession longBeforeInt).meanings =
      [(some .void, some (.method "A" false "(J)V")), (some .int, none)] ∧
    (textSession intBeforeLong).log.Clean ∧
    (textSession intBeforeLong).meanings =
      [(some .void, some (.method "A" false "(I)V")), (some .int, none)] := by
  decide +kernel

end ProbeLang
