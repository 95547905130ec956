import Mathlib.Data.List.Nodup
import ProbeLang.Proofs.Tree.ReadBack.Stmt

/-!
# Reading declarations back

Annotations, modifiers, fields, methods and classes are read back as they were, if the values of
annotation arguments that are assignments are printed in parentheses. A class is read behind its
modifiers, so it is known to be read back for modifiers that have been read back before.
-/

namespace ProbeLang

open Bare

/-! ## What it is to be read back -/

/-- Whether a formal parameter could have been read. -/
structure Param.Readable (p : Param) : Prop where
  type : p.type.Readable
  name : Identifier p.name.name

/-- Whether an argument of an annotation is read back. -/
def AnnotationArg.ReadBack : AnnotationArg → Prop
  | .named name e => Identifier name.name ∧ e.ReadBack
  | .value e => e.ReadBack

/-- Whether an annotation is read back. -/
structure Annotation.ReadBack (a : Annotation) : Prop where
  name : a.name.Readable
  args : ∀ arg ∈ a.args, arg.ReadBack

/-- Whether modifiers are read back. -/
structure Modifiers.ReadBack (m : Modifiers) : Prop where
  annotations : ∀ a ∈ m.annotations, a.ReadBack
  flags : m.flags.Nodup

/-- Whether a field is read back. -/
structure FieldDecl.ReadBack (f : FieldDecl) : Prop where
  modifiers : f.modifiers.ReadBack
  type : f.type.Readable
  base : f.type.base ≠ .void
  name : Identifier f.name.name
  init : ∀ e ∈ f.init, e.ReadBack

/-- Whether a method is read back. -/
structure MethodDecl.ReadBack (m : MethodDecl) : Prop where
  modifiers : m.modifiers.ReadBack
  ret : m.ret.Readable
  name : Identifier m.name.name
  params : ∀ p ∈ m.params, p.Readable
  body : ∀ s ∈ m.body.body, ∃ next, s.ReadBack next

namespace Parse

variable {K : Kinds} {fuel : Nat}

/-! ## Parameters -/

theorem legible_param {p : Param} (h : p.Readable) : ∀ w ∈ p.print, w.Legible :=
  List.forall_mem_append.mpr
    ⟨h.type.legible, List.forall_mem_singleton.mpr (legible_ident h.name)⟩

/-- Read a parameter. -/
def param (fuel : Nat) : Parse Param := do
  let t ← type fuel
  let name ← ident
  return ⟨t, name⟩

theorem lists_params : Lists params param := by
  intro fuel done
  rw [params]
  simp only [param, bind_assoc, pure_bind]

theorem takes_param {p : Param} (h : p.Readable) (hfuel : 4 * p.print.length ≤ fuel) :
    Takes (param fuel) p.print ends fun p' => p'.placeless = p.placeless := by
  rw [Param.print, List.length_append] at hfuel
  refine (takes_type h.type (by omega)).bind rfl fun t ht => .ident fun pos => .pure ?_
  simp [Param.placeless, Ident.placeless, ht]

theorem takes_params {ps : List Param} (h : ∀ p ∈ ps, p.Readable)
    (hfuel : 4 * (listed (ps.map Param.print)).length ≤ fuel) :
    Takes (params fuel []) (listed (ps.map Param.print)) K
      fun ps' => ps'.map Param.placeless = ps.map Param.placeless :=
  takes_listed lists_params rfl (fun p _ => p.type.begins_print.append)
    (fun p hp => takes_param (h p hp)) (by omega)

/-! ## Annotations -/

/-- Read an argument of an annotation. -/
def annotationArg (fuel : Nat) : Parse AnnotationArg := do
  let s ← get
  if s.current.kind = .identifier ∧ s.nextKind = .assign then
    let name ← ident
    let _ ← expect .assign
    return .named name (← binary fuel 0)
  else
    return .value (← binary fuel 0)

theorem lists_annotationArgs : Lists annotationArgs annotationArg := by
  intro fuel done
  rw [annotationArgs]
  simp only [annotationArg, bind_assoc, pure_bind]
  congr 1
  funext closed
  split
  · rfl
  · congr 1
    funext s
    split
    · simp only [bind_assoc, pure_bind]
    · simp only [bind_assoc, pure_bind]

theorem legible_printValue {e : Expr} (he : e.ReadBack) : ∀ w ∈ e.printValue, w.Legible := by
  cases e with
  | assign => exact legible_enclosed he.legible
  | _ => exact he.legible

/-- A value is taken as an operand, being no assignment or in parentheses. -/
theorem takes_value {e : Expr} (he : e.ReadBack) (hfuel : 4 * e.printValue.length ≤ fuel + 1) :
    Takes (binary fuel 0) e.printValue ends e.Like := by
  cases e with
  | assign => exact (takes_binary_enclosed he hfuel).mono (ends_of rfl) fun _ h => h
  | _ => exact he.binary rfl hfuel

/-- What a value begins with, and what follows if that is an identifier. -/
theorem head_printValue (e : Expr) : ∃ w ws, e.printValue = w :: ws ∧ w.kind ∈ Expr.heads ∧
    (w.kind = .identifier → ws = [] ∨ ∃ vs, ws = sign .openParen :: vs) := by
  cases e with
  | assign => exact ⟨_, _, rfl, by decide, nofun⟩
  | _ => exact Expr.head_print _

theorem begins_printArg (a : AnnotationArg) :
    Begins Expr.heads (a.print Expr.printValue) := by
  cases a with
  | named name e => exact ⟨_, _, rfl, List.mem_cons_self⟩
  | value e =>
      obtain ⟨w, ws, hprint, hkind, -⟩ := head_printValue e
      exact ⟨w, ws, hprint, hkind⟩

theorem takes_annotationArg {a : AnnotationArg} (h : a.ReadBack)
    (hfuel : 4 * (a.print Expr.printValue).length ≤ fuel) :
    Takes (annotationArg fuel) (a.print Expr.printValue) ends
      fun a' => a'.placeless = a.placeless := by
  refine .get fun s k hs hk => ?_
  cases a with
  | named name e =>
      simp only [AnnotationArg.print, List.length_cons] at hfuel
      rw [if_pos ⟨hs.kind_eq, hs.nextKind_eq⟩]
      refine .ident fun pos => .expect rfl fun _ _ => ?_
      refine (takes_value h.2 (by omega)).bind_last (fun _ h => h) fun e' he' => .pure ?_
      exact congrArg (AnnotationArg.named _) he'
  | value e =>
      rw [AnnotationArg.print] at hfuel
      -- an identifier that a value begins with stands alone or is called, so no `=` is behind it
      have hvalue : ¬ (s.current.kind = .identifier ∧ s.nextKind = .assign) := by
        rintro ⟨hident, hassign⟩
        obtain ⟨w, ws, hprint, -, hnext⟩ := head_printValue e
        rw [AnnotationArg.print, hprint] at hs
        obtain ⟨j, hj, hrest⟩ := hs.rest
        have hkind : j.current.kind = .assign := by
          rw [← hassign, TokenStream.nextKind, hrest]
        rcases hnext (hs.kind_eq.symm.trans hident) with rfl | ⟨vs, rfl⟩
        · cases hj
          rw [hkind] at hk
          cases hk
        · rw [hj.kind_eq] at hkind
          cases hkind
      rw [if_neg hvalue]
      refine (takes_value h (by omega)).bind_last (fun _ h => h) fun e' he' => .pure ?_
      exact congrArg AnnotationArg.value he'

theorem legible_annotation {a : Annotation} (h : a.ReadBack) :
    ∀ w ∈ a.print Expr.printValue, w.Legible := by
  simp only [List.forall_mem_cons, List.forall_mem_append, Annotation.print]
  refine ⟨legible_sign rfl, h.name.legible, legible_sign rfl, legible_listed ?_⟩
  refine List.forall_mem_map.mpr fun arg harg => ?_
  have hread := h.args arg harg
  cases arg with
  | named name e => exact List.forall_mem_cons.mpr ⟨legible_ident hread.1,
      List.forall_mem_cons.mpr ⟨legible_sign rfl, legible_printValue hread.2⟩⟩
  | value e => exact legible_printValue hread

theorem takes_annotation {a : Annotation} (h : a.ReadBack)
    (hfuel : 4 * (a.print Expr.printValue).length ≤ fuel) :
    Takes ( annotation fuel) (a.print Expr.printValue) K fun a' => a'.placeless = a.placeless := by
  simp only [List.length_cons, List.length_append, Annotation.print] at hfuel
  refine .expect rfl fun t _ => (takes_path h.name (by omega)).bind rfl fun name hname => ?_
  refine .accept rfl ?_
  have hargs : Takes (annotationArgs fuel [])
      (listed (a.args.map (AnnotationArg.print Expr.printValue))) K
      fun args => args.map AnnotationArg.placeless = a.args.map AnnotationArg.placeless :=
    takes_listed lists_annotationArgs rfl (fun arg _ => begins_printArg arg)
      (fun arg harg => takes_annotationArg (h.args arg harg)) (by omega)
  refine hargs.bind_last (fun _ h => h) fun args hargs => .pure ?_
  simp [hname, hargs, Annotation.placeless]

/-! ## Modifiers -/

/-- Whether a kind of token is no part of modifiers. -/
def notModifier : Kinds := fun kind => kind != .at && (modifier? kind).isNone

theorem modifier?_kind (flag : Modifier) : modifier? flag.kind = some flag := by
  cases flag <;> rfl

/-- A modifier word that stands once is not refused as repeated. -/
theorem takes_flags : ∀ {flags done : List Modifier} {as : List Annotation} {fuel : Nat},
    (done.reverse ++ flags).Nodup → flags.length < fuel →
    Takes (modifiersRest fuel as done) (flags.map fun flag => sign flag.kind) notModifier
      (· = ⟨as.reverse, done.reverse ++ flags⟩) := by
  intro flags
  induction flags with
  | nil =>
      intro done as fuel _ hfuel
      obtain ⟨fuel, rfl⟩ : ∃ n, fuel = n + 1 := ⟨fuel - 1, by simp at hfuel; omega⟩
      rw [modifiersRest]
      have hends : Admits [] notModifier notModifier := fun _ h => h
      refine .peek_kind hends fun t ht => ?_
      obtain ⟨hat, hnone⟩ := Bool.and_eq_true _ _ ▸ ht
      rw [if_neg (bne_iff_ne.mp hat), Option.isNone_iff_eq_none.mp hnone]
      exact .pure (by rw [List.append_nil])
  | cons flag flags ih =>
      intro done as fuel hnodup hfuel
      obtain ⟨fuel, rfl⟩ : ∃ n, fuel = n + 1 := ⟨fuel - 1, by simp at hfuel; omega⟩
      rw [modifiersRest]
      refine .peek fun t ht => ?_
      have hkind : t.kind = flag.kind := congrArg Bare.kind ht
      have hat : ¬ flag.kind = .at := by cases flag <;> nofun
      rw [hkind, if_neg hat, modifier?_kind]
      refine .advance fun _ _ => ?_
      have hnew : ¬ done.contains flag = true := by
        intro hmem
        have hdone : flag ∈ done.reverse := List.mem_reverse.mpr (List.contains_iff_mem.mp hmem)
        exact (List.nodup_append.mp hnodup).2.2 flag hdone flag List.mem_cons_self rfl
      rw [if_neg hnew]
      have hrest := @ih (flag :: done) as fuel (by simpa using hnodup) (by simpa using hfuel)
      refine hrest.mono (fun _ h => h) ?_
      rintro _ rfl
      simp

theorem legible_modifiers {m : Modifiers} (h : m.ReadBack) :
    ∀ w ∈ m.print Expr.printValue, w.Legible := by
  refine List.forall_mem_append.mpr ⟨List.forall_mem_flatMap.mpr fun a ha =>
    legible_annotation (h.annotations a ha), List.forall_mem_map.mpr fun flag _ => ?_⟩
  cases flag <;> exact legible_sign rfl

/-- The annotations are taken first, by induction on them, and the words behind them. -/
theorem takes_modifiersRest {flags : List Modifier} (hflags : flags.Nodup) :
    ∀ {as done : List Annotation} {fuel : Nat}, (∀ a ∈ as, a.ReadBack) →
    4 * ((⟨as, flags⟩ : Modifiers).print Expr.printValue).length < fuel →
    Takes (modifiersRest fuel done []) ((⟨as, flags⟩ : Modifiers).print Expr.printValue) notModifier
      fun m => m.placeless = ⟨(done.reverse ++ as).map Annotation.placeless, flags⟩ := by
  intro as
  induction as with
  | nil =>
      intro done fuel _ hfuel
      simp only [Modifiers.print, List.flatMap_nil, List.nil_append, List.length_map] at hfuel ⊢
      refine (takes_flags (by simpa using hflags) (by omega)).mono (fun _ h => h) ?_
      rintro _ rfl
      simp [Modifiers.placeless]
  | cons a as ih =>
      intro done fuel h hfuel
      obtain ⟨ha, has⟩ := List.forall_mem_cons.mp h
      simp only [Modifiers.print, List.flatMap_cons, List.append_assoc,
        List.length_append] at hfuel ⊢
      obtain ⟨fuel, rfl⟩ : ∃ n, fuel = n + 1 := ⟨fuel - 1, by omega⟩
      have hlength : 0 < (a.print Expr.printValue).length := Nat.succ_pos _
      rw [modifiersRest]
      refine .peek fun t ht => ?_
      have hkind : t.kind = .at := congrArg Bare.kind ht
      rw [if_pos hkind]
      refine ( takes_annotation ha (by omega)).bind_any fun a' ha' => ?_
      have hrest := @ih (a' :: done) fuel has (by
        simp only [Modifiers.print, List.length_append]
        omega)
      refine hrest.mono (fun _ h => h) fun m hm => ?_
      rw [hm]
      simp [ha']

theorem takes_modifiers {m : Modifiers} (h : m.ReadBack)
    (hfuel : 4 * (m.print Expr.printValue).length < fuel) :
    Takes (modifiers fuel) (m.print Expr.printValue) notModifier
      fun m' => m'.placeless = m.placeless :=
  takes_modifiersRest h.flags h.annotations hfuel

/-! ## Fields and methods -/

theorem legible_field {f : FieldDecl} (h : f.ReadBack) : ∀ w ∈ f.printRest, w.Legible :=
  List.forall_mem_append.mpr ⟨h.type.legible, List.forall_mem_cons.mpr ⟨legible_ident h.name,
    List.forall_mem_append.mpr ⟨legible_init h.init,
      List.forall_mem_singleton.mpr (legible_sign rfl)⟩⟩⟩

theorem takes_field {f : FieldDecl} {mods : Modifiers} (h : f.ReadBack)
    (hmods : mods.placeless = f.modifiers.placeless) (hfuel : 4 * f.printRest.length ≤ fuel + 1) :
    Takes (fieldOrMethod fuel mods) f.printRest K
      fun m => m.placeless = (Member.field f).placeless := by
  simp only [FieldDecl.printRest, List.length_append, List.length_cons] at hfuel
  refine (takes_type h.type (by omega)).bind rfl fun t ht => .ident fun pos => ?_
  have hparen : Admits (printInit f.init ++ [sign .semicolon]) K (· != .openParen) := by
    cases f.init <;> rfl
  refine .reject hparen ?_
  rw [if_neg Bool.false_ne_true, if_neg (base_ne_void ht h.base)]
  refine (takes_initialiser h.init (by omega)).bind rfl fun init hinit => .expect rfl fun _ _ => ?_
  refine .pure ?_
  simp [Member.placeless, FieldDecl.placeless, Ident.placeless, hmods, ht, hinit]

theorem legible_method {m : MethodDecl} (h : m.ReadBack) : ∀ w ∈ m.printRest, w.Legible := by
  have hparams : ∀ w ∈ listed (m.params.map Param.print), w.Legible :=
    legible_listed (List.forall_mem_map.mpr fun p hp => legible_param (h.params p hp))
  simp only [MethodDecl.printRest, List.forall_mem_append, List.forall_mem_cons]
  exact ⟨h.ret.legible, legible_ident h.name, legible_sign rfl, hparams,
    legible_braced (legible_stmts h.body)⟩

theorem takes_method {m : MethodDecl} {mods : Modifiers} (h : m.ReadBack)
    (hmods : mods.placeless = m.modifiers.placeless) (hfuel : 4 * m.printRest.length ≤ fuel + 1) :
    Takes (fieldOrMethod fuel mods) m.printRest K
      fun m' => m'.placeless = (Member.method m).placeless := by
  simp only [MethodDecl.printRest, List.length_append, List.length_cons] at hfuel
  refine (takes_type h.ret (by omega)).bind rfl fun t ht => .ident fun pos => .accept rfl ?_
  rw [if_pos rfl]
  refine (takes_params h.params (by omega)).bind_any fun ps hps => ?_
  refine (takes_block h.body (by omega)).bind_last (fun _ h => h) fun body hbody => .pure ?_
  simp [Member.placeless, MethodDecl.placeless, Ident.placeless, Block.placeless, hmods, ht, hps,
    hbody]

/-! ## Members -/

end Parse

/-- Whether a class is read back behind its modifiers. -/
structure ClassDecl.ReadBack (c : ClassDecl) : Prop where
  modifiers : c.modifiers.ReadBack
  legible : ∀ w ∈ c.printRest Expr.printValue, w.Legible
  classDecl : ∀ {fuel : Nat} {mods : Modifiers} {K : Parse.Kinds},
    mods.placeless = c.modifiers.placeless → 4 * (c.printRest Expr.printValue).length ≤ fuel + 1 →
    Parse.Takes (Parse.classDecl fuel mods) (c.printRest Expr.printValue) K
      fun c' => c'.placeless = c.placeless

/-- Whether a member of a class is read back. -/
def Member.ReadBack : Member → Prop
  | .field f => f.ReadBack
  | .method m => m.ReadBack
  | .type c => c.ReadBack

section

variable {value : Expr → List Bare}

theorem ClassDecl.print_eq (c : ClassDecl) :
    c.print value = c.modifiers.print value ++ c.printRest value := by
  cases c
  rfl

theorem Member.printAll_eq_flatMap : ∀ members : List Member,
    Member.printAll value members = members.flatMap (Member.print value)
  | [] => rfl
  | .field _ :: rest | .method _ :: rest | .type _ :: rest => by
      rw [List.flatMap_cons, ← Member.printAll_eq_flatMap rest]
      rfl

theorem Member.placelessAll_eq_map : ∀ members : List Member,
    Member.placelessAll members = members.map Member.placeless
  | [] => rfl
  | .field _ :: rest | .method _ :: rest | .type _ :: rest => by
      rw [List.map_cons, ← Member.placelessAll_eq_map rest]
      rfl

/-- The kinds of token that modifiers begin with. -/
def Modifiers.heads : List Token.Kind :=
  [.at, .kwPublic, .kwPrivate, .kwProtected, .kwStatic, .kwFinal]

/-- Where there are no modifiers, what stands behind them comes first. -/
theorem Modifiers.begins_print {kinds : List Token.Kind} {rest : List Bare} (m : Modifiers)
    (h : Parse.Begins kinds rest) :
    Parse.Begins (Modifiers.heads ++ kinds) (m.print value ++ rest) := by
  obtain ⟨as, flags⟩ := m
  cases as with
  | cons a as => exact ⟨_, _, rfl, List.mem_append_left _ List.mem_cons_self⟩
  | nil =>
      cases flags with
      | cons flag flags =>
          refine ⟨_, _, rfl, List.mem_append_left _ ?_⟩
          cases flag <;> decide
      | nil => exact h.mono (List.subset_append_right _ _)

theorem FieldDecl.begins_printRest (f : FieldDecl) :
    Parse.Begins TypeName.heads f.printRest :=
  f.type.begins_print.append

theorem MethodDecl.begins_printRest (m : MethodDecl) :
    Parse.Begins TypeName.heads m.printRest :=
  m.ret.begins_print.append

/-- The kinds of token that a member of a class begins with. -/
def Member.heads : List Token.Kind :=
  Modifiers.heads ++ .kwClass :: TypeName.heads

theorem ClassDecl.begins_print (c : ClassDecl) : Parse.Begins Member.heads (c.print value) := by
  rw [c.print_eq]
  exact c.modifiers.begins_print ⟨_, _, rfl, List.mem_cons_self⟩

theorem Member.begins_print (m : Member) : Parse.Begins Member.heads (m.print value) := by
  have hsub : TypeName.heads ⊆ .kwClass :: TypeName.heads := List.subset_cons_self _ _
  cases m with
  | field f => exact f.modifiers.begins_print (f.begins_printRest.mono hsub)
  | method m => exact m.modifiers.begins_print (m.begins_printRest.mono hsub)
  | type c => exact c.begins_print

end

namespace Parse

variable {K : Kinds} {fuel : Nat}

theorem legible_member {m : Member} (h : m.ReadBack) :
    ∀ w ∈ m.print Expr.printValue, w.Legible := by
  cases m with
  | field f =>
      have hfield : f.ReadBack := h
      exact List.forall_mem_append.mpr ⟨legible_modifiers hfield.modifiers, legible_field hfield⟩
  | method m =>
      have hmethod : m.ReadBack := h
      exact List.forall_mem_append.mpr ⟨legible_modifiers hmethod.modifiers, legible_method hmethod⟩
  | type c =>
      have hclass : c.ReadBack := h
      rw [Member.print, c.print_eq]
      exact List.forall_mem_append.mpr ⟨legible_modifiers hclass.modifiers, hclass.legible⟩

/-- What begins with a type is read as a field or a method. -/
theorem takes_member_typed {mods : Modifiers} {rest : List Bare} {Q : Member → Prop}
    (hmodifiers : mods.ReadBack) (hhead : Begins TypeName.heads rest)
    (hfuel : 4 * (mods.print Expr.printValue ++ rest).length ≤ fuel + 1)
    (h : ∀ mods', mods'.placeless = mods.placeless → Takes (fieldOrMethod fuel mods') rest K Q) :
    Takes (member (fuel + 1)) (mods.print Expr.printValue ++ rest) K Q := by
  have hrest := hhead.length_pos
  rw [List.length_append] at hfuel
  rw [member]
  refine (takes_modifiers hmodifiers (by omega)).bind (hhead.admits rfl) fun mods' hmods => ?_
  exact .check_false (hhead.admits rfl) (h mods' hmods)

theorem takes_member {m : Member} (h : m.ReadBack)
    (hfuel : 4 * (m.print Expr.printValue).length ≤ fuel) :
    Takes (member fuel) (m.print Expr.printValue) K fun m' => m'.placeless = m.placeless := by
  have hlength := (@Member.begins_print Expr.printValue m).length_pos
  obtain ⟨fuel, rfl⟩ : ∃ n, fuel = n + 1 := ⟨fuel - 1, by omega⟩
  cases m with
  | field f =>
      have hfield : f.ReadBack := h
      refine takes_member_typed hfield.modifiers f.begins_printRest hfuel fun mods hmods => ?_
      simp only [Member.print, List.length_append] at hfuel
      exact takes_field hfield hmods (by omega)
  | method m =>
      have hmethod : m.ReadBack := h
      refine takes_member_typed hmethod.modifiers m.begins_printRest hfuel fun mods hmods => ?_
      simp only [Member.print, List.length_append] at hfuel
      exact takes_method hmethod hmods (by omega)
  | type c =>
      have hclass : c.ReadBack := h
      rw [member]
      simp only [Member.print, c.print_eq, List.length_append] at hfuel ⊢
      have hrest : 0 < (c.printRest Expr.printValue).length := Nat.succ_pos _
      refine (takes_modifiers hclass.modifiers (by omega)).bind rfl fun mods hmods => ?_
      refine .check_true rfl ?_
      rw [if_pos rfl]
      refine (hclass.classDecl hmods (by omega)).bind_last (fun _ h => h) fun c' hc' => .pure ?_
      exact congrArg Member.type hc'

theorem takes_membersRest {members : List Member} (h : ∀ m ∈ members, m.ReadBack)
    (hfuel : 4 * (Member.printAll Expr.printValue members).length < fuel) :
    Takes (membersRest fuel []) (Member.printAll Expr.printValue members ++ [sign .closeBrace]) K
      fun members' => Member.placelessAll members' = Member.placelessAll members := by
  simp only [Member.printAll_eq_flatMap, Member.placelessAll_eq_map] at hfuel ⊢
  have htail : Admits [sign .closeBrace] K fun _ => true := rfl
  refine takes_repeated htail rfl (fun {fuel done} => ?_) (fun m _ => m.begins_print)
    (fun m hm fuel done ws Q hfuel _ hrest => ?_) hfuel
  · rw [membersRest]
    exact .accept rfl (.pure rfl)
  · rw [membersRest]
    refine .reject (m.begins_print.append.admits rfl) ?_
    refine .check_false (m.begins_print.append.admits rfl) ?_
    refine .reject (m.begins_print.append.admits rfl) ?_
    exact (takes_member (h m hm) hfuel).bind_any hrest

theorem legible_printExtends {superclass : Option TypeRef} (h : ∀ t ∈ superclass, t.Readable) :
    ∀ w ∈ printExtends superclass, w.Legible := by
  cases superclass with
  | none => exact List.forall_mem_nil _
  | some t => exact List.forall_mem_cons.mpr ⟨legible_sign rfl, (h t rfl).legible⟩

/-- A class is read back if its members are. -/
theorem readBack_class {c : ClassDecl} (hmodifiers : c.modifiers.ReadBack)
    (hname : Identifier c.name.name) (hsuper : ∀ t ∈ c.superclass, t.Readable)
    (hmembers : ∀ m ∈ c.members, m.ReadBack) : c.ReadBack := by
  obtain ⟨name, modifiers, superclass, members, pos⟩ := c
  dsimp only at hmodifiers hname hsuper hmembers
  refine ⟨hmodifiers, ?_, fun {fuel mods K} hmods hfuel => ?_⟩
  · simp only [ClassDecl.printRest, printClass, List.forall_mem_cons, List.forall_mem_append]
    refine ⟨legible_sign rfl, legible_ident hname, legible_printExtends hsuper, legible_braced ?_⟩
    rw [Member.printAll_eq_flatMap]
    exact List.forall_mem_flatMap.mpr fun m hm => legible_member (hmembers m hm)
  · simp only [ClassDecl.printRest, printClass, braced, List.length_cons, List.length_append,
      List.length_nil] at hfuel
    obtain ⟨fuel, rfl⟩ : ∃ n, fuel = n + 1 := ⟨fuel - 1, by omega⟩
    -- with a superclass or without, the same is read from the brace on
    have hbody {superclass' : Option TypeRef}
        (hlike : superclass'.map TypeRef.placeless = superclass.map TypeRef.placeless)
        (p classPos : Pos) :
        Takes (do
          let _ ← expect .openBrace
          let members ← membersRest fuel []
          return (⟨⟨name.name, p⟩, mods, superclass', members, classPos⟩ : ClassDecl))
          (braced (Member.printAll Expr.printValue members)) K
          fun c' => c'.placeless =
            (⟨name, modifiers, superclass, members, pos⟩ : ClassDecl).placeless := by
      refine .expect rfl fun _ _ => ?_
      refine (takes_membersRest hmembers (by omega)).bind_last (fun _ h => h) fun members' h => ?_
      refine .pure ?_
      simp only [ClassDecl.placeless, Ident.placeless, hlike, h, hmods]
    rw [classDecl]
    refine .expect rfl fun t _ => .ident fun p => ?_
    cases superclass with
    | none => exact .reject rfl (hbody rfl p t.pos)
    | some superclass =>
        simp only [printExtends, List.length_cons] at hfuel
        refine .accept rfl ?_
        rw [if_pos rfl, bind_map_left]
        refine (takes_type (hsuper superclass rfl) (by omega)).bind rfl fun t' ht => ?_
        have hlike : (some t').map TypeRef.placeless = (some superclass).map TypeRef.placeless :=
          congrArg some ht
        exact hbody hlike p t.pos

/-! ## What has been read -/

theorem rereads_params (fuel : Nat) : Yields (params fuel []) fun ps => ∀ p ∈ ps, p.Readable := by
  refine yields_listed lists_params (fun _ => .fail) (fun fuel => ?_) fuel [] nofun
  refine (yields_readableType fuel).bind fun t ht => yields_ident.bind fun name hname => ?_
  exact .pure ⟨ht, hname⟩

theorem rereads_annotationArgs (fuel : Nat) :
    Yields (annotationArgs fuel []) fun args => ∀ arg ∈ args, arg.ReadBack := by
  refine yields_listed lists_annotationArgs (fun _ => .fail) (fun fuel => ?_) fuel [] nofun
  refine .skip fun s => ?_
  split
  · refine yields_ident.bind fun name hname => .skip fun _ => ?_
    exact (rereads_binary fuel 0).bind fun e he => .pure ⟨hname, he⟩
  · exact (rereads_binary fuel 0).bind fun e he => .pure he

theorem rereads_annotation (fuel : Nat) : Yields ( annotation fuel) Annotation.ReadBack := by
  refine .skip fun t => (yields_readablePath fuel).bind fun name hname => .skip fun _ => ?_
  split
  · exact (rereads_annotationArgs fuel).bind fun args hargs => .pure ⟨hname, hargs⟩
  · exact .pure ⟨hname, nofun⟩

/-- No modifier word is read twice. -/
theorem rereads_modifiersRest : ∀ (fuel : Nat) (as : List Annotation) (flags : List Modifier),
    (∀ a ∈ as, a.ReadBack) → flags.Nodup →
    Yields (modifiersRest fuel as flags) Modifiers.ReadBack
  | 0, _, _, _, _ => .fail
  | fuel + 1, as, flags, has, hflags => by
      unfold modifiersRest
      refine .skip fun t => ?_
      split
      · refine ( rereads_annotation fuel).bind fun a ha => ?_
        exact rereads_modifiersRest fuel _ _ (List.forall_mem_cons.mpr ⟨ha, has⟩) hflags
      · split
        · refine .pure ⟨fun a ha => has a (List.mem_reverse.mp ha), ?_⟩
          exact List.nodup_reverse.mpr hflags
        · next flag _ =>
            refine .skip fun _ => ?_
            split
            · exact .failAt
            · next hnew =>
                refine rereads_modifiersRest fuel _ _ has (List.nodup_cons.mpr ⟨?_, hflags⟩)
                exact fun hmem => hnew (List.contains_iff_mem.mpr hmem)

theorem rereads_modifiers (fuel : Nat) : Yields (modifiers fuel) Modifiers.ReadBack :=
  rereads_modifiersRest fuel [] [] nofun .nil

theorem rereads_fieldOrMethod (fuel : Nat) {mods : Modifiers} (hmods : mods.ReadBack) :
    Yields (fieldOrMethod fuel mods) Member.ReadBack := by
  unfold fieldOrMethod
  refine (yields_readableType fuel).bind fun t ht => yields_ident.bind fun name hname => ?_
  refine .skip fun _ => ?_
  split
  · refine (rereads_params fuel).bind fun ps hps => (rereads_block fuel).bind fun body hbody => ?_
    exact .pure (MethodDecl.ReadBack.mk hmods ht hname hps hbody)
  · split
    · exact .fail
    · next hbase =>
        refine (rereads_initialiser fuel).bind fun init hinit => .skip fun _ => .pure ?_
        exact FieldDecl.ReadBack.mk hmods ht hbase hname hinit

mutual

/-- Every class that has been read is read back. -/
theorem rereads_classDecl : ∀ (fuel : Nat) {mods : Modifiers}, mods.ReadBack →
    Yields (classDecl fuel mods) ClassDecl.ReadBack
  | 0, _, _ => .fail
  | fuel + 1, mods, hmods => by
      unfold classDecl
      refine .skip fun t => yields_ident.bind fun name hname => .skip fun extended => ?_
      have hbody {superclass : Option TypeRef} (hsuper : ∀ t ∈ superclass, t.Readable) :
          Yields (do
            let _ ← expect .openBrace
            let members ← membersRest fuel []
            return (⟨name, mods, superclass, members, t.pos⟩ : ClassDecl)) ClassDecl.ReadBack := by
        refine .skip fun _ => (rereads_membersRest fuel [] nofun).bind fun members hmembers => ?_
        exact .pure (readBack_class hmods hname hsuper hmembers)
      split
      · rw [bind_map_left]
        refine (yields_readableType fuel).bind fun superclass hsuper => hbody ?_
        rintro _ ⟨⟩
        exact hsuper
      · exact hbody nofun

theorem rereads_membersRest : ∀ (fuel : Nat) (done : List Member), (∀ m ∈ done, m.ReadBack) →
    Yields (membersRest fuel done) fun members => ∀ m ∈ members, m.ReadBack
  | 0, _, _ => .fail
  | fuel + 1, done, hdone => by
      unfold membersRest
      refine .skip fun _ => ?_
      split
      · exact .pure fun m hm => hdone m (List.mem_reverse.mp hm)
      · refine .skip fun _ => ?_
        split
        · exact .fail
        · refine .skip fun _ => ?_
          split
          · exact rereads_membersRest fuel done hdone
          · refine (rereads_member fuel).bind fun m hm => rereads_membersRest fuel _ ?_
            exact List.forall_mem_cons.mpr ⟨hm, hdone⟩

theorem rereads_member : ∀ fuel : Nat, Yields (member fuel) Member.ReadBack
  | 0 => .fail
  | fuel + 1 => by
      unfold member
      refine (rereads_modifiers fuel).bind fun mods hmods => .skip fun _ => ?_
      split
      · exact (rereads_classDecl fuel hmods).bind fun c hc => .pure hc
      · exact rereads_fieldOrMethod fuel hmods

end

end Parse

end ProbeLang
