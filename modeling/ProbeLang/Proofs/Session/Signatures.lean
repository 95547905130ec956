import ProbeLang.Proofs.Related
import ProbeLang.Proofs.Table
import ProbeLang.Proofs.Tree.Declared

/-!
# Signatures of classes

What a completed class says of its members agrees with its declaration: the names come in the order of
the declaration (`ClassSymbol.Signs`), and every type is one that its type name may stand for
(`ClassSymbol.Written`), as a name stands for one of the classes that are known.
-/

namespace ProbeLang

/-! ## Known types -/

/-- Whether a type is not the unknown type and not an array of it. -/
def Ty.Known : Ty → Prop
  | .unknown => False
  | .array elem => elem.Known
  | _ => True

theorem Ty.Known.ne_unknown {ty : Ty} (h : ty.Known) : ty ≠ .unknown := by
  rintro rfl
  exact h

/-- Whether all types of the members of a class are known. -/
structure ClassSymbol.Known (c : ClassSymbol) : Prop where
  fields : ∀ f ∈ c.fields, f.ty.Known
  params : ∀ m ∈ c.methods, ∀ p ∈ m.params, p.Known
  methods : ∀ m ∈ c.methods, m.ret.Known

/-- Whether a class is as a built-in class. -/
structure ClassSymbol.Builtin (name : String) (c : ClassSymbol) : Prop where
  named : c.binary = name
  origin : c.origin = .builtin
  completed : c.completed = true
  known : c.Known

theorem SymbolTable.builtin_of_find? {name : String} {c : ClassSymbol}
    (h : builtins.find? name = some c) : c.Builtin name := by
  have hmem := Table.mem_of_find? h
  simp only [builtins, List.mem_cons, Prod.mk.injEq, List.not_mem_nil, or_false] at hmem
  rcases hmem with ⟨rfl, rfl⟩ | ⟨rfl, rfl⟩ | ⟨rfl, rfl⟩ <;>
    exact ⟨rfl, rfl, rfl, by simp [ClassSymbol.ofBuiltin], by
      simp [ClassSymbol.ofBuiltin, Ty.Known, Ty.object, Ty.string], by
      simp [ClassSymbol.ofBuiltin, Ty.Known, Ty.object, Ty.string]⟩

theorem Ty.known_repeat_array {ty : Ty} (h : ty.Known) (dims : Nat) :
    (Nat.repeat .array dims ty).Known := by
  induction dims with
  | zero => exact h
  | succ dims ih => exact ih

/-! ## Types as they are written -/

/-- Whether a type is one that a name without brackets may stand for. -/
def TypeName.Denotes (symbols : SymbolTable) : TypeName → Ty → Prop
  | .void, ty => ty = .void
  | .int, ty => ty = .int
  | .long, ty => ty = .long
  | .boolean, ty => ty = .boolean
  | .named _, ty => ∃ cls, ty = .cls cls ∧ symbols.has cls = true

/-- Whether a type is one that a type as written may stand for. -/
def TypeRef.Denotes (symbols : SymbolTable) (t : TypeRef) (ty : Ty) : Prop :=
  ∃ base, t.base.Denotes symbols base ∧ ty = Nat.repeat .array t.dims base

namespace TypeRef.Denotes

variable {symbols symbols' : SymbolTable} {t : TypeRef} {ty : Ty}

theorem mono (h : t.Denotes symbols ty)
    (hsymbols : ∀ {name}, symbols.has name = true → symbols'.has name = true) :
    t.Denotes symbols' ty := by
  obtain ⟨base, hbase, hty⟩ := h
  refine ⟨base, ?_, hty⟩
  cases hname : t.base with
  | named path =>
      rw [hname] at hbase
      obtain ⟨cls, hcls, hhas⟩ := hbase
      exact ⟨cls, hcls, hsymbols hhas⟩
  | void | int | long | boolean => rwa [hname] at hbase

theorem known (h : t.Denotes symbols ty) : ty.Known := by
  obtain ⟨base, hbase, rfl⟩ := h
  refine Ty.known_repeat_array ?_ t.dims
  cases hname : t.base with
  | named path =>
      rw [hname] at hbase
      obtain ⟨cls, rfl, -⟩ := hbase
      trivial
  | void | int | long | boolean =>
      rw [hname] at hbase
      cases hbase
      trivial

/-- A class name without brackets stands for a class. -/
theorem cls {path : Path} (h : t.Denotes symbols ty) (hbase : t.base = .named path)
    (hdims : t.dims = 0) : ∃ cls, ty = .cls cls := by
  obtain ⟨base, hdenotes, rfl⟩ := h
  rw [hbase] at hdenotes
  obtain ⟨cls, rfl, -⟩ := hdenotes
  exact ⟨cls, by rw [hdims]; rfl⟩

/-- The class that a type stands for is known. -/
theorem has_cls {cls : String} (h : t.Denotes symbols (.cls cls)) : symbols.has cls = true := by
  obtain ⟨base, hbase, hty⟩ := h
  cases hdims : t.dims with
  | zero =>
      rw [hdims] at hty
      cases hty
      cases hname : t.base with
      | named path =>
          rw [hname] at hbase
          obtain ⟨cls', hcls, hhas⟩ := hbase
          cases hcls
          exact hhas
      | void | int | long | boolean =>
          rw [hname] at hbase
          cases hbase
  | succ dims =>
      rw [hdims] at hty
      cases hty

end TypeRef.Denotes

/-! ## Signatures -/

/-- Whether the signatures of a class are those of its declaration, apart from types. -/
structure ClassSymbol.Signs (c : ClassSymbol) (decl : ClassDecl) : Prop where
  fields : c.fields.map (fun f => (f.name, f.isStatic)) =
    decl.fields.map fun f => (f.name.name, f.modifiers.has .isStatic)
  methods : c.methods.map (fun m => (m.name, m.params.length, m.isStatic)) =
    decl.methods.map fun m => (m.name.name, m.params.length, m.modifiers.has .isStatic)

theorem ClassSymbol.Signs.length_methods {c : ClassSymbol} {decl : ClassDecl} (h : c.Signs decl) :
    c.methods.length = decl.methods.length := by
  have hlength := congrArg List.length h.methods
  rwa [List.length_map, List.length_map] at hlength

/-- Whether the signature of a field is what its declaration says. -/
structure FieldSig.Written (symbols : SymbolTable) (sig : FieldSig) (f : FieldDecl) : Prop where
  name : sig.name = f.name.name
  static : sig.isStatic = f.modifiers.has .isStatic
  type : f.type.Denotes symbols sig.ty

/-- Whether the signature of a method is what its declaration says. -/
structure MethodSig.Written (symbols : SymbolTable) (sig : MethodSig) (m : MethodDecl) : Prop where
  name : sig.name = m.name.name
  static : sig.isStatic = m.modifiers.has .isStatic
  ret : m.ret.Denotes symbols sig.ret
  params : List.Forall₂ (fun ty (p : Param) => p.type.Denotes symbols ty) sig.params m.params

/-- Whether a class has been completed with the signatures that its declaration says. -/
structure ClassSymbol.Written (symbols : SymbolTable) (c : ClassSymbol) (decl : ClassDecl) :
    Prop where
  completed : c.completed = true
  fields : List.Forall₂ (FieldSig.Written symbols) c.fields decl.fields
  methods : List.Forall₂ (MethodSig.Written symbols) c.methods decl.methods

section

variable {symbols symbols' : SymbolTable}
  (hsymbols : ∀ {name}, symbols.has name = true → symbols'.has name = true)

include hsymbols

theorem FieldSig.Written.mono {sig : FieldSig} {f : FieldDecl} (h : sig.Written symbols f) :
    sig.Written symbols' f :=
  ⟨h.name, h.static, h.type.mono hsymbols⟩

theorem MethodSig.Written.mono {sig : MethodSig} {m : MethodDecl} (h : sig.Written symbols m) :
    sig.Written symbols' m :=
  ⟨h.name, h.static, h.ret.mono hsymbols, h.params.imp fun _ _ hp => hp.mono hsymbols⟩

theorem ClassSymbol.Written.mono {c : ClassSymbol} {decl : ClassDecl} (h : c.Written symbols decl) :
    c.Written symbols' decl :=
  ⟨h.completed, h.fields.imp fun _ _ hf => hf.mono hsymbols, h.methods.imp fun _ _ hm => hm.mono hsymbols⟩

end

namespace ClassSymbol.Written

variable {symbols : SymbolTable} {c : ClassSymbol} {decl decl' : ClassDecl}

theorem signs (h : c.Written symbols decl) : c.Signs decl where
  fields := map_eq_of_forall₂ h.fields fun _ _ hf => by rw [hf.name, hf.static]
  methods := map_eq_of_forall₂ h.methods fun _ _ hm => by
    rw [hm.name, hm.static, hm.params.length_eq]

theorem known (h : c.Written symbols decl) : c.Known where
  fields f hf := by
    obtain ⟨d, -, hd⟩ := exists_of_mem_left h.fields hf
    exact hd.type.known
  params m hm p hp := by
    obtain ⟨d, -, hd⟩ := exists_of_mem_left h.methods hm
    obtain ⟨q, -, hq⟩ := exists_of_mem_left hd.params hp
    exact hq.known
  methods m hm := by
    obtain ⟨d, -, hd⟩ := exists_of_mem_left h.methods hm
    exact hd.ret.known

/-- The code of a class has no part in what its signatures are. -/
theorem of_skeleton (h : c.Written symbols decl) (hskeleton : decl'.skeleton = decl.skeleton) :
    c.Written symbols decl' := by
  refine ⟨h.completed, ?_, ?_⟩
  · have hfields : List.Forall₂ (FieldSig.Written symbols) c.fields
        (decl.fields.map FieldDecl.skeleton) :=
      List.forall₂_map_right_iff.mpr (h.fields.imp fun _ _ hf => ⟨hf.name, hf.static, hf.type⟩)
    rw [← ClassDecl.fields_skeleton, ← hskeleton, ClassDecl.fields_skeleton] at hfields
    exact (List.forall₂_map_right_iff.mp hfields).imp
      fun _ _ hf => ⟨hf.name, hf.static, hf.type⟩
  · have hmethods : List.Forall₂ (MethodSig.Written symbols) c.methods
        (decl.methods.map MethodDecl.skeleton) :=
      List.forall₂_map_right_iff.mpr
        (h.methods.imp fun _ _ hm => ⟨hm.name, hm.static, hm.ret, hm.params⟩)
    rw [← ClassDecl.methods_skeleton, ← hskeleton, ClassDecl.methods_skeleton] at hmethods
    exact (List.forall₂_map_right_iff.mp hmethods).imp
      fun _ _ hm => ⟨hm.name, hm.static, hm.ret, hm.params⟩

end ClassSymbol.Written

/-- Whether a class has no members before it has a superclass, which then is the root or is known. -/
structure ClassSymbol.Staged (symbols : SymbolTable) (c : ClassSymbol) : Prop where
  members : c.superclass = none → c.fields = [] ∧ c.methods = []
  superclass : ∀ sup, c.superclass = some sup → sup = objectName ∨ symbols.has sup = true

theorem ClassSymbol.Staged.mono {symbols symbols' : SymbolTable} {c : ClassSymbol}
    (h : c.Staged symbols)
    (hsymbols : ∀ {name}, symbols.has name = true → symbols'.has name = true) :
    c.Staged symbols' :=
  ⟨h.members, fun sup hsup => (h.superclass sup hsup).imp_right hsymbols⟩

/-- Whether two symbols tell the same of a class: where it stands, and what its members are. -/
structure ClassSymbol.Agrees (c c' : ClassSymbol) : Prop where
  binary : c.binary = c'.binary
  superclass : c.superclass = c'.superclass
  outer : c.outer = c'.outer
  deprecated : c.deprecated = c'.deprecated
  fields : c.fields = c'.fields
  methods : c.methods = c'.methods

@[refl] theorem ClassSymbol.Agrees.refl (c : ClassSymbol) : c.Agrees c :=
  ⟨rfl, rfl, rfl, rfl, rfl, rfl⟩

end ProbeLang
