import ProbeLang.Proofs.Code.Signatures
import ProbeLang.Proofs.Session.Replacing

/-!
# Sessions without artifacts

A session that knows its classes from source alone, with no parameter of type `void` in it, knows
what every member is: fields and parameters have values, and a method gives back a value or nothing
(`ClassSymbol.Valued`). All signatures are read back from their descriptors.

Whether a session is like that is known once it has grown to its end. A step ensures something of
such ends (`SessionM.Ensures`), and every step on the way may assume that it starts from a session
of that kind.
-/

namespace ProbeLang

open SessionM

/-! ## Types of values -/

/-- Whether a type is one of values: it is known, not `void`, and not an array of `void`. -/
def Ty.Valued : Ty → Prop
  | .void | .unknown => False
  | .array elem => elem.Valued
  | _ => True

/-- Whether a type is one of values, or says that there is none. -/
def Ty.Yielded (ty : Ty) : Prop :=
  ty = .void ∨ ty.Valued

namespace Ty.Valued

variable {ty : Ty}

theorem ne_void (h : ty.Valued) : ty ≠ .void := by
  rintro rfl
  exact h

theorem yielded (h : ty.Valued) : ty.Yielded :=
  .inr h

theorem repeat_array (h : ty.Valued) (dims : Nat) : (Nat.repeat .array dims ty).Valued := by
  induction dims with
  | zero => exact h
  | succ dims ih => exact ih

end Ty.Valued

theorem Ty.Yielded.ne_unknown {ty : Ty} (h : ty.Yielded) : ty ≠ .unknown := by
  rintro rfl
  exact h.elim nofun id

theorem Ty.Yielded.valued {ty : Ty} (h : ty.Yielded) (hty : ty ≠ .void) : ty.Valued :=
  h.resolve_left hty

theorem TypeRef.Denotes.valued {symbols : SymbolTable} {t : TypeRef} {ty : Ty}
    (h : t.Denotes symbols ty) (hbase : t.base ≠ .void) : ty.Valued := by
  obtain ⟨base, hdenotes, rfl⟩ := h
  refine Ty.Valued.repeat_array ?_ t.dims
  cases hname : t.base with
  | void => exact absurd hname hbase
  | named path =>
      rw [hname] at hdenotes
      obtain ⟨cls, rfl, -⟩ := hdenotes
      trivial
  | int | long | boolean =>
      rw [hname] at hdenotes
      cases hdenotes
      trivial

theorem TypeRef.Denotes.eq_void {symbols : SymbolTable} {t : TypeRef} {ty : Ty}
    (h : t.Denotes symbols ty) (hformed : t.Formed) (hbase : t.base = .void) : ty = .void := by
  obtain ⟨base, hdenotes, rfl⟩ := h
  rw [hbase] at hdenotes
  cases hdenotes
  rw [hformed hbase]
  rfl

theorem TypeRef.Denotes.yielded {symbols : SymbolTable} {t : TypeRef} {ty : Ty}
    (h : t.Denotes symbols ty) (hformed : t.Formed) : ty.Yielded := by
  by_cases hbase : t.base = .void
  · exact .inl (h.eq_void hformed hbase)
  · exact .inr (h.valued hbase)

/-- Whether fields and parameters of a class have values, its methods give back values or nothing,
and its signatures can be read back. -/
structure ClassSymbol.Valued (c : ClassSymbol) : Prop where
  fields : ∀ f ∈ c.fields, f.ty.Valued
  params : ∀ m ∈ c.methods, ∀ p ∈ m.params, p.Valued ∧ p.Readable
  methods : ∀ m ∈ c.methods, m.ret.Yielded ∧ m.ret.Readable

/-- Whether all parameters that are declared in a class have values. -/
def ClassDecl.ParamsValued (c : ClassDecl) : Prop :=
  ∀ m ∈ c.methods, ∀ p ∈ m.params, p.type.base ≠ .void

theorem ClassDecl.ParamsValued.of_skeleton {c c' : ClassDecl} (h : c'.ParamsValued)
    (hskeleton : c'.skeleton = c.skeleton) : c.ParamsValued := by
  intro m hm p hp
  have hmem : m.skeleton ∈ c.skeleton.methods := by
    rw [methods_skeleton]
    exact List.mem_map_of_mem hm
  rw [← hskeleton, methods_skeleton] at hmem
  obtain ⟨m', hm', heq⟩ := List.mem_map.mp hmem
  have hparams : m'.skeleton.params = m.skeleton.params := congrArg MethodDecl.params heq
  dsimp only [MethodDecl.skeleton] at hparams
  exact h m' hm' p (hparams ▸ hp)

theorem ClassSymbol.Written.valued {symbols : SymbolTable} {c : ClassSymbol} {decl : ClassDecl}
    (h : c.Written symbols decl) (hformed : decl.Formed) (hparams : decl.ParamsValued)
    (hspelled : ∀ {name}, symbols.has name = true → Spelled name) : c.Valued where
  fields f hf := by
    obtain ⟨d, hd, hwritten⟩ := exists_of_mem_left h.fields hf
    exact hwritten.type.valued (hformed.fields d hd)
  params m hm p hp := by
    obtain ⟨d, hd, hwritten⟩ := exists_of_mem_left h.methods hm
    obtain ⟨q, hq, hdenotes⟩ := exists_of_mem_left hwritten.params hp
    exact ⟨hdenotes.valued (hparams d hd q hq), hdenotes.readable hspelled⟩
  methods m hm := by
    obtain ⟨d, hd, hwritten⟩ := exists_of_mem_left h.methods hm
    exact ⟨hwritten.ret.yielded (hformed.methods d hd).ret, hwritten.ret.readable hspelled⟩

namespace SymbolTable

theorem spelled_builtins {name : String} {c : ClassSymbol} (h : builtins.find? name = some c) :
    Spelled name := by
  have hmem := Table.mem_of_find? h
  simp only [builtins, List.mem_cons, Prod.mk.injEq, List.not_mem_nil, or_false] at hmem
  rcases hmem with ⟨rfl, -⟩ | ⟨rfl, -⟩ | ⟨rfl, -⟩ <;>
    exact spelled_of_all (by decide) (by decide +kernel)

theorem spelled_objectName : Spelled objectName :=
  spelled_builtins (c := .ofBuiltin "Object" none
    [("hashCode", [], .int), ("toString", [], .string), ("equals", [.object], .boolean)]) rfl

theorem valued_builtins {name : String} {c : ClassSymbol} (h : builtins.find? name = some c) :
    c.Valued := by
  have hstring : Spelled stringName :=
    spelled_of_all (by decide) (by decide +kernel)
  have hmem := Table.mem_of_find? h
  simp only [builtins, List.mem_cons, Prod.mk.injEq, List.not_mem_nil, or_false] at hmem
  rcases hmem with ⟨-, rfl⟩ | ⟨-, rfl⟩ | ⟨-, rfl⟩ <;> constructor <;>
    simp [ClassSymbol.ofBuiltin, Ty.Yielded, Ty.Valued, Ty.Readable, Ty.object, Ty.string, hstring,
      spelled_objectName]

end SymbolTable

/-! ## Units as they are read -/

/-- Whether the tree of a unit is that of its text but for what the analysis adds to code. -/
def SourceEntry.Reads (files : FileTree) (e : SourceEntry) : Prop :=
  ∃ tree, SourceEntry.Parsed files { e with tree } ∧ e.tree.skeleton = tree.skeleton

section

variable {files : FileTree} {e : SourceEntry} {unit : Nat} {d : DeclaredClass}

/-- What a unit that has been read declares is declared in the tree of its text, but for what the
analysis adds to code. -/
theorem SourceEntry.Reads.declared (h : e.Reads files) (hd : d ∈ e.tree.declared unit) :
    ∃ text tree, UnitTree.parse e.unit.name text = .ok tree ∧
      ∃ d' ∈ tree.declared unit, d'.skeleton = d.skeleton := by
  obtain ⟨tree, ⟨text, -, hparse⟩, hskeleton⟩ := h
  have hmem : d.skeleton ∈ e.tree.skeleton.declared unit := by
    rw [UnitTree.declared_skeleton]
    exact List.mem_map_of_mem hd
  rw [hskeleton, UnitTree.declared_skeleton] at hmem
  exact ⟨text, tree, hparse, List.mem_map.mp hmem⟩

/-- The declarations of a unit that has been read are as the parser leaves them. -/
theorem SourceEntry.Reads.formed (h : e.Reads files) (hd : d ∈ e.tree.declared unit) :
    d.decl.Formed ∧ Spelled d.binary := by
  obtain ⟨text, tree, hparse, d', hd', heq⟩ := h.declared hd
  obtain ⟨hparsed, hspelled⟩ := (UnitTree.parsed_of_parse hparse).declared hd'
  obtain ⟨-, hbinary, -, hdecl⟩ := DeclaredClass.eq_of_skeleton heq
  exact ⟨hparsed.formed.of_skeleton hdecl.symm, hbinary ▸ hspelled⟩

end

/-! ## Sessions -/

namespace Session

variable {σ : Type} {s t : Session σ}

/-- Whether a session knows no class from an artifact, and declares no parameter without values in
the units that it has read. -/
structure Plain (s : Session σ) : Prop where
  origin : ∀ {name : String} {c : ClassSymbol}, s.symbols.find? name = some c →
    c.origin ≠ .classPath
  params : ∀ {d : DeclaredClass}, s.Declares d → d.decl.ParamsValued
  reads : ∀ e ∈ s.sources, e.Reads s.files

namespace Plain

/-- A session that goes on to one of that kind is of that kind itself. -/
theorem of_extends (h : t.Plain) (hst : s.Extends t) : s.Plain where
  origin hc := by
    obtain ⟨c', hc', hentered⟩ := hst.find? hc
    have horigin := congrArg ClassSymbol.origin hentered
    dsimp only [ClassSymbol.entered] at horigin
    exact horigin ▸ h.origin hc'
  params hd := h.params (hd.of_extends hst)
  reads e he := hst.files ▸ h.reads e (hst.sources.subset he)

/-- What the analysis adds to the code of a unit does not matter. -/
theorem of_withTree {unit : Nat} {e : SourceEntry} {tree : UnitTree}
    (h : (s.withTree unit tree).Plain) (he : s.sources[unit]? = some e)
    (hskeleton : tree.skeleton = e.tree.skeleton) : s.Plain where
  origin := h.origin
  params hd := by
    obtain ⟨d', hd', heq⟩ := declares_of_withTree he hskeleton hd
    exact (h.params hd').of_skeleton (DeclaredClass.eq_of_skeleton heq).2.2.2
  reads e' he' := by
    obtain ⟨i, hi⟩ := List.mem_iff_getElem?.mp he'
    by_cases hunit : i = unit
    · subst hunit
      rw [he] at hi
      cases hi
      have hself : (s.withTree i tree).sources[i]? = some { e with tree } := by
        rw [source_withTree he, if_pos rfl]
      obtain ⟨tree', hparsed, htree⟩ := h.reads _ (List.mem_of_getElem? hself)
      exact ⟨tree', hparsed, hskeleton.symm.trans htree⟩
    · have hsame : (s.withTree unit tree).sources[i]? = some e' := by
        rw [source_withTree he, if_neg hunit, hi]
      exact h.reads e' (List.mem_of_getElem? hsame)

theorem formed (h : s.Plain) {d : DeclaredClass} (hd : s.Declares d) :
    d.decl.Formed ∧ Spelled d.binary := by
  obtain ⟨e, he, hd⟩ := hd
  exact (h.reads e (List.mem_of_getElem? he)).formed hd

/-- All known classes have names that are spelled. -/
theorem spelled (h : s.Plain) (hs : s.Sound) {name : String} (hname : s.symbols.has name = true) :
    Spelled name := by
  obtain ⟨c, hc⟩ := Table.has_eq_true.mp hname
  cases horigin : c.origin with
  | source unit place =>
      obtain ⟨d, hd, rfl, -⟩ := hs.origin hc (by rw [ClassSymbol.isSource, horigin])
      exact (h.formed hd).2
  | classPath => exact absurd horigin (h.origin hc)
  | builtin => exact SymbolTable.spelled_builtins (hs.builtin hc horigin)

/-- The members of all known classes are what they should be. -/
theorem valued (h : s.Plain) (hs : s.Sound) {name : String} {c : ClassSymbol}
    (hc : s.symbols.find? name = some c) : c.Valued := by
  cases horigin : c.origin with
  | source unit place =>
      have hsource : c.isSource = true := by rw [ClassSymbol.isSource, horigin]
      obtain ⟨d, hd, -, -, hwritten⟩ := hs.origin hc hsource
      cases hsuper : c.superclass with
      | none =>
          obtain ⟨hfields, hmethods⟩ := (hs.staged hc hsource).members hsuper
          constructor <;> simp [hfields, hmethods]
      | some sup =>
          exact (hwritten (by rw [hsuper, Option.isSome_some])).valued (h.formed hd).1 (h.params hd)
            (h.spelled hs)
  | classPath => exact absurd horigin (h.origin hc)
  | builtin => exact SymbolTable.valued_builtins (hs.builtin hc horigin)

/-- The superclass of a declared class has a name that is spelled. -/
theorem spelled_superclass (h : s.Plain) (hs : s.Sound) {name sup : String} {c : ClassSymbol}
    (hc : s.symbols.find? name = some c) (hsource : c.isSource = true)
    (hsup : c.superclass = some sup) : Spelled sup := by
  rcases (hs.staged hc hsource).superclass sup hsup with rfl | hhas
  · exact SymbolTable.spelled_objectName
  · exact h.spelled hs hhas

end Plain

end Session

/-! ## Steps -/

namespace SessionM

variable {σ α β : Type} {s : Session σ} {P P' : Prop} {m : SessionM σ α}
  {f : α → SessionM σ β} {Q Q' : α → Session σ → Prop} {R : β → Session σ → Prop}

/-- Whether a step from a session lets it grow and, if it ends without an error in a plain session,
advance to one of which `Q` holds. The last part may assume `P`. -/
structure Ensures (s : Session σ) (P : Prop) (m : SessionM σ α) (Q : α → Session σ → Prop) :
    Prop where
  grows : s.Grows (m.run.run s).2
  advances : ∀ {a}, (m.run.run s).1 = .ok a → P → s.Sound → (m.run.run s).2.log.errors = 0 →
    (m.run.run s).2.Plain → s.Advances (m.run.run s).2 ∧ Q a (m.run.run s).2

namespace Ensures

theorem advances_of_run {a : α} {t : Session σ} (h : Ensures s P m Q)
    (hrun : m.run.run s = (.ok a, t)) (hP : P) (hs : s.Sound) (herrors : t.log.errors = 0)
    (ht : t.Plain) : s.Advances t ∧ Q a t := by
  have hadvances := h.advances (a := a)
  simp only [hrun, forall_const] at hadvances
  exact hadvances hP hs herrors ht

theorem of_keeps (h : Keeps s P m Q) : Ensures s P m Q :=
  ⟨h.grows, fun hrun hP hs herrors _ => h.advances hrun hP hs herrors⟩

theorem mono (h : Ensures s P m Q) (hP : P' → P) (hQ : ∀ a t, P' → Q a t → Q' a t) :
    Ensures s P' m Q' where
  grows := h.grows
  advances hrun hP' hs herrors ht :=
    have ⟨hadvances, hq⟩ := h.advances hrun (hP hP') hs herrors ht
    ⟨hadvances, hQ _ _ hP' hq⟩

theorem pre (h : Ensures s P m Q) (hP : P' → P) : Ensures s P' m Q :=
  h.mono hP fun _ _ _ => id

theorem pure {a : α} (h : P → s.Sound → s.Plain → Q a s) : Ensures s P (pure a) Q where
  grows := .refl s
  advances hr hP hs _ ht := by
    cases hr
    exact ⟨.of_eq hs rfl rfl rfl, h hP hs ht⟩

theorem get {f : Session σ → SessionM σ β} (h : Ensures s P (f s) R) :
    Ensures s P (MonadState.get >>= f) R :=
  ⟨h.grows, h.advances⟩

/-- A sequence of two steps. The first ends in a plain session if the second does. -/
theorem bind (hm : Ensures s P m Q)
    (hf : ∀ a t, m.run.run s = (.ok a, t) → Ensures t (P ∧ Q a t) (f a) R) :
    Ensures s P (m >>= f) R := by
  have hgrows := hm.grows
  rcases hrun : m.run.run s with ⟨e | a, t⟩
  · rw [hrun] at hgrows
    constructor
    · rwa [run_bind_error hrun]
    · intro b hb
      rw [run_bind_error hrun] at hb
      cases hb
  · have hrest := hf a t hrun
    rw [hrun] at hgrows
    constructor
    · rw [run_bind_ok hrun]
      exact hgrows.trans hrest.grows
    · intro b hb hP hs herrors hplain
      rw [run_bind_ok hrun] at hb herrors hplain ⊢
      have hle := hrest.grows.errors_le
      have hclean := Nat.eq_zero_of_le_zero (Nat.le_trans hle (Nat.le_of_eq herrors))
      obtain ⟨hst, hq⟩ :=
        hm.advances_of_run hrun hP hs hclean (hplain.of_extends hrest.grows.toExtends)
      obtain ⟨htu, hr⟩ := hrest.advances hb ⟨hP, hq⟩ hst.sound herrors hplain
      exact ⟨.trans hgrows.toExtends hst hrest.grows.toExtends htu, hr⟩

/-- A sequence of two steps, the first of which is one of a kind that keeps sessions sound. -/
theorem bind_keeps (hm : Keeps s P m Q)
    (hf : ∀ a t, m.run.run s = (.ok a, t) → Ensures t (P ∧ Q a t) (f a) R) :
    Ensures s P (m >>= f) R :=
  bind (of_keeps hm) hf

theorem problem_bind {source : String} {pos : Pos} {p : Problem} {f : Unit → SessionM σ β}
    (hf : ∀ t, Ensures t False (f ()) R) :
    Ensures s P (SessionM.problem source pos p >>= f) R :=
  bind_keeps (Q := fun _ _ => False) .problem fun _ t _ => (hf t).pre And.right

theorem findSomeM? {γ : Type} {f : β → SessionM σ (Option γ)} {R : γ → Session σ → Prop} :
    ∀ (bs : List β) {s : Session σ} {P : Prop}, (∀ b ∈ bs, ∀ t, Ensures t P (f b) fun r u =>
      ∀ c, r = some c → R c u) → Ensures s P (bs.findSomeM? f) fun r u => ∀ c, r = some c → R c u
  | [], _, _, _ => pure fun _ _ _ _ h => by cases h
  | b :: rest, s, P, h => by
      rw [List.findSomeM?_cons]
      refine (h b List.mem_cons_self s).bind fun r t _ => ?_
      cases r with
      | some c => exact pure fun hP _ _ => hP.2
      | none =>
          exact findSomeM? rest fun b hb u =>
            (h b (List.mem_cons_of_mem _ hb) u).pre And.left

/-- A step may use that it starts from a plain session. -/
theorem with_plain (h : Ensures s (P ∧ s.Plain) m Q) : Ensures s P m Q where
  grows := h.grows
  advances hrun hP hs herrors ht :=
    h.advances hrun ⟨hP, ht.of_extends h.grows.toExtends⟩ hs herrors ht

end Ensures

/-- What a step keeps, and what it ensures besides. -/
theorem Keeps.and_ensures {Q' : α → Session σ → Prop} (h : Keeps s P m Q) (h' : Ensures s P m Q') :
    Keeps s P m fun a t => Q a t ∧ (t.Plain → Q' a t) where
  grows := h.grows
  advances hrun hP hs herrors :=
    have ⟨hadvances, hq⟩ := h.advances hrun hP hs herrors
    ⟨hadvances, hq, fun ht => (h'.advances hrun hP hs herrors ht).2⟩

end SessionM

end ProbeLang
