import ProbeLang.Proofs.Tree.Parsed
import ProbeLang.Proofs.Tree.Printing
import ProbeLang.Proofs.Tree.Taking

/-!
# Reading names and types back

Every name and type that has been read is made of identifiers and has no more brackets than there
may be (`Readable`), and one that is so is read back from the tokens it is printed as.
-/

namespace ProbeLang

open Bare

/-- Whether a dotted name is made of identifiers. -/
structure Path.Readable (p : Path) : Prop where
  segments : p.segments ≠ []
  idents : ∀ s ∈ p.segments, Identifier s

/-- Whether the name of a type is that of a primitive type or made of identifiers. -/
def TypeName.Readable : TypeName → Prop
  | .named path => path.Readable
  | _ => True

/-- Whether a type could have been read: it has no more brackets than there may be, and none if it
is `void`. -/
structure TypeRef.Readable (t : TypeRef) : Prop where
  base : t.base.Readable
  dims : t.dims ≤ 255
  void : t.base = .void → t.dims = 0

/-! ## What they are printed as -/

theorem Path.Readable.legible {p : Path} (h : p.Readable) : ∀ w ∈ p.print, w.Legible := by
  obtain ⟨first, rest, hsegments⟩ := List.exists_cons_of_ne_nil h.segments
  have hidents := h.idents
  rw [hsegments] at hidents
  rw [Path.print, hsegments]
  obtain ⟨hfirst, hrest⟩ := List.forall_mem_cons.mp hidents
  refine List.forall_mem_cons.mpr ⟨hfirst, List.forall_mem_flatMap.mpr fun s hs => ?_⟩
  exact List.forall_mem_cons.mpr ⟨legible_sign rfl, List.forall_mem_singleton.mpr (hrest s hs)⟩

theorem Path.length_print (p : Path) : p.print.length = 2 * p.segments.tail.length + 1 := by
  rw [Path.print, List.length_cons, List.length_flatMap]
  simp only [List.length_cons, List.length_nil, List.map_const', List.sum_replicate_nat]
  omega

theorem TypeName.Readable.legible {t : TypeName} (h : t.Readable) : ∀ w ∈ t.print, w.Legible := by
  cases t with
  | named path => exact Path.Readable.legible h
  | _ => exact List.forall_mem_singleton.mpr (legible_sign rfl)

theorem legible_printDims (n : Nat) : ∀ w ∈ printDims n, w.Legible := by
  refine List.forall_mem_flatten.mpr fun pair hpair => ?_
  rw [List.eq_of_mem_replicate hpair]
  exact List.forall_mem_cons.mpr ⟨legible_sign rfl,
    List.forall_mem_singleton.mpr (legible_sign rfl)⟩

theorem TypeRef.Readable.legible {t : TypeRef} (h : t.Readable) : ∀ w ∈ t.print, w.Legible :=
  List.forall_mem_append.mpr ⟨h.base.legible, legible_printDims t.dims⟩

/-- The kinds of token that a type begins with. -/
def TypeName.heads : List Token.Kind :=
  [.identifier, .kwVoid, .kwInt, .kwLong, .kwBoolean]

theorem TypeName.begins_print (t : TypeName) : Parse.Begins TypeName.heads t.print := by
  cases t with
  | named path => exact ⟨_, _, rfl, List.mem_cons_self⟩
  | _ => exact ⟨_, _, rfl, by decide⟩

theorem TypeRef.begins_print (t : TypeRef) : Parse.Begins TypeName.heads t.print :=
  t.base.begins_print.append

namespace Parse

theorem printDims_succ (n : Nat) :
    printDims (n + 1) = sign .openBracket :: sign .closeBracket :: printDims n := rfl

theorem length_printDims (n : Nat) : (printDims n).length = 2 * n := by
  induction n with
  | zero => rfl
  | succ n ih =>
      rw [printDims_succ, List.length_cons, List.length_cons, ih]
      omega

/-! ## Reading them back -/

theorem takes_pathRest : ∀ (rest : List String) {fuel : Nat} {done : List String},
    rest.length ≤ fuel → Takes (pathRest fuel done)
      (rest.flatMap fun s => [sign .dot, .ident s]) (· != .dot) (· = done.reverse ++ rest)
  | [], 0, done, _ => .pure (List.append_nil _).symm
  | [], fuel + 1, done, _ => by
      refine .get fun s k hs hk => ?_
      have hdot : ¬ (s.current.kind = .dot ∧ s.nextKind = .identifier) := by
        intro h
        cases hs
        simp [h.1] at hk
      rw [if_neg hdot]
      exact .pure (List.append_nil _).symm
  | name :: rest, fuel + 1, done, hfuel => by
      refine .get fun s k hs _ => ?_
      rw [if_pos ⟨hs.kind_eq, hs.nextKind_eq⟩]
      refine .advance fun _ _ => .expect rfl fun t ht => ?_
      have htext : t.text = name := congrArg Bare.text ht
      refine (takes_pathRest rest (Nat.le_of_succ_le_succ hfuel)).mono (fun _ h => h)
        fun segments h => ?_
      rw [h, htext, List.reverse_cons, List.append_assoc, List.singleton_append]

theorem takes_path {p : Path} {fuel : Nat} (hp : p.Readable) (hfuel : p.print.length ≤ fuel) :
    Takes (path fuel) p.print (· != .dot) fun p' => p'.placeless = p.placeless := by
  obtain ⟨segments, pos⟩ := p
  obtain ⟨first, rest, rfl⟩ := List.exists_cons_of_ne_nil hp.segments
  have hlength : rest.length ≤ fuel := by
    rw [Path.length_print, List.tail_cons] at hfuel
    omega
  refine .expect rfl fun t ht => (takes_pathRest rest hlength).bind_last (fun _ h => h) ?_
  rintro _ rfl
  have htext : t.text = first := congrArg Bare.text ht
  exact .pure (by simp [Path.placeless, htext])

theorem takes_dims : ∀ (n : Nat) {fuel start : Nat}, n ≤ fuel → start + n ≤ 255 →
    Takes (dims fuel start) (printDims n) (· != .openBracket) (· = start + n)
  | 0, 0, start, _, _ => .pure rfl
  | 0, fuel + 1, start, _, _ => by
      refine .get fun s k hs hk => ?_
      have hopen : ¬ (s.current.kind = .openBracket ∧ s.nextKind = .closeBracket) := by
        intro h
        cases hs
        simp [h.1] at hk
      rw [if_neg hopen]
      exact .pure rfl
  | n + 1, fuel + 1, start, hfuel, hstart => by
      rw [printDims_succ]
      refine .get fun s k hs _ => ?_
      rw [if_pos ⟨hs.kind_eq, hs.nextKind_eq⟩]
      refine .advance fun _ _ => .advance fun _ _ => ?_
      rw [if_neg (by omega)]
      refine (takes_dims n (by omega) (by omega)).mono (fun _ h => h) fun m hm => ?_
      omega

theorem takes_typeName {t : TypeName} {fuel : Nat} (ht : t.Readable)
    (hfuel : t.print.length ≤ fuel) :
    Takes (typeName fuel) t.print (· != .dot) fun t' => t'.placeless = t.placeless := by
  have hprimitive {kind : Token.Kind} {base : TypeName} (hbase : primitive? kind = some base) :
      Takes (typeName fuel) [sign kind] (· != .dot) fun t' => t'.placeless = base.placeless := by
    refine .peek fun t ht => ?_
    have hkind : t.kind = kind := congrArg Bare.kind ht
    rw [hkind, hbase]
    exact .advance fun _ _ => .pure rfl
  cases t with
  | void | int | long | boolean => exact hprimitive rfl
  | named path =>
      refine .peek fun t ht' => ?_
      have hkind : t.kind = .identifier := congrArg Bare.kind ht'
      rw [hkind]
      refine (takes_path ht hfuel).bind_last (fun _ h => h) fun p hp => .pure ?_
      exact congrArg TypeName.named hp

/-- Behind `new` the name of a type is taken if it is not `void`. -/
theorem takes_notVoid {β : Type} {K : Kinds} {R : β → Prop} {t : TypeName} {ws : List Bare}
    {fuel : Nat} {fault : SyntaxFault} {f : TypeName → Parse β} (ht : t.Readable)
    (hvoid : t ≠ .void) (hfuel : t.print.length ≤ fuel) (hJ : Admits ws K (· != .dot))
    (h : ∀ t', t'.placeless = t.placeless → Takes (f t') ws K R) :
    Takes (do
      if ← check .kwVoid then fail fault
      let base ← typeName fuel
      f base) (t.print ++ ws) K R := by
  have hhead : Admits (t.print ++ ws) K (· != .kwVoid) := by
    cases t with
    | void => exact absurd rfl hvoid
    | _ => rfl
  exact .check_false hhead ((takes_typeName ht hfuel).bind hJ h)

/-- What is not `void` without positions is not `void`. -/
theorem placeless_eq_void {t : TypeName} : t.placeless = .void ↔ t = .void := by
  cases t <;> simp [TypeName.placeless]

theorem base_ne_void {t t' : TypeRef} (h : t'.placeless = t.placeless) (hbase : t.base ≠ .void) :
    t'.base ≠ .void := by
  intro hvoid
  have hplaceless : t'.base.placeless = t.base.placeless := congrArg TypeRef.base h
  rw [hvoid] at hplaceless
  exact hbase (placeless_eq_void.mp hplaceless.symm)

theorem takes_type {t : TypeRef} {fuel : Nat} (ht : t.Readable) (hfuel : t.print.length ≤ fuel) :
    Takes (type fuel) t.print (fun kind => kind != .dot && kind != .openBracket)
      fun t' => t'.placeless = t.placeless := by
  have hlength : t.base.print.length + 2 * t.dims ≤ fuel := by
    rwa [TypeRef.print, List.length_append, length_printDims] at hfuel
  refine .peek_any fun first => (takes_typeName ht.base (by omega)).bind ?_ fun base hbase => ?_
  · cases t.dims with
    | zero =>
        intro kind hkind
        exact (Bool.and_eq_true _ _ ▸ hkind).1
    | succ n => rfl
  refine (takes_dims t.dims (by omega) (by simpa using ht.dims)).bind_last ?_ ?_
  · intro kind hkind
    exact (Bool.and_eq_true _ _ ▸ hkind).2
  rintro n rfl
  have hvoid : ¬ (base = .void ∧ 0 < 0 + t.dims) := by
    rintro ⟨hbase', hdims⟩
    have htvoid : t.base = .void := by
      rw [← placeless_eq_void, ← hbase, hbase']
      rfl
    have hzero := ht.void htvoid
    omega
  rw [if_neg hvoid]
  exact .pure (by simp [TypeRef.placeless, hbase])

/-! ## What has been read -/

theorem yields_readablePath (fuel : Nat) : Yields (path fuel) Path.Readable :=
  (yields_segments fuel).mono fun _ hp => ⟨hp.1, hp.2⟩

theorem yields_dims : ∀ {fuel n : Nat}, n ≤ 255 → Yields (dims fuel n) (· ≤ 255)
  | 0, _, hn => .pure hn
  | fuel + 1, n, hn => by
      refine .skip fun s => ?_
      split
      · refine .skip fun _ => .skip fun _ => ?_
        split
        · exact .fail
        · exact yields_dims (by omega)
      · exact .pure hn

theorem yields_readableTypeName (fuel : Nat) : Yields (typeName fuel) TypeName.Readable := by
  refine .skip fun t => ?_
  split
  · next base hbase =>
      refine .skip fun _ => .pure ?_
      unfold primitive? at hbase
      split at hbase <;> cases hbase <;> trivial
  · split
    · exact (yields_readablePath fuel).bind fun _ hp => .pure hp
    · exact .fail

theorem yields_readableType (fuel : Nat) : Yields (type fuel) TypeRef.Readable := by
  refine .skip fun t => (yields_readableTypeName fuel).bind fun base hbase =>
    (yields_dims (Nat.zero_le _)).bind fun n hn => ?_
  split
  · exact .failAt
  · next hvoid =>
      exact .pure ⟨hbase, hn, fun h => Nat.eq_zero_of_not_pos fun hpos => hvoid ⟨h, hpos⟩⟩

end Parse

end ProbeLang
