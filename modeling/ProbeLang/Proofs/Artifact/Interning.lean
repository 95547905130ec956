import Mathlib.Data.List.Nodup
import ProbeLang.Artifact
import ProbeLang.Artifact.Pool
import ProbeLang.Proofs.Fallible

/-!
# Interning texts

Interning a text adds it to the end of a pool unless it stands there already, and fails only when
there is no index left. So the pool that a class is written with is known before anything is
written: it has the constants of the code, then the names of the header that are not among them,
in their order.
-/

namespace ProbeLang

/-! ## Constant pools only grow

A text that is interned can be read back at its index, and what stood at an index before stands
there for good. Both hold as long as the pool is no larger than its indices can count, and
interning keeps it so. -/

namespace ConstantPool

/-- Whether every entry has an index. -/
def Fits (p : ConstantPool) : Prop :=
  p.size ≤ maxIndex

/-- Whether a pool begins with the entries of another. -/
def Extends (q p : ConstantPool) : Prop :=
  p.toList <+: q.toList

theorem fits_empty : empty.Fits := by
  simp [Fits, empty, maxIndex]

theorem length_toList (p : ConstantPool) : p.toList.length = p.size := by
  rw [toList, List.length_reverse, p.size_eq]

@[refl] theorem Extends.refl (p : ConstantPool) : p.Extends p :=
  List.prefix_refl _

theorem Extends.trans {p q r : ConstantPool} (h : r.Extends q) (h' : q.Extends p) :
    r.Extends p :=
  List.IsPrefix.trans h' h

theorem extends_push (p : ConstantPool) (s : String) : (p.push s).Extends p := by
  rw [Extends, toList_push]
  exact List.prefix_append _ _

/-- What stands at an index stays there. -/
theorem Extends.get? {p q : ConstantPool} (h : q.Extends p) {i : Nat} {s : String}
    (hs : p.get? i = some s) : q.get? i = some s := by
  unfold ConstantPool.get? at hs ⊢
  split at hs
  · cases hs
  · next hi =>
      rw [if_neg hi]
      obtain ⟨more, hmore⟩ := h
      rw [← hmore]
      exact List.getElem?_append_left (List.getElem?_eq_some_iff.mp hs).1 ▸ hs

theorem get?_succ (p : ConstantPool) (i : Nat) : p.get? (i + 1) = p.toList[i]? := by
  simp [get?]

/-- What interning a text can do: the text stands there, it is put at the end, or there is no index
left for it. -/
theorem intern_cases (p : ConstantPool) (s : String) :
    (∃ k, p.toList[k]? = some s ∧ p.intern s = .ok (UInt16.ofNat (k + 1), p)) ∨
      (s ∉ p.toList ∧ p.size < maxIndex ∧
        p.intern s = .ok (UInt16.ofNat (p.size + 1), p.push s)) ∨
      (s ∉ p.toList ∧ maxIndex ≤ p.size ∧ p.intern s = .error .poolOverflow) := by
  have hplace : p.places[s]? = p.toList.idxOf? s := p.places_eq s
  cases hk : p.toList.idxOf? s with
  | some k =>
      obtain ⟨hlt, hget, -⟩ := List.findIdx?_eq_some_iff_getElem.mp hk
      refine .inl ⟨k, ?_, by simp only [intern, hplace, hk]⟩
      rw [List.getElem?_eq_getElem hlt, beq_iff_eq.mp hget]
  | none =>
      have hmem : s ∉ p.toList := List.idxOf?_eq_none_iff.mp hk
      by_cases hroom : p.size < maxIndex
      · exact .inr (.inl ⟨hmem, hroom, by simp only [intern, hplace, hk, if_pos hroom]⟩)
      · exact .inr (.inr ⟨hmem, Nat.le_of_not_lt hroom,
          by simp only [intern, hplace, hk, if_neg hroom]⟩)

/-- Interning a text gives an index at which the text stands. -/
theorem intern_eq_ok {p q : ConstantPool} {s : String} {i : UInt16} (hp : p.Fits)
    (h : p.intern s = .ok (i, q)) : q.Fits ∧ q.Extends p ∧ q.get? i.toNat = some s := by
  obtain ⟨k, hk, hintern⟩ | ⟨-, hroom, hintern⟩ | ⟨-, -, hintern⟩ := intern_cases p s <;>
    rw [hintern] at h <;> cases h
  · have hlt : k < p.toList.length := (List.getElem?_eq_some_iff.mp hk).1
    have hk' : k + 1 < 65536 := by
      rw [length_toList] at hlt
      simp only [Fits, maxIndex] at hp
      omega
    refine ⟨hp, .refl _, ?_⟩
    rw [UInt16.toNat_ofNat_of_lt' hk', get?_succ, hk]
  · have hk' : p.size + 1 < 65536 := by
      simp only [maxIndex] at hroom
      omega
    refine ⟨hroom, extends_push p s, ?_⟩
    rw [UInt16.toNat_ofNat_of_lt' hk', get?_succ, toList_push, ← length_toList]
    simp

end ConstantPool

/-! ## Which texts a pool has -/

namespace ConstantPool

/-- Texts and one more behind them, unless it is one of them. -/
def addName (texts : List String) (s : String) : List String :=
  if s ∈ texts then texts else texts ++ [s]

/-- Texts and more of them, each of which is put at the end unless it is there. -/
def addNames (texts more : List String) : List String :=
  more.foldl addName texts

theorem isPrefix_addName (texts : List String) (s : String) : texts <+: addName texts s := by
  unfold addName
  split
  · exact List.prefix_refl texts
  · exact List.prefix_append texts [s]

theorem isPrefix_addNames (texts more : List String) : texts <+: addNames texts more := by
  induction more generalizing texts with
  | nil => exact List.prefix_refl texts
  | cons s rest ih => exact (isPrefix_addName texts s).trans (ih (addName texts s))

theorem addNames_append (texts more last : List String) :
    addNames texts (more ++ last) = addNames (addNames texts more) last :=
  List.foldl_append

/-- What is put at the end is what was not there, each text once and in the order in which it comes
first. -/
theorem addNames_eq (texts more : List String) :
    addNames texts more = texts ++ (more.filter fun s => s ∉ texts).eraseDups := by
  induction more generalizing texts with
  | nil => simp [addNames]
  | cons s rest ih =>
      have hstep : addNames texts (s :: rest) = addNames (addName texts s) rest := rfl
      rw [hstep, ih]
      by_cases hs : s ∈ texts
      · simp [addName, hs]
      · have hrest : (rest.filter fun t => t ∉ texts ++ [s]) =
            (rest.filter fun t => t ∉ texts).filter fun t => !(t == s) := by
          rw [List.filter_filter]
          refine List.filter_congr fun t _ => ?_
          by_cases hts : t = s <;> simp [hts]
        rw [List.filter_cons_of_pos (by simpa using hs), List.eraseDups_cons, ← hrest]
        simp [addName, hs]

/-- What a step interns: the texts that the pool has after it, and that it fails only when these
are too many. -/
structure Interns {α : Type} (names : List String) (p : ConstantPool)
    (r : Except ArtifactFault (α × ConstantPool)) : Prop where
  toList : ∀ a q, r = .ok (a, q) → q.toList = addNames p.toList names
  succeeds : (addNames p.toList names).length ≤ maxIndex → ∃ a q, r = .ok (a, q)

namespace Interns

variable {α β : Type} {names names' : List String} {p : ConstantPool}

theorem nothing (a : α) (p : ConstantPool) : Interns [] p (.ok (a, p)) where
  toList := by
    intro b q h
    cases h
    rfl
  succeeds _ := ⟨a, p, rfl⟩

theorem intern (p : ConstantPool) (s : String) : Interns [s] p (p.intern s) := by
  have hnames : addNames p.toList [s] = addName p.toList s := rfl
  obtain ⟨k, hk, hintern⟩ | ⟨hmem, -, hintern⟩ | ⟨hmem, hfull, hintern⟩ := intern_cases p s <;>
    rw [hintern] <;> constructor
  · rintro i q ⟨⟩
    rw [hnames, addName, if_pos (List.mem_of_getElem? hk)]
  · exact fun _ => ⟨_, _, rfl⟩
  · rintro i q ⟨⟩
    rw [hnames, addName, if_neg hmem, toList_push]
  · exact fun _ => ⟨_, _, rfl⟩
  · nofun
  · intro hlength
    rw [hnames, addName, if_neg hmem, List.length_append, length_toList] at hlength
    simp only [List.length_singleton] at hlength
    omega

/-- One step after the other. -/
theorem bind {r : Except ArtifactFault (α × ConstantPool)}
    {f : α × ConstantPool → Except ArtifactFault (β × ConstantPool)} (h : Interns names p r)
    (h' : ∀ a q, Interns names' q (f (a, q))) : Interns (names ++ names') p (r >>= f) := by
  constructor
  · intro b t hb
    obtain ⟨⟨a, q⟩, hr, hf⟩ := except_bind_ok hb
    rw [(h' a q).toList b t hf, h.toList a q hr, addNames_append]
  · intro hlength
    rw [addNames_append] at hlength
    have hshort := (isPrefix_addNames (addNames p.toList names) names').length_le
    obtain ⟨a, q, rfl⟩ := h.succeeds (Nat.le_trans hshort hlength)
    rw [← h.toList a q rfl] at hlength
    exact (h' a q).succeeds hlength

/-- A step whose result is only put into another form. -/
theorem map {r : Except ArtifactFault (α × ConstantPool)} (g : α → β) (h : Interns names p r) :
    Interns names p (r >>= fun x => .ok (g x.1, x.2)) := by
  have hbind := h.bind (f := fun x => .ok (g x.1, x.2)) fun a q => nothing (g a) q
  rwa [List.append_nil] at hbind

theorem internAll (done : List UInt16) (ss : List String) (p : ConstantPool) :
    Interns ss p (p.internAll done ss) := by
  induction ss generalizing done p with
  | nil => exact nothing done.reverse p
  | cons s rest ih => exact (intern p s).bind fun i q => ih (i :: done) q

theorem optionalIndex (p : ConstantPool) (s : Option String) :
    Interns s.toList p (ClassFile.optionalIndex p s) := by
  cases s with
  | none => exact nothing 0 p
  | some s => exact intern p s

theorem memberIndices (name descriptor : α → String) (done : List (α × UInt16 × UInt16))
    (ms : List α) (p : ConstantPool) :
    Interns (ms.flatMap fun m => [name m, descriptor m]) p
      (ClassFile.memberIndices name descriptor p done ms) := by
  induction ms generalizing done p with
  | nil => exact nothing done.reverse p
  | cons m rest ih =>
      rw [List.flatMap_cons]
      exact (intern p (name m)).bind fun n q => (intern q (descriptor m)).bind fun d t =>
        ih ((m, n, d) :: done) t

end Interns

/-! ### Every history of calls

A pool that is kept answers one call after the other. Each call keeps the entries distinct and no
more than there are indices, and leaves them where they are; so does every history of calls. -/

/-- The answer to a call, and the pool that is kept: the one there was if the call fails. -/
def call (p : ConstantPool) (s : String) : Except ArtifactFault UInt16 × ConstantPool :=
  match p.intern s with
  | .ok (i, q) => (.ok i, q)
  | .error e => (.error e, p)

/-- The pool that is kept after calls. -/
def calls (p : ConstantPool) (ss : List String) : ConstantPool :=
  ss.foldl (fun q s => (q.call s).2) p

/-- Whether every entry has one index, which no other entry has. -/
structure Distinct (p : ConstantPool) : Prop where
  fits : p.Fits
  nodup : p.toList.Nodup

theorem distinct_empty : empty.Distinct where
  fits := fits_empty
  nodup := List.nodup_nil

section Step

variable {p : ConstantPool} {s : String} {i j : Nat}

theorem call_of_ok {i : UInt16} {q : ConstantPool} (h : p.intern s = .ok (i, q)) :
    p.call s = (.ok i, q) := by
  rw [call, h]

theorem call_of_error {e : ArtifactFault} (h : p.intern s = .error e) :
    p.call s = (.error e, p) := by
  rw [call, h]

theorem intern_of_call {i : UInt16} (h : (p.call s).1 = .ok i) :
    p.intern s = .ok (i, (p.call s).2) := by
  cases hintern : p.intern s with
  | ok r =>
      rw [call_of_ok hintern] at h ⊢
      cases h
      rfl
  | error e =>
      rw [call_of_error hintern] at h
      cases h

theorem Distinct.call (h : p.Distinct) (s : String) : (p.call s).2.Distinct := by
  obtain ⟨k, -, hintern⟩ | ⟨hmem, hroom, hintern⟩ | ⟨-, -, hintern⟩ := intern_cases p s
  · rw [call_of_ok hintern]
    exact h
  · rw [call_of_ok hintern]
    refine ⟨hroom, ?_⟩
    rw [toList_push, ← List.concat_eq_append]
    exact h.nodup.concat hmem
  · rw [call_of_error hintern]
    exact h

theorem extends_call (p : ConstantPool) (s : String) : (p.call s).2.Extends p := by
  obtain ⟨k, -, hintern⟩ | ⟨-, -, hintern⟩ | ⟨-, -, hintern⟩ := intern_cases p s
  · rw [call_of_ok hintern]
  · rw [call_of_ok hintern]
    exact extends_push p s
  · rw [call_of_error hintern]

/-- A call fails exactly if its text is new and every index is taken. -/
theorem call_eq_error (h : p.Fits) {e : ArtifactFault} :
    (p.call s).1 = .error e ↔ e = .poolOverflow ∧ s ∉ p.toList ∧ p.size = maxIndex := by
  obtain ⟨k, hk, hintern⟩ | ⟨-, hroom, hintern⟩ | ⟨hmem, hfull, hintern⟩ := intern_cases p s
  · rw [call_of_ok hintern]
    simp [List.mem_of_getElem? hk]
  · rw [call_of_ok hintern]
    simp [Nat.ne_of_lt hroom]
  · rw [call_of_error hintern]
    simp [hmem, Nat.le_antisymm h hfull, eq_comm]

theorem call_error_kept {e : ArtifactFault} (he : (p.call s).1 = .error e) :
    (p.call s).2 = p := by
  cases hintern : p.intern s with
  | ok r =>
      rw [call_of_ok hintern] at he
      cases he
  | error e' => rw [call_of_error hintern]

theorem get?_eq_some : p.get? i = some s ↔ ∃ k, i = k + 1 ∧ p.toList[k]? = some s := by
  cases i with
  | zero => simp [get?]
  | succ k => simp [get?_succ]

theorem get?_bounds (h : p.get? i = some s) : 1 ≤ i ∧ i ≤ p.size := by
  obtain ⟨k, rfl, hk⟩ := get?_eq_some.mp h
  have hlt : k < p.toList.length := (List.getElem?_eq_some_iff.mp hk).1
  rw [length_toList] at hlt
  omega

theorem Distinct.get?_inj (h : p.Distinct) (hi : p.get? i = some s) (hj : p.get? j = some s) :
    i = j := by
  obtain ⟨k, rfl, hk⟩ := get?_eq_some.mp hi
  obtain ⟨l, rfl, hl⟩ := get?_eq_some.mp hj
  have hlt : k < p.toList.length := (List.getElem?_eq_some_iff.mp hk).1
  rw [(List.getElem?_inj hlt h.nodup).mp (hk.trans hl.symm)]

/-- A text that stands in the pool gets the index at which it stands. -/
theorem call_of_get? (h : p.Distinct) {i : UInt16} (hi : p.get? i.toNat = some s) :
    p.call s = (.ok i, p) := by
  obtain ⟨l, -, hl⟩ := get?_eq_some.mp hi
  have hmem : s ∈ p.toList := List.mem_of_getElem? hl
  obtain ⟨k, -, hintern⟩ | ⟨hnew, -⟩ | ⟨hnew, -⟩ := intern_cases p s
  · have hk := (intern_eq_ok h.fits hintern).2.2
    rw [call_of_ok hintern, UInt16.toNat_inj.mp (h.get?_inj hk hi)]
  · exact absurd hmem hnew
  · exact absurd hmem hnew

end Step

theorem Distinct.calls {p : ConstantPool} (h : p.Distinct) (ss : List String) :
    (p.calls ss).Distinct := by
  induction ss generalizing p with
  | nil => exact h
  | cons s rest ih => exact ih (h.call s)

theorem extends_calls (p : ConstantPool) (ss : List String) : (p.calls ss).Extends p := by
  induction ss generalizing p with
  | nil => exact .refl p
  | cons s rest ih => exact (ih (p.call s).2).trans (extends_call p s)

theorem calls_append (p : ConstantPool) (ss : List String) (s : String) (more : List String) :
    p.calls (ss ++ s :: more) = ((p.calls ss).call s).2.calls more := by
  rw [calls, List.foldl_append]
  rfl

/-- The pool after calls has its entries and behind them what was called for, as far as there are
indices. -/
theorem toList_calls {p : ConstantPool} (h : p.Fits) (ss : List String) :
    (p.calls ss).toList = (addNames p.toList ss).take maxIndex := by
  induction ss generalizing p with
  | nil =>
      rw [Fits, ← length_toList] at h
      exact (List.take_of_length_le h).symm
  | cons s rest ih =>
      have hcalls : p.calls (s :: rest) = (p.call s).2.calls rest := rfl
      have hnames : addNames p.toList (s :: rest) = addNames (addName p.toList s) rest := rfl
      rw [hcalls, hnames]
      obtain ⟨k, hk, hintern⟩ | ⟨hmem, hroom, hintern⟩ | ⟨-, hfull, hintern⟩ := intern_cases p s
      · rw [call_of_ok hintern, ih h, addName, if_pos (List.mem_of_getElem? hk)]
      · have hpush : (p.push s).Fits := hroom
        rw [call_of_ok hintern, ih hpush, addName, if_neg hmem, toList_push]
      · -- of a full pool, what stands behind its entries is cut off again
        have hsize : maxIndex = p.toList.length := by
          rw [length_toList]
          exact Nat.le_antisymm hfull h
        have htake {more : List String} (hmore : p.toList <+: more) :
            (addNames more rest).take maxIndex = p.toList := by
          rw [hsize]
          exact (List.prefix_iff_eq_take.mp (hmore.trans (isPrefix_addNames more rest))).symm
        rw [call_of_error hintern, ih h, htake (List.prefix_refl _),
          htake (isPrefix_addName p.toList s)]

/-- Whatever is called for, a pool that starts empty has the first texts that were called for, each
once, and no more than there are indices. A call gives an index of the pool at which its text
stands, then and after all later calls, and the text gets the same index again. It fails exactly if
the text is new and all indices are taken, and then it leaves the pool as it was. -/
theorem calls_stable (ss : List String) :
    (empty.calls ss).toList = ss.eraseDups.take 65535 ∧
      (empty.calls ss).toList.Nodup ∧
      (empty.calls ss).size ≤ 65535 ∧
      (empty.calls ss).get? 0 = none ∧
      (∀ s i, ((empty.calls ss).call s).1 = .ok i →
        1 ≤ i.toNat ∧ i.toNat ≤ ((empty.calls ss).call s).2.size ∧
          ∀ more, (empty.calls (ss ++ s :: more)).get? i.toNat = some s ∧
            (empty.calls (ss ++ s :: more)).call s = (.ok i, empty.calls (ss ++ s :: more))) ∧
      ∀ s e,
        (((empty.calls ss).call s).1 = .error e ↔
          e = .poolOverflow ∧ s ∉ (empty.calls ss).toList ∧ (empty.calls ss).size = 65535) ∧
        (((empty.calls ss).call s).1 = .error e → empty.calls (ss ++ [s]) = empty.calls ss) := by
  have hpool : (empty.calls ss).Distinct := distinct_empty.calls ss
  refine ⟨?_, hpool.nodup, hpool.fits, rfl, ?_, ?_⟩
  · rw [toList_calls fits_empty, addNames_eq, toList_empty, List.nil_append]
    simp [maxIndex]
  · intro s i hi
    have hget := (intern_eq_ok hpool.fits (intern_of_call hi)).2.2
    obtain ⟨hone, hsize⟩ := get?_bounds hget
    refine ⟨hone, hsize, fun more => ?_⟩
    have hlater : (empty.calls (ss ++ s :: more)).get? i.toNat = some s := by
      rw [calls_append]
      exact (extends_calls _ more).get? hget
    exact ⟨hlater, call_of_get? (distinct_empty.calls _) hlater⟩
  · refine fun s e => ⟨call_eq_error hpool.fits, fun he => ?_⟩
    rw [calls_append]
    exact call_error_kept he

end ConstantPool

namespace ClassFile

open ConstantPool

/-- The texts that a class is written with: the constants of its code, and behind them the names of
the header that are not among these. -/
def allNames (c : ClassFile) : List String :=
  c.pool.toList ++ (c.headerNames.filter fun s => s ∉ c.pool.toList).eraseDups

theorem extends_of_allNames {c : ClassFile} {pool : ConstantPool} (h : pool.toList = c.allNames) :
    pool.Extends c.pool := by
  rw [Extends, h]
  exact List.prefix_append _ _

/-- The indices of the names of a class. -/
structure Indices where
  this : UInt16
  superclass : UInt16
  outer : UInt16
  nested : List UInt16
  fields : List (FieldInfo × UInt16 × UInt16)
  methods : List (MethodInfo × UInt16 × UInt16)

/-- Give every name of a class an index. -/
def indices (c : ClassFile) : Except ArtifactFault (Indices × ConstantPool) := do
  let (this, pool) ← c.pool.intern c.name
  let (superclass, pool) ← optionalIndex pool c.superclass
  let (outer, pool) ← optionalIndex pool c.outer
  let (nested, pool) ← pool.internAll [] c.nested
  let (fields, pool) ← memberIndices FieldInfo.name FieldInfo.descriptor pool [] c.fields
  let (methods, pool) ← memberIndices MethodInfo.name MethodInfo.descriptor pool [] c.methods
  return (⟨this, superclass, outer, nested, fields, methods⟩, pool)

/-- The bytes of a class whose names have indices. -/
def Indices.bytes (x : Indices) (c : ClassFile) (pool : ConstantPool) :
    Except ArtifactFault Bytes := do
  let poolSize ← tableLength pool.size
  let constants ← poolBytes [] pool.toList
  let nestedTable ← tableBytes u16Bytes x.nested
  let fieldTable ← tableBytes
    (fun (f, n, d) => u16Bytes f.flags ++ u16Bytes n ++ u16Bytes d) x.fields
  let methodCount ← tableLength x.methods.length
  let methodTable ← methodsBytes [] x.methods
  return artifactMagic ++ u16Bytes (UInt16.ofNat c.target.code) ++ u16Bytes poolSize ++
    constants ++ u16Bytes c.flags ++ u16Bytes x.this ++ u16Bytes x.superclass ++
    u16Bytes x.outer ++ nestedTable ++ fieldTable ++ u16Bytes methodCount ++ methodTable

/-- A class is written in two parts, of which only the first changes the pool. -/
theorem encode_eq (c : ClassFile) :
    c.encode = c.indices >>= fun x => x.1.bytes c x.2 := by
  simp only [encode, indices, bind_assoc, pure_bind]
  rfl

theorem interns_indices (c : ClassFile) : Interns c.headerNames c.pool c.indices := by
  have hnames : c.headerNames = [c.name] ++ (c.superclass.toList ++ (c.outer.toList ++
      (c.nested ++ (c.fields.flatMap (fun f => [f.name, f.descriptor]) ++
        c.methods.flatMap fun m => [m.name, m.descriptor])))) := by
    simp [headerNames]
  rw [hnames]
  refine (Interns.intern c.pool c.name).bind fun this p => ?_
  refine (Interns.optionalIndex p c.superclass).bind fun superclass p => ?_
  refine (Interns.optionalIndex p c.outer).bind fun outer p => ?_
  refine (Interns.internAll [] c.nested p).bind fun nested p => ?_
  refine (Interns.memberIndices _ _ [] c.fields p).bind fun fields p => ?_
  exact (Interns.memberIndices _ _ [] c.methods p).map
    (Indices.mk this superclass outer nested fields)

theorem toList_of_indices {c : ClassFile} {x : Indices} {pool : ConstantPool}
    (h : c.indices = .ok (x, pool)) : pool.toList = c.allNames := by
  rw [c.interns_indices.toList x pool h, addNames_eq, allNames]

end ClassFile

end ProbeLang
