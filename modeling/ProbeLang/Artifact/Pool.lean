import Std.Data.TreeMap.Lemmas
import ProbeLang.Artifact.Fault

/-!
# Constant pools

A constant pool lists texts, which code and headers name by their index from one upwards. A
text that is interned gets one index for good: if it stands in the pool the first place
where it does, else a new place at the end. A search index keeps this fast; that it agrees
with the list is part of the type.
-/

namespace ProbeLang

theorem idxOf?_concat (xs : List String) (a s : String) :
    (xs ++ [a]).idxOf? s = (xs.idxOf? s).or (if a = s then some xs.length else none) := by
  induction xs with
  | nil => simp [List.idxOf?_cons]
  | cons x xs ih =>
      simp only [List.cons_append, List.idxOf?_cons, ih, List.length_cons]
      by_cases h : (x == s) = true
      · simp [h]
      · simp only [h]
        cases xs.idxOf? s with
        | some i => simp
        | none => by_cases ha : a = s <;> simp [ha]

/-- Texts that are named by their index. -/
structure ConstantPool where
  /-- The entries, last first. -/
  reversed : List String
  size : Nat
  /-- The first place of every entry, counted from zero. -/
  places : Std.TreeMap String Nat
  size_eq : size = reversed.length
  places_eq : ∀ s, places[s]? = reversed.reverse.idxOf? s

namespace ConstantPool

/-- The pool without entries. -/
def empty : ConstantPool where
  reversed := []
  size := 0
  places := ∅
  size_eq := rfl
  places_eq := by simp

/-- The entries in the order of their indices. -/
def toList (p : ConstantPool) : List String :=
  p.reversed.reverse

/-- The pool with one more entry, which may repeat another. -/
def push (p : ConstantPool) (s : String) : ConstantPool where
  reversed := s :: p.reversed
  size := p.size + 1
  places := p.places.insertIfNew s p.size
  size_eq := by simp [p.size_eq]
  places_eq := by
    intro t
    rw [Std.TreeMap.getElem?_insertIfNew, List.reverse_cons, idxOf?_concat, List.length_reverse,
      p.size_eq]
    have h := p.places_eq t
    by_cases hs : s = t
    · subst hs
      cases hi : p.reversed.reverse.idxOf? s with
      | some i =>
          rw [hi] at h
          have hm : s ∈ p.places := by
            rw [Std.TreeMap.mem_iff_isSome_getElem?, h]
            rfl
          simp [hm]
          rw [Std.TreeMap.getElem?_eq_some_getElem hm] at h
          exact Option.some.inj h
      | none =>
          rw [hi] at h
          have hm : ¬ s ∈ p.places := by
            rw [Std.TreeMap.mem_iff_isSome_getElem?, h]
            simp
          simp [hm]
    · simp [hs, h]

/-- The entry at an index. -/
def get? (p : ConstantPool) (i : Nat) : Option String :=
  if i = 0 then none else p.toList[i - 1]?

/-- The largest index, and so the largest number of entries. -/
def maxIndex : Nat := 65535

/-- The index of a text, and the pool that has it. -/
def intern (p : ConstantPool) (s : String) : Except ArtifactFault (UInt16 × ConstantPool) :=
  match p.places[s]? with
  | some i => .ok (UInt16.ofNat (i + 1), p)
  | none =>
      if p.size < maxIndex then .ok (UInt16.ofNat (p.size + 1), p.push s)
      else .error .poolOverflow

/-- Intern texts one after the other. -/
def internAll (p : ConstantPool) :
    List UInt16 → List String → Except ArtifactFault (List UInt16 × ConstantPool)
  | done, [] => .ok (done.reverse, p)
  | done, s :: rest => do
      let (i, p) ← p.intern s
      internAll p (i :: done) rest

@[simp] theorem toList_empty : empty.toList = [] := rfl

@[simp] theorem toList_push (p : ConstantPool) (s : String) :
    (p.push s).toList = p.toList ++ [s] := by
  simp [toList, push]

end ConstantPool

end ProbeLang
