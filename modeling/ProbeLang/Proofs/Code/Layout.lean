import ProbeLang.Code

/-!
# Where instructions stand

A piece of code is laid out from a place on, one instruction behind the other. The places where
an instruction begins, with the place behind the last one, are what a jump may lead to and what
an entry of a line table may name.

Code is compared up to the names of its constants: `Instr.map` renames them, and neither the
layout nor the targets of jumps depend on them.
-/

namespace ProbeLang

namespace Instr

variable {κ κ' κ'' : Type}

/-- The instruction with its constant renamed. -/
def map (f : κ → κ') : Instr κ → Instr κ'
  | .pushInt n => .pushInt n
  | .pushLong n => .pushLong n
  | .pushConst c => .pushConst (f c)
  | .pushNull => .pushNull
  | .load slot => .load slot
  | .store slot => .store slot
  | .getField c => .getField (f c)
  | .putField c => .putField (f c)
  | .getStatic c => .getStatic (f c)
  | .putStatic c => .putStatic (f c)
  | .invoke c => .invoke (f c)
  | .invokeStatic c => .invokeStatic (f c)
  | .new c => .new (f c)
  | .newArray c => .newArray (f c)
  | .arrayLoad => .arrayLoad
  | .arrayStore => .arrayStore
  | .arrayLength => .arrayLength
  | .neg => .neg
  | .not => .not
  | .add => .add
  | .sub => .sub
  | .mul => .mul
  | .div => .div
  | .rem => .rem
  | .cmpEq => .cmpEq
  | .cmpNe => .cmpNe
  | .cmpLt => .cmpLt
  | .cmpLe => .cmpLe
  | .cmpGt => .cmpGt
  | .cmpGe => .cmpGe
  | .concat => .concat
  | .jump target => .jump target
  | .jumpIfFalse target => .jumpIfFalse target
  | .jumpIfTrue target => .jumpIfTrue target
  | .ret => .ret
  | .retValue => .retValue
  | .throw => .throw
  | .monitorEnter => .monitorEnter
  | .monitorExit => .monitorExit
  | .pop => .pop
  | .dup => .dup
  | .dupX1 => .dupX1
  | .dupX2 => .dupX2

/-- Where a jump leads. -/
def target? : Instr κ → Option Nat
  | .jump target | .jumpIfFalse target | .jumpIfTrue target => some target
  | _ => none

/-- The slot of an instruction that reads or writes one. -/
def slot? : Instr κ → Option UInt16
  | .load slot | .store slot => some slot
  | _ => none

/-- The constant that an instruction names. -/
def constant? : Instr κ → Option κ
  | .pushConst c | .getField c | .putField c | .getStatic c | .putStatic c | .invoke c
  | .invokeStatic c | .new c | .newArray c => some c
  | _ => none

@[simp] theorem size_map (f : κ → κ') (i : Instr κ) : (i.map f).size = i.size := by
  cases i <;> rfl

@[simp] theorem target?_map (f : κ → κ') (i : Instr κ) : (i.map f).target? = i.target? := by
  cases i <;> rfl

@[simp] theorem slot?_map (f : κ → κ') (i : Instr κ) : (i.map f).slot? = i.slot? := by
  cases i <;> rfl

@[simp] theorem opcode_map (f : κ → κ') (i : Instr κ) : (i.map f).opcode = i.opcode := by
  cases i <;> rfl

@[simp] theorem constant?_map (f : κ → κ') (i : Instr κ) :
    (i.map f).constant? = i.constant?.map f := by
  cases i <;> rfl

theorem map_congr {f g : κ → κ'} {i : Instr κ} (h : ∀ c, i.constant? = some c → f c = g c) :
    i.map f = i.map g := by
  cases i <;> first | rfl | simp only [map, h _ rfl]

theorem size_pos (i : Instr κ) : 0 < i.size := by
  cases i <;> simp [size]

end Instr

namespace Code

variable {κ κ' : Type}

@[simp] theorem size_nil : size ([] : List (Instr κ)) = 0 := rfl

@[simp] theorem size_cons (i : Instr κ) (c : List (Instr κ)) :
    size (i :: c) = i.size + size c := rfl

@[simp] theorem size_append (c d : List (Instr κ)) : size (c ++ d) = size c + size d := by
  induction c with
  | nil => simp
  | cons i c ih => simp [ih, Nat.add_assoc]

@[simp] theorem size_map (f : κ → κ') (c : List (Instr κ)) :
    size (c.map (Instr.map f)) = size c := by
  induction c with
  | nil => rfl
  | cons i c ih => simp [ih]

theorem length_le_size (c : List (Instr κ)) : c.length ≤ size c := by
  induction c with
  | nil => exact Nat.le_refl 0
  | cons i c ih =>
      have := i.size_pos
      rw [size_cons, List.length_cons]
      omega

/-- The places where the instructions of code that stands at a place begin, and the place behind
the last one. -/
def starts (pc : Nat) : List (Instr κ) → List Nat
  | [] => [pc]
  | i :: c => pc :: starts (pc + i.size) c

@[simp] theorem starts_nil (pc : Nat) : starts pc ([] : List (Instr κ)) = [pc] := rfl

@[simp] theorem starts_cons (pc : Nat) (i : Instr κ) (c : List (Instr κ)) :
    starts pc (i :: c) = pc :: starts (pc + i.size) c := rfl

@[simp] theorem starts_map (f : κ → κ') (pc : Nat) (c : List (Instr κ)) :
    starts pc (c.map (Instr.map f)) = starts pc c := by
  induction c generalizing pc with
  | nil => rfl
  | cons i c ih => simp [ih]

theorem first_mem_starts (pc : Nat) (c : List (Instr κ)) : pc ∈ starts pc c := by
  cases c <;> simp

theorem end_mem_starts (pc : Nat) (c : List (Instr κ)) : pc + size c ∈ starts pc c := by
  induction c generalizing pc with
  | nil => simp
  | cons i c ih =>
      have h := ih (pc + i.size)
      rw [Nat.add_assoc] at h
      simp [h]

theorem mem_starts_append {p pc : Nat} {c d : List (Instr κ)} :
    p ∈ starts pc (c ++ d) ↔ p ∈ starts pc c ∨ p ∈ starts (pc + size c) d := by
  induction c generalizing pc with
  | nil =>
      simp only [List.nil_append, size_nil, Nat.add_zero, starts_nil, List.mem_singleton]
      exact ⟨Or.inr, fun h => h.elim (fun h => h ▸ first_mem_starts pc d) id⟩
  | cons i c ih => simp [ih, or_assoc, Nat.add_assoc]

theorem mem_starts_append_cons {p pc : Nat} {i : Instr κ} {c d : List (Instr κ)} :
    p ∈ starts pc (c ++ i :: d) ↔
      p ∈ starts pc c ∨ p ∈ starts (pc + size c + i.size) d := by
  rw [mem_starts_append, starts_cons, List.mem_cons, ← or_assoc]
  exact or_congr_left (or_iff_left_of_imp fun h => h ▸ end_mem_starts pc c)

theorem bounds_of_mem_starts {p pc : Nat} {c : List (Instr κ)} (h : p ∈ starts pc c) :
    pc ≤ p ∧ p ≤ pc + size c := by
  induction c generalizing pc with
  | nil => simp_all
  | cons i c ih =>
      rcases List.mem_cons.mp h with rfl | h
      · simp
      · have := ih h
        simp only [size_cons]
        omega

/-- The instructions of code that stands at a place, with the places where they begin. -/
def located (pc : Nat) : List (Instr κ) → List (Nat × Instr κ)
  | [] => []
  | i :: c => (pc, i) :: located (pc + i.size) c

@[simp] theorem located_nil (pc : Nat) : located pc ([] : List (Instr κ)) = [] := rfl

@[simp] theorem located_cons (pc : Nat) (i : Instr κ) (c : List (Instr κ)) :
    located pc (i :: c) = (pc, i) :: located (pc + i.size) c := rfl

theorem located_append (pc : Nat) (c d : List (Instr κ)) :
    located pc (c ++ d) = located pc c ++ located (pc + size c) d := by
  induction c generalizing pc with
  | nil => rfl
  | cons i c ih => simp [ih, Nat.add_assoc]

theorem located_map (f : κ → κ') (pc : Nat) (c : List (Instr κ)) :
    located pc (c.map (Instr.map f)) = (located pc c).map fun (p, i) => (p, i.map f) := by
  induction c generalizing pc with
  | nil => rfl
  | cons i c ih => simp [ih]

theorem mem_located_map {f : κ → κ'} {p pc : Nat} {i : Instr κ'} {c : List (Instr κ)} :
    (p, i) ∈ located pc (c.map (Instr.map f)) ↔ ∃ j, (p, j) ∈ located pc c ∧ j.map f = i := by
  induction c generalizing pc with
  | nil => simp
  | cons j c ih =>
      simp only [List.map_cons, located_cons, List.mem_cons, Prod.mk.injEq, Instr.size_map, ih]
      constructor
      · rintro (⟨rfl, rfl⟩ | ⟨j', hj', rfl⟩)
        · exact ⟨j, .inl ⟨rfl, rfl⟩, rfl⟩
        · exact ⟨j', .inr hj', rfl⟩
      · rintro ⟨j', ⟨rfl, rfl⟩ | hj', rfl⟩
        · exact .inl ⟨rfl, rfl⟩
        · exact .inr ⟨j', hj', rfl⟩

theorem bounds_of_mem_located {p pc : Nat} {i : Instr κ} {c : List (Instr κ)}
    (h : (p, i) ∈ located pc c) : pc ≤ p ∧ p + i.size ≤ pc + size c := by
  induction c generalizing pc with
  | nil => cases h
  | cons j c ih =>
      rw [size_cons]
      rcases List.mem_cons.mp h with h | h
      · cases h
        omega
      · have := ih h
        omega

/-- Behind an instruction the next one begins, or the code ends. -/
theorem behind_mem_starts {p pc : Nat} {i : Instr κ} {c : List (Instr κ)}
    (h : (p, i) ∈ located pc c) : p + i.size ∈ starts pc c := by
  induction c generalizing pc with
  | nil => cases h
  | cons j c ih =>
      refine List.mem_cons_of_mem _ ?_
      rcases List.mem_cons.mp h with h | h
      · cases h
        exact first_mem_starts _ c
      · exact ih h

theorem mem_located_of_mem_starts {p pc : Nat} {c : List (Instr κ)} (h : p ∈ starts pc c) :
    p = pc + size c ∨ ∃ i, (p, i) ∈ located pc c := by
  induction c generalizing pc with
  | nil => exact .inl (List.mem_singleton.mp h)
  | cons j c ih =>
      rcases List.mem_cons.mp h with rfl | h
      · exact .inr ⟨j, List.mem_cons_self⟩
      · rw [size_cons, ← Nat.add_assoc]
        exact (ih h).imp_right fun ⟨i, hi⟩ => ⟨i, List.mem_cons_of_mem _ hi⟩

/-! ## Jumps -/

/-- Whether all jumps in code that stands at a place lead to where an instruction of it begins,
or to its end. -/
def JumpsInside (pc : Nat) (c : List (Instr κ)) : Prop :=
  ∀ i ∈ c, ∀ target, i.target? = some target → target ∈ starts pc c

/-- Whether all jumps in code that stands at a place lead further on. -/
def JumpsForward (pc : Nat) (c : List (Instr κ)) : Prop :=
  ∀ p i, (p, i) ∈ located pc c → ∀ target, i.target? = some target → p < target

/-- Whether code has no jumps. -/
def Straight (c : List (Instr κ)) : Prop :=
  ∀ i ∈ c, i.target? = none

@[simp] theorem straight_nil : Straight ([] : List (Instr κ)) := by
  simp [Straight]

@[simp] theorem straight_cons {i : Instr κ} {c : List (Instr κ)} :
    Straight (i :: c) ↔ i.target? = none ∧ Straight c := by
  simp [Straight]

theorem JumpsInside.append {pc : Nat} {c d : List (Instr κ)} (hc : JumpsInside pc c)
    (hd : JumpsInside (pc + size c) d) : JumpsInside pc (c ++ d) := by
  intro i hi target ht
  rw [mem_starts_append]
  rcases List.mem_append.mp hi with hi | hi
  · exact Or.inl (hc i hi target ht)
  · exact Or.inr (hd i hi target ht)

theorem JumpsForward.append {pc : Nat} {c d : List (Instr κ)} (hc : JumpsForward pc c)
    (hd : JumpsForward (pc + size c) d) : JumpsForward pc (c ++ d) := by
  intro p i hi
  rw [located_append] at hi
  rcases List.mem_append.mp hi with hi | hi
  · exact hc p i hi
  · exact hd p i hi

section Inside

variable {pc : Nat} {i j : Instr κ} {c d e : List (Instr κ)}

/-- Code with a jump over what stands behind. -/
theorem JumpsInside.jump_over (hc : JumpsInside pc c)
    (hd : JumpsInside (pc + size c + i.size) d)
    (hi : ∀ target, i.target? = some target → target = pc + size c + i.size + size d) :
    JumpsInside pc (c ++ i :: d) := by
  intro k hk target ht
  rw [mem_starts_append_cons]
  rcases List.mem_append.mp hk with hk | hk
  · exact .inl (hc k hk target ht)
  rcases List.mem_cons.mp hk with rfl | hk
  · exact .inr (hi target ht ▸ end_mem_starts _ d)
  · exact .inr (hd k hk target ht)

/-- Code with a jump to the second of two branches, and one over it. -/
theorem JumpsInside.branches (hc : JumpsInside pc c) (hd : JumpsInside (pc + size c + i.size) d)
    (he : JumpsInside (pc + size c + i.size + size d + j.size) e)
    (hi : i.target? = some (pc + size c + i.size + size d + j.size))
    (hj : j.target? = some (pc + size c + i.size + size d + j.size + size e)) :
    JumpsInside pc (c ++ i :: d ++ j :: e) := by
  have hplace : pc + size (c ++ i :: d) + j.size = pc + size c + i.size + size d + j.size := by
    simp [Nat.add_assoc]
  intro k hk target ht
  rw [mem_starts_append_cons, mem_starts_append_cons, hplace]
  rcases List.mem_append.mp hk with hk | hk
  · rcases List.mem_append.mp hk with hk | hk
    · exact .inl (.inl (hc k hk target ht))
    rcases List.mem_cons.mp hk with rfl | hk
    · rw [hi] at ht
      cases ht
      exact .inr (first_mem_starts _ e)
    · exact .inl (.inr (hd k hk target ht))
  rcases List.mem_cons.mp hk with rfl | hk
  · rw [hj] at ht
    cases ht
    exact .inr (end_mem_starts _ e)
  · exact .inr (he k hk target ht)

/-- Code with a jump out of a loop and one back to the test of it. -/
theorem JumpsInside.loop {start : Nat} (hc : JumpsInside pc c)
    (hd : JumpsInside (pc + size c + i.size) d) (hstart : start ∈ starts pc c)
    (hi : i.target? = some (pc + size c + i.size + size d + j.size))
    (hj : j.target? = some start) : JumpsInside pc (c ++ i :: d ++ [j]) := by
  have hplace : pc + size (c ++ i :: d) + j.size = pc + size c + i.size + size d + j.size := by
    simp [Nat.add_assoc]
  intro k hk target ht
  rw [mem_starts_append_cons, mem_starts_append_cons, hplace]
  rcases List.mem_append.mp hk with hk | hk
  · rcases List.mem_append.mp hk with hk | hk
    · exact .inl (.inl (hc k hk target ht))
    rcases List.mem_cons.mp hk with rfl | hk
    · rw [hi] at ht
      cases ht
      exact .inr (first_mem_starts _ [])
    · exact .inl (.inr (hd k hk target ht))
  · obtain rfl := List.mem_singleton.mp hk
    rw [hj] at ht
    cases ht
    exact .inl (.inl hstart)

/-- Code with a jump back at its end. -/
theorem JumpsInside.repeat {start : Nat} (hc : JumpsInside pc c) (hstart : start ∈ starts pc c)
    (hj : j.target? = some start) : JumpsInside pc (c ++ [j]) := by
  intro k hk target ht
  rw [mem_starts_append]
  rcases List.mem_append.mp hk with hk | hk
  · exact .inl (hc k hk target ht)
  · obtain rfl := List.mem_singleton.mp hk
    rw [hj] at ht
    cases ht
    exact .inl hstart

end Inside

theorem mem_of_mem_located {p pc : Nat} {i : Instr κ} {c : List (Instr κ)}
    (h : (p, i) ∈ located pc c) : i ∈ c := by
  induction c generalizing pc with
  | nil => cases h
  | cons j c ih =>
      rcases List.mem_cons.mp h with h | h
      · cases h
        exact List.mem_cons_self
      · exact List.mem_cons_of_mem _ (ih h)

theorem Straight.jumpsInside {c : List (Instr κ)} (h : Straight c) (pc : Nat) :
    JumpsInside pc c := by
  intro i hi target ht
  rw [h i hi] at ht
  cases ht

theorem Straight.jumpsForward {c : List (Instr κ)} (h : Straight c) (pc : Nat) :
    JumpsForward pc c := by
  intro p i hi target ht
  rw [h i (mem_of_mem_located hi)] at ht
  cases ht

theorem jumpsForward_singleton {pc : Nat} {i : Instr κ}
    (h : ∀ target, i.target? = some target → pc < target) : JumpsForward pc [i] := by
  intro p j hj target ht
  obtain ⟨rfl, rfl⟩ : p = pc ∧ j = i := by simpa using hj
  exact h target ht

theorem jumpsInside_map {pc : Nat} {c : List (Instr κ)} (f : κ → κ') :
    JumpsInside pc (c.map (Instr.map f)) ↔ JumpsInside pc c := by
  simp [JumpsInside]

end Code

end ProbeLang
