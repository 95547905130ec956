import ProbeLang.Proofs.Code.Layout
import ProbeLang.Ty

/-!
# Heights of the operand stack

Every instruction takes some values from the stack and leaves some; a call takes one for each
parameter in the descriptor that its constant ends with. A height is assigned to every place in code
by following the instructions as they stand (`Code.Linear`). Whether the jumps agree with these
heights is a property of a piece of code by itself, its effect (`Code.HasEffect`), and effects are
composed as the code is.
-/

namespace ProbeLang

/-- The signature at the end of a constant that names a method. -/
def referredSignature? (reference : String) : Option (List Ty × Ty) :=
  readMethodDescriptor (String.ofList (reference.toList.dropWhile (· ≠ '(')))

/-- How many values a method takes for its parameters and how many it gives back. -/
def callEffect? (reference : String) : Option (Nat × Nat) :=
  (referredSignature? reference).map fun (params, ret) =>
    (params.length, if ret = .void then 0 else 1)

namespace Instr

variable {κ κ' : Type}

/-- How many values an instruction takes from the stack and how many it leaves, given those of the
method that it calls. -/
def effect? (call : κ → Option (Nat × Nat)) : Instr κ → Option (Nat × Nat)
  | .jump _ | .ret => some (0, 0)
  | .pushInt _ | .pushLong _ | .pushConst _ | .pushNull | .load _ | .getStatic _ | .new _ =>
      some (0, 1)
  | .store _ | .putStatic _ | .jumpIfFalse _ | .jumpIfTrue _ | .retValue | .throw
  | .monitorEnter | .monitorExit | .pop => some (1, 0)
  | .getField _ | .newArray _ | .arrayLength | .neg | .not => some (1, 1)
  | .dup => some (1, 2)
  | .putField _ => some (2, 0)
  | .arrayLoad | .add | .sub | .mul | .div | .rem | .cmpEq | .cmpNe | .cmpLt | .cmpLe | .cmpGt
  | .cmpGe | .concat => some (2, 1)
  | .dupX1 => some (2, 3)
  | .arrayStore => some (3, 0)
  | .dupX2 => some (3, 4)
  | .invokeStatic c => call c
  | .invoke c => (call c).map fun (pops, pushes) => (pops + 1, pushes)

/-- The places that may come behind an instruction at a place. -/
def successors (pc : Nat) (i : Instr κ) : List Nat :=
  match i with
  | .jump target => [target]
  | .jumpIfFalse target | .jumpIfTrue target => [target, pc + i.size]
  | .ret | .retValue | .throw => []
  | _ => [pc + i.size]

theorem effect?_map (call : κ' → Option (Nat × Nat)) (f : κ → κ') (i : Instr κ) :
    (i.map f).effect? call = i.effect? fun c => call (f c) := by
  cases i <;> rfl

theorem successors_map (f : κ → κ') (pc : Nat) (i : Instr κ) :
    (i.map f).successors pc = i.successors pc := by
  cases i <;> rfl

/-- Behind an instruction comes the next one or what it jumps to. -/
theorem mem_successors {pc q : Nat} {i : Instr κ} (h : q ∈ i.successors pc) :
    q = pc + i.size ∨ i.target? = some q := by
  cases i <;> simp [successors, target?] at h ⊢ <;> first | exact .inl h | grind

end Instr

namespace Code

variable {κ κ' : Type}

/-- Whether heights of the stack at the places of code agree with what its instructions do: each one
finds what it takes, and wherever it leads to, the height is what it leaves. -/
structure Stacked (call : κ → Option (Nat × Nat)) (c : List (Instr κ)) (height : Nat → Nat) :
    Prop where
  entry : height 0 = 0
  steps : ∀ p i, (p, i) ∈ located 0 c → ∃ pops pushes, i.effect? call = some (pops, pushes) ∧
    pops ≤ height p ∧ ∀ q ∈ i.successors p, height q = height p - pops + pushes

theorem stacked_map {call : κ' → Option (Nat × Nat)} {f : κ → κ'} {c : List (Instr κ)}
    {height : Nat → Nat} :
    Stacked call (c.map (Instr.map f)) height ↔ Stacked (fun k => call (f k)) c height := by
  constructor
  · rintro ⟨hentry, hsteps⟩
    refine ⟨hentry, fun p i hi => ?_⟩
    have hi' := mem_located_map.mpr ⟨i, hi, (rfl : i.map f = i.map f)⟩
    obtain ⟨pops, pushes, heffect, hpops, hnext⟩ := hsteps p (i.map f) hi'
    rw [Instr.effect?_map] at heffect
    rw [Instr.successors_map] at hnext
    exact ⟨pops, pushes, heffect, hpops, hnext⟩
  · rintro ⟨hentry, hsteps⟩
    refine ⟨hentry, fun p i hi => ?_⟩
    obtain ⟨j, hj, rfl⟩ := mem_located_map.mp hi
    rw [Instr.effect?_map, Instr.successors_map]
    exact hsteps p j hj

/-! ## Heights as the code stands -/

/-- Whether the height behind each instruction is what it leaves. -/
def Linear (call : κ → Option (Nat × Nat)) (height : Nat → Nat) (pc : Nat) (c : List (Instr κ)) :
    Prop :=
  ∀ p i, (p, i) ∈ located pc c → ∀ pops pushes, i.effect? call = some (pops, pushes) →
    height (p + i.size) = height p - pops + pushes

section Linear

variable {call : κ → Option (Nat × Nat)} {height : Nat → Nat} {pc : Nat} {c d : List (Instr κ)}

theorem Linear.left (h : Linear call height pc (c ++ d)) : Linear call height pc c := by
  intro p i hi
  refine h p i ?_
  rw [located_append]
  exact List.mem_append_left _ hi

theorem Linear.right (h : Linear call height pc (c ++ d)) :
    Linear call height (pc + size c) d := by
  intro p i hi
  refine h p i ?_
  rw [located_append]
  exact List.mem_append_right _ hi

/-- Any code can be given heights as it stands. -/
theorem exists_linear (call : κ → Option (Nat × Nat)) (h : Nat) (pc : Nat) :
    ∀ c : List (Instr κ), ∃ height : Nat → Nat, height pc = h ∧ Linear call height pc c
  | [] => ⟨fun _ => h, rfl, nofun⟩
  | i :: c => by
      have hsize := i.size_pos
      obtain ⟨next, hnext⟩ : ∃ next, ∀ pops pushes, i.effect? call = some (pops, pushes) →
          next = h - pops + pushes := by
        cases i.effect? call with
        | none => exact ⟨0, nofun⟩
        | some e => exact ⟨h - e.1 + e.2, fun _ _ he => by cases he; rfl⟩
      obtain ⟨height, hstart, hlinear⟩ := exists_linear call next (pc + i.size) c
      refine ⟨fun p => if p = pc then h else height p, if_pos rfl, fun p j hj pops pushes he => ?_⟩
      have hsizej := j.size_pos
      rcases List.mem_cons.mp hj with hj | hj
      · obtain ⟨rfl, rfl⟩ := Prod.mk.inj hj
        dsimp only
        rw [if_neg (by omega), if_pos rfl, hstart, hnext pops pushes he]
      · have hbounds := bounds_of_mem_located hj
        dsimp only
        rw [if_neg (by omega), if_neg (by omega)]
        exact hlinear p j hj pops pushes he

end Linear

/-! ## Effects -/

/-- Whether an instruction at a place finds what it takes, and the heights at its target and behind
it are the same. -/
def Fits (call : κ → Option (Nat × Nat)) (height : Nat → Nat) (p : Nat) (i : Instr κ) : Prop :=
  (∃ pops pushes, i.effect? call = some (pops, pushes) ∧ pops ≤ height p) ∧
    ∀ target, i.target? = some target → height target = height (p + i.size)

/-- Whether code at a place takes `a` values from the stack and leaves `b`, and all its instructions
find what they take. -/
def HasEffect (call : κ → Option (Nat × Nat)) (pc : Nat) (c : List (Instr κ)) (a b : Nat) : Prop :=
  ∀ height, Linear call height pc c → a ≤ height pc →
    height (pc + size c) = height pc - a + b ∧ ∀ p i, (p, i) ∈ located pc c → Fits call height p i

/-- Code that needs nothing on the stack gets heights. -/
theorem HasEffect.stacked {call : κ → Option (Nat × Nat)} {c : List (Instr κ)} {b : Nat}
    {height : Nat → Nat} (h : HasEffect call 0 c 0 b) (hlinear : Linear call height 0 c)
    (hentry : height 0 = 0) : Stacked call c height where
  entry := hentry
  steps p i hi := by
    obtain ⟨⟨pops, pushes, heffect, hpops⟩, htarget⟩ :=
      (h height hlinear (Nat.zero_le _)).2 p i hi
    have hbehind := hlinear p i hi pops pushes heffect
    refine ⟨pops, pushes, heffect, hpops, fun q hq => ?_⟩
    rcases Instr.mem_successors hq with rfl | hq
    · exact hbehind
    · exact (htarget q hq).trans hbehind

section Effects

variable {call : κ → Option (Nat × Nat)} {pc a b k m n : Nat} {i j : Instr κ}
  {c d e : List (Instr κ)}

theorem HasEffect.nil : HasEffect call pc [] 0 0 :=
  fun _ _ _ => ⟨rfl, nofun⟩

/-- A single instruction that does not jump. -/
theorem HasEffect.instr (h : i.effect? call = some (a, b)) (ht : i.target? = none) :
    HasEffect call pc [i] a b := by
  intro height hlinear ha
  refine ⟨hlinear pc i List.mem_cons_self a b h, fun p j hj => ?_⟩
  obtain ⟨rfl, rfl⟩ := Prod.mk.inj (List.mem_singleton.mp hj)
  refine ⟨⟨a, b, h, ha⟩, fun target htarget => ?_⟩
  rw [ht] at htarget
  cases htarget

/-- Code behind which other code uses some of the values that are left. -/
theorem HasEffect.append (hc : HasEffect call pc c a m) (hd : HasEffect call (pc + size c) d k n)
    (hk : k ≤ m) (hb : b = m - k + n) : HasEffect call pc (c ++ d) a b := by
  intro height hlinear ha
  obtain ⟨hend, hfits⟩ := hc height hlinear.left ha
  obtain ⟨hend', hfits'⟩ := hd height hlinear.right (by omega)
  constructor
  · rw [size_append, ← Nat.add_assoc, hend', hend]
    omega
  · intro p i hi
    rw [located_append] at hi
    exact (List.mem_append.mp hi).elim (hfits p i) (hfits' p i)

/-- Code with a jump over code that leaves the height as it is. -/
theorem HasEffect.jump_over (hc : HasEffect call pc c a m) (hi : i.effect? call = some (1, 0))
    (hd : HasEffect call (pc + size c + i.size) d k k) (hk : k + 1 ≤ m) (hb : b = m - 1)
    (ht : i.target? = some (pc + size c + i.size + size d)) :
    HasEffect call pc (c ++ i :: d) a b := by
  intro height hlinear ha
  obtain ⟨hend, hfits⟩ := hc height hlinear.left ha
  have hjump : height (pc + size c + i.size) = height (pc + size c) - 1 + 0 :=
    hlinear.right (pc + size c) i List.mem_cons_self 1 0 hi
  have hrest : Linear call height (pc + size c + i.size) d := by
    intro p j hj
    exact hlinear.right p j (List.mem_cons_of_mem _ hj)
  obtain ⟨hend', hfits'⟩ := hd height hrest (by omega)
  have hover : height (pc + size c + i.size + size d) = height (pc + size c + i.size) := by
    rw [hend']
    omega
  constructor
  · rw [size_append, size_cons, ← Nat.add_assoc, ← Nat.add_assoc, hover, hjump, hend]
    omega
  · intro p j hj
    rw [located_append] at hj
    rcases List.mem_append.mp hj with hj | hj
    · exact hfits p j hj
    rcases List.mem_cons.mp hj with hj | hj
    · obtain ⟨rfl, rfl⟩ := Prod.mk.inj hj
      refine ⟨⟨1, 0, hi, by omega⟩, fun target htarget => ?_⟩
      rw [ht] at htarget
      cases htarget
      exact hover
    · exact hfits' p j hj

/-- Code that tests a value with a jump to the second of two branches. Between them stands a jump
over it, or back to the test. -/
theorem HasEffect.branches {target : Nat} (hc : HasEffect call pc c 0 1) (hi : i.effect? call = some (1, 0))
    (hd : HasEffect call (pc + size c + i.size) d 0 0) (hj : j.effect? call = some (0, 0))
    (he : HasEffect call (pc + size c + i.size + size d + j.size) e 0 0)
    (hit : i.target? = some (pc + size c + i.size + size d + j.size))
    (hjt : j.target? = some target)
    (htarget : target = pc ∨ target = pc + size c + i.size + size d + j.size + size e) :
    HasEffect call pc (c ++ i :: d ++ j :: e) 0 0 := by
  intro height hlinear ha
  obtain ⟨hend, hfits⟩ := hc height hlinear.left.left ha
  have hcond : height (pc + size c + i.size) = height (pc + size c) - 1 + 0 :=
    hlinear.left.right (pc + size c) i List.mem_cons_self 1 0 hi
  have hfirst : Linear call height (pc + size c + i.size) d := fun p k hk =>
    hlinear.left.right p k (List.mem_cons_of_mem _ hk)
  obtain ⟨hend', hfits'⟩ := hd height hfirst (Nat.zero_le _)
  have hplace : pc + size (c ++ i :: d) = pc + size c + i.size + size d := by
    simp [Nat.add_assoc]
  have hright := hlinear.right
  rw [hplace] at hright
  have hover : height (pc + size c + i.size + size d + j.size) =
      height (pc + size c + i.size + size d) - 0 + 0 :=
    hright _ j List.mem_cons_self 0 0 hj
  have hsecond : Linear call height (pc + size c + i.size + size d + j.size) e := fun p k hk =>
    hright p k (List.mem_cons_of_mem _ hk)
  obtain ⟨hend'', hfits''⟩ := he height hsecond (Nat.zero_le _)
  constructor
  · have hsize : pc + size (c ++ i :: d ++ j :: e) =
        pc + size c + i.size + size d + j.size + size e := by
      simp [Nat.add_assoc]
    rw [hsize]
    omega
  · intro p k hk
    rw [located_append, hplace] at hk
    rcases List.mem_append.mp hk with hk | hk
    · rw [located_append] at hk
      rcases List.mem_append.mp hk with hk | hk
      · exact hfits p k hk
      rcases List.mem_cons.mp hk with hk | hk
      · obtain ⟨rfl, rfl⟩ := Prod.mk.inj hk
        refine ⟨⟨1, 0, hi, by omega⟩, fun target ht => ?_⟩
        rw [hit] at ht
        cases ht
        omega
      · exact hfits' p k hk
    · rcases List.mem_cons.mp hk with hk | hk
      · obtain ⟨rfl, rfl⟩ := Prod.mk.inj hk
        refine ⟨⟨0, 0, hj, Nat.zero_le _⟩, fun target' ht => ?_⟩
        rw [hjt] at ht
        cases ht
        rcases htarget with rfl | rfl <;> omega
      · exact hfits'' p k hk

/-- Code that leaves the height as it is, with a jump back to its beginning. -/
theorem HasEffect.repeat (hc : HasEffect call pc c 0 0) (hi : i.effect? call = some (0, 0))
    (ht : i.target? = some pc) : HasEffect call pc (c ++ [i]) 0 0 := by
  intro height hlinear ha
  obtain ⟨hend, hfits⟩ := hc height hlinear.left ha
  have hjump : height (pc + size c + i.size) = height (pc + size c) - 0 + 0 :=
    hlinear.right _ i List.mem_cons_self 0 0 hi
  constructor
  · rw [size_append, ← Nat.add_assoc, size_cons, size_nil, Nat.add_zero]
    omega
  · intro p j hj
    rw [located_append] at hj
    rcases List.mem_append.mp hj with hj | hj
    · exact hfits p j hj
    · obtain ⟨rfl, rfl⟩ := Prod.mk.inj (List.mem_singleton.mp hj)
      refine ⟨⟨0, 0, hi, Nat.zero_le _⟩, fun target htarget => ?_⟩
      rw [ht] at htarget
      cases htarget
      omega

end Effects

end Code

end ProbeLang
