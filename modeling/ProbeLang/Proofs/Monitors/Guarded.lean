import ProbeLang.Proofs.Stack.Places

/-!
# Monitors along paths

A path through code goes from instruction to instruction, both ways where a jump depends on a value.
The monitors that it holds are those that it has entered and not left, each known by the place where
it was entered (`Code.Holds`).

In guarded code the monitors that a path holds at an instruction do not depend on the path: they are
those of the ranges around the place (`Code.around`), where a range goes from the instruction that
enters a monitor to the one that leaves it. As with the heights of the stack, monitors are given to
the places of code as it stands (`Code.Tracks`), and whether the jumps agree with them is composed
as the code is (`Code.Guarded`).
-/

namespace ProbeLang

open CodeM Code SymbolicCode

/-! ## Paths -/

namespace Instr

variable {κ κ' : Type}

/-- Whether an instruction enters or leaves a monitor. -/
def isMonitor : Instr κ → Bool
  | .monitorEnter | .monitorExit => true
  | _ => false

/-- Whether an instruction returns from the method. -/
def isReturn : Instr κ → Bool
  | .ret | .retValue => true
  | _ => false

/-- Whether an instruction neither works on monitors nor returns. -/
def Plain (i : Instr κ) : Prop :=
  i.isMonitor = false ∧ i.isReturn = false

theorem isReturn_map (f : κ → κ') (i : Instr κ) : (i.map f).isReturn = i.isReturn := by
  cases i <;> rfl

end Instr

namespace Code

variable {κ κ' : Type}

/-- A path through code from a place to another, with the instructions on it. -/
inductive Path (c : List (Instr κ)) : Nat → List (Nat × Instr κ) → Nat → Prop
  | nil (p : Nat) : Path c p [] p
  | cons {p q r : Nat} {i : Instr κ} {path : List (Nat × Instr κ)} : (p, i) ∈ located 0 c →
      q ∈ i.successors p → Path c q path r → Path c p ((p, i) :: path) r

/-- The range in which a monitor is held: the places of the instructions that enter and leave it. -/
structure LockRange where
  enter : Nat
  exit : Nat

/-- What an instruction at a place makes of the monitors that are held, last first. The one that is
left is the last one that was entered, and its range ends here. -/
inductive Hold (ranges : List LockRange) (p : Nat) : Instr κ → List Nat → List Nat → Prop
  | enter (held : List Nat) : Hold ranges p .monitorEnter held (p :: held)
  | exit {e : Nat} (held : List Nat) : ⟨e, p⟩ ∈ ranges → Hold ranges p .monitorExit (e :: held) held
  | other {i : Instr κ} (held : List Nat) : i.isMonitor = false → Hold ranges p i held held

/-- What the instructions on a path make of the monitors that are held. -/
inductive Holds (ranges : List LockRange) : List Nat → List (Nat × Instr κ) → List Nat → Prop
  | nil (held : List Nat) : Holds ranges held [] held
  | cons {p : Nat} {i : Instr κ} {path : List (Nat × Instr κ)} {held next last : List Nat} :
      Hold ranges p i held next → Holds ranges next path last →
        Holds ranges held ((p, i) :: path) last

/-! ## The ranges around a place -/

/-- Where the ranges around a place were entered, last first. -/
def around (ranges : List LockRange) (p : Nat) : List Nat :=
  ((ranges.filter fun b => b.enter < p ∧ p ≤ b.exit).map LockRange.enter).reverse

section Around

variable {ranges : List LockRange} {p : Nat}

theorem around_append (bs cs : List LockRange) (p : Nat) :
    around (bs ++ cs) p = around cs p ++ around bs p := by
  simp [around]

theorem around_cons (b : LockRange) (bs : List LockRange) (p : Nat) :
    around (b :: bs) p = around bs p ++ around [b] p :=
  around_append [b] bs p

theorem around_before (h : ∀ b ∈ ranges, p ≤ b.enter) : around ranges p = [] := by
  have hnone : ranges.filter (fun b => b.enter < p ∧ p ≤ b.exit) = [] :=
    List.filter_eq_nil_iff.mpr fun b hb => by
      have := h b hb
      simp only [decide_eq_true_eq]
      omega
  rw [around, hnone]
  rfl

theorem around_behind (h : ∀ b ∈ ranges, b.exit < p) : around ranges p = [] := by
  have hnone : ranges.filter (fun b => b.enter < p ∧ p ≤ b.exit) = [] :=
    List.filter_eq_nil_iff.mpr fun b hb => by
      have := h b hb
      simp only [decide_eq_true_eq]
      omega
  rw [around, hnone]
  rfl

theorem around_inside {b : LockRange} (h : b.enter < p) (h' : p ≤ b.exit) :
    around [b] p = [b.enter] := by
  simp [around, h, h']

end Around

/-- Whether every path through code from its entry to an instruction holds the monitors of the
ranges around it, and the returns in the code, in their order, stand in so many ranges. -/
structure Monitored (ranges : List LockRange) (depths : List Nat) (c : List (Instr κ)) : Prop where
  paths : ∀ path p i, Path c 0 path p → (p, i) ∈ located 0 c →
    Holds ranges [] path (around ranges p)
  returns : ((located 0 c).filter fun q => q.2.isReturn).map
    (fun q => (around ranges q.1).length) = depths

/-- Where no return stands in a range, a path from the entry to a return leaves every monitor that
it has entered. -/
theorem Monitored.balanced {ranges : List LockRange} {depths : List Nat} {c : List (Instr κ)}
    {path : List (Nat × Instr κ)} {p : Nat} {i : Instr κ} (h : Monitored ranges depths c)
    (hdepths : ∀ n ∈ depths, n = 0) (hpath : Path c 0 path p) (hi : (p, i) ∈ located 0 c)
    (hreturn : i.isReturn = true) : Holds ranges [] path [] := by
  have hheld := h.paths path p i hpath hi
  have hnone : (around ranges p).length = 0 := by
    refine hdepths _ ?_
    rw [← h.returns]
    exact List.mem_map.mpr ⟨(p, i), List.mem_filter.mpr ⟨hi, hreturn⟩, rfl⟩
  rwa [List.eq_nil_of_length_eq_zero hnone] at hheld

/-! ## Monitors as the code stands -/

/-- The monitors that are held behind an instruction, given those that are held before it. -/
def heldBehind (p : Nat) (held : List Nat) : Instr κ → List Nat
  | .monitorEnter => p :: held
  | .monitorExit => held.tail
  | _ => held

/-- Whether the monitors behind each instruction are what it makes of those before it. -/
def Tracks (held : Nat → List Nat) (pc : Nat) (c : List (Instr κ)) : Prop :=
  ∀ p i, (p, i) ∈ located pc c → held (p + i.size) = heldBehind p (held p) i

section Tracks

variable {held : Nat → List Nat} {pc : Nat} {i : Instr κ} {c d : List (Instr κ)}

theorem heldBehind_of_isMonitor (h : i.isMonitor = false) (p : Nat) (held : List Nat) :
    heldBehind p held i = held := by
  cases i <;> first | rfl | cases h

theorem Tracks.left (h : Tracks held pc (c ++ d)) : Tracks held pc c := by
  intro p i hi
  refine h p i ?_
  rw [located_append]
  exact List.mem_append_left _ hi

theorem Tracks.right (h : Tracks held pc (c ++ d)) : Tracks held (pc + size c) d := by
  intro p i hi
  refine h p i ?_
  rw [located_append]
  exact List.mem_append_right _ hi

theorem Tracks.head (h : Tracks held pc (i :: c)) :
    held (pc + i.size) = heldBehind pc (held pc) i :=
  h pc i List.mem_cons_self

theorem Tracks.tail (h : Tracks held pc (i :: c)) : Tracks held (pc + i.size) c :=
  fun p j hj => h p j (List.mem_cons_of_mem _ hj)

/-- Any code can be given the monitors that are held as it stands. -/
theorem exists_tracks (first : List Nat) (pc : Nat) :
    ∀ c : List (Instr κ), ∃ held : Nat → List Nat, held pc = first ∧ Tracks held pc c
  | [] => ⟨fun _ => first, rfl, nofun⟩
  | i :: c => by
      have hsize := i.size_pos
      obtain ⟨held, hstart, hfollows⟩ := exists_tracks (heldBehind pc first i) (pc + i.size) c
      refine ⟨fun p => if p = pc then first else held p, if_pos rfl, fun p j hj => ?_⟩
      have hsizej := j.size_pos
      rcases List.mem_cons.mp hj with hj | hj
      · obtain ⟨rfl, rfl⟩ := Prod.mk.inj hj
        dsimp only
        rw [if_neg (by omega), if_pos rfl, hstart]
      · have hbounds := bounds_of_mem_located hj
        dsimp only
        rw [if_neg (by omega), if_neg (by omega)]
        exact hfollows p j hj

theorem mem_starts_of_mem_located {p pc : Nat} {i : Instr κ} {c : List (Instr κ)}
    (h : (p, i) ∈ located pc c) : p ∈ starts pc c := by
  induction c generalizing pc with
  | nil => cases h
  | cons j c ih =>
      rcases List.mem_cons.mp h with h | h
      · obtain ⟨rfl, -⟩ := Prod.mk.inj h
        exact List.mem_cons_self
      · exact List.mem_cons_of_mem _ (ih h)

/-- Without monitors nothing changes. -/
theorem Tracks.same (h : Tracks held pc c) (hc : ∀ i ∈ c, i.isMonitor = false) :
    ∀ p ∈ starts pc c, held p = held pc := by
  induction c generalizing pc with
  | nil =>
      intro p hp
      rw [List.mem_singleton.mp hp]
  | cons i c ih =>
      obtain ⟨hi, hc⟩ := List.forall_mem_cons.mp hc
      intro p hp
      rcases List.mem_cons.mp hp with rfl | hp
      · rfl
      · rw [ih h.tail hc p hp, h.head, heldBehind_of_isMonitor hi]

end Tracks

/-! ## Guarded code -/

/-- Whether an instruction in a piece of code that begins with some monitors held is reached with
those of the ranges around it and leaves no monitor but theirs, and a jump leads to where the same
monitors are held. -/
structure Guards (held : Nat → List Nat) (ranges : List LockRange) (first : List Nat) (p : Nat)
    (i : Instr κ) : Prop where
  around : held p = Code.around ranges p ++ first
  holds : Hold ranges p i (held p) (held (p + i.size))
  target : ∀ t, i.target? = some t → held t = held p

/-- Whether code holds in the end what it holds at first, all its instructions guard the monitors of
its ranges, and its returns are in so many ranges. -/
structure Guarded (held : Nat → List Nat) (ranges : List LockRange) (depths : List Nat) (pc : Nat)
    (c : List (Instr κ)) : Prop where
  stays : held (pc + size c) = held pc
  within : ∀ b ∈ ranges, pc ≤ b.enter ∧ b.enter < b.exit ∧ b.exit < pc + size c
  guards : ∀ p i, (p, i) ∈ located pc c → Guards held ranges (held pc) p i
  returns : ((located pc c).filter fun q => q.2.isReturn).map (fun q => (held q.1).length) = depths

theorem Hold.mono {bs cs : List LockRange} {p : Nat} {i : Instr κ} {held next : List Nat}
    (h : Hold bs p i held next) (hbs : bs ⊆ cs) : Hold cs p i held next := by
  cases h with
  | enter => exact .enter held
  | exit _ hb => exact .exit next (hbs hb)
  | other _ hi => exact .other held hi

namespace Guarded

variable {held : Nat → List Nat} {ranges ranges' : List LockRange} {depths depths' : List Nat}
  {pc t : Nat} {i j : Instr κ} {c d e : List (Instr κ)}

theorem nil : Guarded held [] [] pc ([] : List (Instr κ)) :=
  ⟨rfl, nofun, nofun, rfl⟩

theorem append (hc : Guarded held ranges depths pc c)
    (hd : Guarded held ranges' depths' (pc + size c) d) :
    Guarded held (ranges ++ ranges') (depths ++ depths') pc (c ++ d) := by
  constructor
  · rw [size_append, ← Nat.add_assoc, hd.stays, hc.stays]
  · intro b hb
    rw [size_append]
    rcases List.mem_append.mp hb with hb | hb
    · have := hc.within b hb
      omega
    · have := hd.within b hb
      omega
  · intro p i hi
    rw [located_append] at hi
    rcases List.mem_append.mp hi with hi | hi
    · obtain ⟨haround, hholds, htarget⟩ := hc.guards p i hi
      have hlater : Code.around ranges' p = [] := by
        refine around_before fun b hb => ?_
        have := bounds_of_mem_located hi
        have := hd.within b hb
        omega
      refine ⟨?_, hholds.mono (List.subset_append_left _ _), htarget⟩
      rw [around_append, hlater]
      exact haround
    · obtain ⟨haround, hholds, htarget⟩ := hd.guards p i hi
      have hearlier : Code.around ranges p = [] := by
        refine around_behind fun b hb => ?_
        have := bounds_of_mem_located hi
        have := hc.within b hb
        omega
      refine ⟨?_, hholds.mono (List.subset_append_right _ _), htarget⟩
      rw [around_append, hearlier, List.append_nil, haround, hc.stays]
  · rw [located_append, List.filter_append, List.map_append, hc.returns, hd.returns]

/-- Code without monitors and returns whose jumps stay in it. -/
theorem plain (hf : Tracks held pc c) (hc : ∀ i ∈ c, i.Plain) (hin : JumpsInside pc c) :
    Guarded held [] [] pc c := by
  have hsame := hf.same fun i hi => (hc i hi).1
  constructor
  · exact hsame _ (end_mem_starts pc c)
  · exact nofun
  · intro p i hi
    have hplace := hsame p (mem_starts_of_mem_located hi)
    have hplain := (hc i (mem_of_mem_located hi)).1
    refine ⟨hplace, ?_, fun t ht => ?_⟩
    · rw [hf p i hi, heldBehind_of_isMonitor hplain]
      exact .other _ hplain
    · rw [hplace]
      exact hsame t (hin i (mem_of_mem_located hi) t ht)
  · have hnone : (located pc c).filter (fun q => q.2.isReturn) = [] :=
      List.filter_eq_nil_iff.mpr fun q hq => by
        rw [(hc q.2 (mem_of_mem_located hq)).2]
        exact Bool.false_ne_true
    rw [hnone]
    rfl

/-- An instruction that does not work on monitors. -/
theorem instr (hf : Tracks held pc [i]) (hi : i.isMonitor = false)
    (ht : ∀ t, i.target? = some t → held t = held pc) :
    Guarded held [] (if i.isReturn then [(held pc).length] else []) pc [i] := by
  have hnext : held (pc + i.size) = held pc := by
    rw [hf.head, heldBehind_of_isMonitor hi]
  refine ⟨hnext, nofun, fun p j hj => ?_, ?_⟩
  · obtain ⟨rfl, rfl⟩ := Prod.mk.inj (List.mem_singleton.mp hj)
    refine ⟨rfl, ?_, ht⟩
    rw [hnext]
    exact .other _ hi
  · cases hr : i.isReturn <;> simp [located, hr]

/-- Code with a jump over what stands behind. -/
theorem jump_over (hf : Tracks held pc (c ++ i :: d)) (hc : Guarded held [] [] pc c)
    (hi : i.Plain)
    (hd : held (pc + size c + i.size) = held pc → Tracks held (pc + size c + i.size) d →
      Guarded held ranges depths (pc + size c + i.size) d)
    (ht : i.target? = some (pc + size c + i.size + size d)) :
    Guarded held ranges depths pc (c ++ i :: d) := by
  have hnext : held (pc + size c + i.size) = held (pc + size c) := by
    rw [hf.right.head, heldBehind_of_isMonitor hi.1]
  have hd := hd (hnext.trans hc.stays) hf.right.tail
  have hfirst : Tracks held (pc + size c) [i] := Tracks.left (d := d) hf.right
  have hjump := instr hfirst hi.1 fun t h => by
    rw [ht] at h
    cases h
    rw [hd.stays, hnext]
  rw [hi.2] at hjump
  exact hc.append (hjump.append hd)

/-- Code that tests a value with a jump to the second of two branches. Between them stands a jump
over it, or back to the test. -/
theorem branches (hf : Tracks held pc (c ++ i :: d ++ j :: e)) (hc : Guarded held [] [] pc c)
    (hi : i.Plain)
    (hd : held (pc + size c + i.size) = held pc → Tracks held (pc + size c + i.size) d →
      Guarded held ranges depths (pc + size c + i.size) d)
    (hj : j.Plain)
    (he : held (pc + size c + i.size + size d + j.size) = held pc →
      Tracks held (pc + size c + i.size + size d + j.size) e →
      Guarded held ranges' depths' (pc + size c + i.size + size d + j.size) e)
    (hit : i.target? = some (pc + size c + i.size + size d + j.size)) (hjt : j.target? = some t)
    (ht : t = pc ∨ t = pc + size c + i.size + size d + j.size + size e) :
    Guarded held (ranges ++ ranges') (depths ++ depths') pc (c ++ i :: d ++ j :: e) := by
  have hplace : pc + size (c ++ i :: d) = pc + size c + i.size + size d := by
    simp [Nat.add_assoc]
  have hfj := hf.right
  rw [hplace] at hfj
  have hnext : held (pc + size c + i.size) = held (pc + size c) := by
    rw [hf.left.right.head, heldBehind_of_isMonitor hi.1]
  have hd := hd (hnext.trans hc.stays) hf.left.right.tail
  have hover : held (pc + size c + i.size + size d + j.size) =
      held (pc + size c + i.size + size d) := by
    rw [hfj.head, heldBehind_of_isMonitor hj.1]
  have hboth : held (pc + size c + i.size + size d + j.size) = held (pc + size c) := by
    rw [hover, hd.stays, hnext]
  have he := he (hboth.trans hc.stays) hfj.tail
  have hfirst : Guarded held [] [] (pc + size c) [i] := by
    have hjump := instr (i := i) (Tracks.left (d := d) hf.left.right) hi.1 fun t h => by
      rw [hit] at h
      cases h
      exact hboth
    rwa [hi.2] at hjump
  have hsecond : Guarded held [] [] (pc + size c + i.size + size d) [j] := by
    have hjump := instr (i := j) (Tracks.left (d := e) hfj) hj.1 fun t' h => by
      rw [hjt] at h
      cases h
      rcases ht with rfl | rfl
      · rw [hd.stays, hnext, hc.stays]
      · rw [he.stays, hover]
    rwa [hj.2] at hjump
  have hleft : Guarded held ranges depths pc (c ++ i :: d) := hc.append (hfirst.append hd)
  refine hleft.append ?_
  rw [hplace]
  exact hsecond.append he

/-- Code with a jump back to its beginning. -/
theorem loop (hf : Tracks held pc (c ++ [i])) (hc : Guarded held ranges depths pc c)
    (hi : i.Plain) (ht : i.target? = some pc) : Guarded held ranges depths pc (c ++ [i]) := by
  have hjump := instr (i := i) hf.right hi.1 fun t h => by
    rw [ht] at h
    cases h
    exact hc.stays.symm
  rw [hi.2] at hjump
  have hboth := hc.append hjump
  rwa [if_neg Bool.false_ne_true, List.append_nil, List.append_nil] at hboth

/-! Code that enters a monitor, with code behind which it leaves it. -/

theorem size_lock (c d : List (Instr κ)) (slot : UInt16) :
    size (c ++ .monitorEnter :: d ++ [.load slot, .monitorExit]) = size c + 1 + size d + 3 + 1 := by
  simp [Instr.size, Nat.add_assoc]

theorem located_lock (pc : Nat) (c d : List (Instr κ)) (slot : UInt16) :
    located pc (c ++ .monitorEnter :: d ++ [.load slot, .monitorExit]) =
      located pc c ++ (pc + size c, .monitorEnter) :: located (pc + size c + 1) d ++
        [(pc + size c + 1 + size d, .load slot),
          (pc + size c + 1 + size d + 3, .monitorExit)] := by
  have hplace : pc + size (c ++ .monitorEnter :: d) = pc + size c + 1 + size d := by
    simp [Instr.size, Nat.add_assoc]
  rw [located_append, located_append, hplace]
  rfl

theorem lock {slot : UInt16}
    (hf : Tracks held pc (c ++ .monitorEnter :: d ++ [.load slot, .monitorExit]))
    (hc : Guarded held [] [] pc c)
    (hd : held (pc + size c + 1) = (pc + size c) :: held pc → Tracks held (pc + size c + 1) d →
      Guarded held ranges depths (pc + size c + 1) d) :
    Guarded held (⟨pc + size c, pc + size c + 1 + size d + 3⟩ :: ranges) depths pc
      (c ++ .monitorEnter :: d ++ [.load slot, .monitorExit]) := by
  have hlocated := located_lock pc c d slot
  have hsize : pc + size (c ++ .monitorEnter :: d ++ [.load slot, .monitorExit]) =
      pc + size c + 1 + size d + 3 + 1 := by
    rw [size_lock]
    omega
  -- What is held behind each part.
  have hstep := fun p i hi => hf p i (hlocated ▸ hi)
  have henter : held (pc + size c + 1) = (pc + size c) :: held pc := by
    have := hstep (pc + size c) .monitorEnter (by simp)
    rwa [heldBehind, hc.stays] at this
  have hd := hd henter hf.left.right.tail
  have hbody : held (pc + size c + 1 + size d) = (pc + size c) :: held pc := by
    rw [hd.stays, henter]
  have hload : held (pc + size c + 1 + size d + 3) = (pc + size c) :: held pc := by
    rw [← hbody]
    exact hstep _ (.load slot) (by simp)
  have hexit : held (pc + size c + 1 + size d + 3 + 1) = held pc := by
    have := hstep (pc + size c + 1 + size d + 3) .monitorExit (by simp)
    rwa [heldBehind, hload] at this
  -- The ranges around the places before the monitor is entered, in the body, and behind it.
  have hbefore {p : Nat} (hp : p ≤ pc + size c) :
      Code.around (⟨pc + size c, pc + size c + 1 + size d + 3⟩ :: ranges) p = [] := by
    refine around_before fun b hb => ?_
    rcases List.mem_cons.mp hb with rfl | hb
    · exact hp
    · have := hd.within b hb
      omega
  have hinside {p : Nat} (hp : pc + size c < p) (hp' : p ≤ pc + size c + 1 + size d + 3) :
      Code.around (⟨pc + size c, pc + size c + 1 + size d + 3⟩ :: ranges) p =
        Code.around ranges p ++ [pc + size c] := by
    rw [around_cons, around_inside hp hp']
  have hbehind {p : Nat} (hp : pc + size c + 1 + size d ≤ p) : Code.around ranges p = [] := by
    refine around_behind fun b hb => ?_
    have := hd.within b hb
    omega
  constructor
  · rw [hsize, hexit]
  · intro b hb
    rw [hsize]
    rcases List.mem_cons.mp hb with rfl | hb
    · dsimp only
      omega
    · have := hd.within b hb
      omega
  · intro p i hi
    rw [hlocated] at hi
    simp only [List.mem_append, List.mem_cons, List.not_mem_nil, or_false, Prod.mk.injEq] at hi
    rcases hi with (hi | ⟨rfl, rfl⟩ | hi) | ⟨rfl, rfl⟩ | ⟨rfl, rfl⟩
    · obtain ⟨haround, hholds, htarget⟩ := hc.guards p i hi
      have := bounds_of_mem_located hi
      refine ⟨?_, hholds.mono (List.nil_subset _), htarget⟩
      rw [hbefore (by omega)]
      exact haround
    · refine ⟨?_, ?_, fun _ h => by cases h⟩
      · rw [hbefore (Nat.le_refl _)]
        exact hc.stays
      · rw [show (Instr.monitorEnter : Instr κ).size = 1 from rfl, henter, hc.stays]
        exact .enter _
    · obtain ⟨haround, hholds, htarget⟩ := hd.guards p i hi
      have := bounds_of_mem_located hi
      have := i.size_pos
      refine ⟨?_, hholds.mono (List.subset_cons_self _ _), htarget⟩
      rw [hinside (by omega) (by omega), haround, henter, List.append_assoc]
      rfl
    · refine ⟨?_, ?_, fun _ h => by cases h⟩
      · rw [hinside (by omega) (by omega), hbehind (Nat.le_refl _), hbody]
        rfl
      · rw [show (Instr.load slot : Instr κ).size = 3 from rfl, hbody, hload]
        exact .other _ rfl
    · refine ⟨?_, ?_, fun _ h => by cases h⟩
      · rw [hinside (by omega) (by omega), hbehind (by omega), hload]
        rfl
      · rw [show (Instr.monitorExit : Instr κ).size = 1 from rfl, hload, hexit]
        exact .exit _ List.mem_cons_self
  · have hreturns := hd.returns
    rw [hlocated, List.filter_append, List.filter_append, List.map_append, List.map_append,
      hc.returns]
    simpa [Instr.isReturn] using hreturns

end Guarded

/-! ## Guarded code along paths -/

section Map

variable {held : Nat → List Nat} {ranges : List LockRange} {depths : List Nat} {pc : Nat}
  {f : κ → κ'}

theorem hold_map {p : Nat} {i : Instr κ} {first next : List Nat} :
    Hold ranges p (i.map f) first next ↔ Hold ranges p i first next := by
  constructor
  · intro h
    generalize hj : i.map f = j at h
    cases h with
    | enter =>
        cases i <;> cases hj
        exact .enter first
    | exit _ hb =>
        cases i <;> cases hj
        exact .exit next hb
    | other _ hi =>
        refine .other first ?_
        subst hj
        cases i <;> first | rfl | cases hi
  · rintro (_ | ⟨_, hb⟩ | ⟨_, hi⟩)
    · exact .enter first
    · exact .exit next hb
    · refine .other first ?_
      cases i <;> first | rfl | cases hi

theorem guarded_map {c : List (Instr κ)} :
    Guarded held ranges depths pc (c.map (Instr.map f)) ↔ Guarded held ranges depths pc c := by
  have hreturns : ((located pc (c.map (Instr.map f))).filter fun q => q.2.isReturn).map
        (fun q => (held q.1).length) =
      ((located pc c).filter fun q => q.2.isReturn).map (fun q => (held q.1).length) := by
    rw [located_map, List.filter_map, List.map_map]
    simp only [Function.comp_def, Instr.isReturn_map]
  constructor
  · rintro ⟨hstays, hwithin, hguards, hdepths⟩
    rw [size_map] at hstays hwithin
    refine ⟨hstays, hwithin, fun p i hi => ?_, hreturns.symm.trans hdepths⟩
    have hi' := mem_located_map.mpr ⟨i, hi, (rfl : i.map f = i.map f)⟩
    obtain ⟨haround, hholds, htarget⟩ := hguards p (i.map f) hi'
    rw [hold_map, Instr.size_map] at hholds
    rw [Instr.target?_map] at htarget
    exact ⟨haround, hholds, htarget⟩
  · rintro ⟨hstays, hwithin, hguards, hdepths⟩
    rw [← size_map f] at hstays hwithin
    refine ⟨hstays, hwithin, fun p j hj => ?_, hreturns.trans hdepths⟩
    obtain ⟨i, hi, rfl⟩ := mem_located_map.mp hj
    obtain ⟨haround, hholds, htarget⟩ := hguards p i hi
    refine ⟨haround, ?_, ?_⟩
    · rwa [hold_map, Instr.size_map]
    · rwa [Instr.target?_map]

end Map

section Paths

variable {held : Nat → List Nat} {ranges : List LockRange} {depths : List Nat} {c : List (Instr κ)}

/-- A jump leaves the monitors as they are. -/
theorem Hold.of_target {p t : Nat} {i : Instr κ} {first next : List Nat}
    (h : Hold ranges p i first next) (ht : i.target? = some t) : next = first := by
  cases h with
  | enter => cases ht
  | exit => cases ht
  | other => rfl

/-- What is held along a path is what is held at the places on it. -/
theorem Guarded.path {p q : Nat} {path : List (Nat × Instr κ)} (h : Guarded held ranges depths 0 c)
    (hpath : Path c p path q) : Holds ranges (held p) path (held q) := by
  induction hpath with
  | nil p => exact .nil _
  | @cons p next q i path hi hnext _ ih =>
      obtain ⟨-, hholds, htarget⟩ := h.guards p i hi
      refine .cons hholds ?_
      rcases Instr.mem_successors hnext with rfl | ht
      · exact ih
      · rwa [hholds.of_target ht, ← htarget _ ht]

theorem Guarded.monitored (h : Guarded held ranges depths 0 c) (hentry : held 0 = []) :
    Monitored ranges depths c := by
  have haround {p : Nat} {i : Instr κ} (hi : (p, i) ∈ located 0 c) :
      held p = Code.around ranges p := by
    rw [(h.guards p i hi).around, hentry, List.append_nil]
  constructor
  · intro path p i hpath hi
    have hheld := h.path hpath
    rwa [hentry, haround hi] at hheld
  · rw [← h.returns]
    refine List.map_congr_left fun q hq => ?_
    rw [haround (List.mem_of_mem_filter hq)]

end Paths

end Code

end ProbeLang
