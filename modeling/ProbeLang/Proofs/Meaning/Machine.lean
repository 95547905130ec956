import ProbeLang.Proofs.Code.Layout
import ProbeLang.Proofs.Meaning.Source

/-!
# Stack machines

What the instructions do that need neither objects nor arrays. A machine has a place in the code, a
stack and the slots of the method. It goes on until it returns, or is stuck: where there is no
instruction, where an instruction finds too few values, and where an operator has no result.

A run has no bound. `Reaches` tells that a machine comes from one status to another, `Outlasts` that
it is still running after a number of steps.
-/

namespace ProbeLang

variable {V : Type}

/-- What a machine has come to. -/
inductive Status (V : Type)
  | running (pc : Nat) (stack : List V) (l : Slots V)
  | returned (value : Option V) (l : Slots V)
  | stuck

/-- The instruction at every place where one begins. A constant is its text, if it has one. -/
abbrev Fetch := Nat → Option (Instr (Option String))

namespace Instr

variable (I : Interpretation V)

/-- What an instruction leaves on a stack that does nothing but work on it. -/
def work? {κ : Type} (text : κ → Option String) : Instr κ → List V → Option (List V)
  | .pushInt n, stack => some (I.int n :: stack)
  | .pushLong n, stack => some (I.long n :: stack)
  | .pushConst c, stack => (text c).map fun s => I.text s :: stack
  | .pushNull, stack => some (I.null :: stack)
  | .neg, v :: stack => (I.unary .neg v).map (· :: stack)
  | .not, v :: stack => (I.unary .not v).map (· :: stack)
  | .add, b :: a :: stack => (I.binary .add a b).map (· :: stack)
  | .sub, b :: a :: stack => (I.binary .sub a b).map (· :: stack)
  | .mul, b :: a :: stack => (I.binary .mul a b).map (· :: stack)
  | .div, b :: a :: stack => (I.binary .div a b).map (· :: stack)
  | .rem, b :: a :: stack => (I.binary .rem a b).map (· :: stack)
  | .cmpEq, b :: a :: stack => (I.binary .eq a b).map (· :: stack)
  | .cmpNe, b :: a :: stack => (I.binary .ne a b).map (· :: stack)
  | .cmpLt, b :: a :: stack => (I.binary .lt a b).map (· :: stack)
  | .cmpLe, b :: a :: stack => (I.binary .le a b).map (· :: stack)
  | .cmpGt, b :: a :: stack => (I.binary .gt a b).map (· :: stack)
  | .cmpGe, b :: a :: stack => (I.binary .ge a b).map (· :: stack)
  | .concat, b :: a :: stack => (I.concat a b).map (· :: stack)
  | .pop, _ :: stack => some stack
  | .dup, v :: stack => some (v :: v :: stack)
  | _, _ => none

/-- What a machine comes to with an instruction that works on the slots or says where the code goes
on. -/
def control (next : Nat) (l : Slots V) : Instr (Option String) → List V → Status V
  | .load slot, stack => .running next (l slot.toNat :: stack) l
  | .store slot, v :: stack => .running next stack (l.set slot.toNat v)
  | .jump target, stack => .running target stack l
  | .jumpIfFalse target, v :: stack => .running (if I.isTrue v then next else target) stack l
  | .jumpIfTrue target, v :: stack => .running (if I.isTrue v then target else next) stack l
  | .ret, _ => .returned none l
  | .retValue, v :: _ => .returned (some v) l
  | _, _ => .stuck

/-- What a machine comes to with an instruction behind which the code goes on at `next`. -/
def exec (next : Nat) (stack : List V) (l : Slots V) (i : Instr (Option String)) : Status V :=
  match i.work? I id stack with
  | some stack => .running next stack l
  | none => i.control I next l stack

section

variable {I} {next target : Nat} {stack : List V} {l : Slots V} {slot : UInt16} {v : V}

@[simp]
theorem exec_load : exec I next stack l (.load slot) = .running next (l slot.toNat :: stack) l :=
  rfl

@[simp]
theorem exec_store :
    exec I next (v :: stack) l (.store slot) = .running next stack (l.set slot.toNat v) :=
  rfl

@[simp]
theorem exec_jumpIfFalse : exec I next (v :: stack) l (.jumpIfFalse target) =
    .running (if I.isTrue v then next else target) stack l :=
  rfl

@[simp]
theorem exec_jumpIfTrue : exec I next (v :: stack) l (.jumpIfTrue target) =
    .running (if I.isTrue v then target else next) stack l :=
  rfl

end

end Instr

namespace Status

variable (I : Interpretation V) (fetch : Fetch)

/-- A step of a machine. One that has ended stays as it is. -/
def step : Status V → Status V
  | .running pc stack l =>
      match fetch pc with
      | some i => i.exec I (pc + i.size) stack l
      | none => .stuck
  | s => s

/-- A number of steps. -/
def run : Nat → Status V → Status V
  | 0, s => s
  | n + 1, s => run n (s.step I fetch)

/-- Whether a machine comes from one status to another. -/
def Reaches (s t : Status V) : Prop :=
  ∃ n, s.run I fetch n = t

/-- Whether a machine is still running after a number of steps. -/
def Outlasts (k : Nat) (s : Status V) : Prop :=
  ∃ n pc stack l, k ≤ n ∧ s.run I fetch n = .running pc stack l

/-- Whether a machine runs for ever. -/
def RunsForever (s : Status V) : Prop :=
  ∀ n, ∃ pc stack l, s.run I fetch n = .running pc stack l

/-- Whether a machine has ended. -/
def Ended : Status V → Prop
  | .running _ _ _ => False
  | _ => True

end Status

namespace Status

variable {I : Interpretation V} {fetch : Fetch} {s t u : Status V} {k m n : Nat}

theorem run_add (m n : Nat) (s : Status V) :
    s.run I fetch (m + n) = (s.run I fetch m).run I fetch n := by
  induction m generalizing s with
  | zero => rw [Nat.zero_add, run]
  | succ m ih => rw [Nat.succ_add, run, run, ih]

theorem run_of_ended (h : s.Ended) (n : Nat) : s.run I fetch n = s := by
  induction n with
  | zero => rfl
  | succ n ih =>
      rw [run]
      cases s with
      | running => exact h.elim
      | returned | stuck => exact ih

namespace Reaches

theorem refl (s : Status V) : Reaches I fetch s s :=
  ⟨0, rfl⟩

theorem trans (h : Reaches I fetch s t) (h' : Reaches I fetch t u) : Reaches I fetch s u := by
  obtain ⟨m, rfl⟩ := h
  obtain ⟨n, rfl⟩ := h'
  exact ⟨m + n, run_add m n s⟩

/-- A machine ends in one way only. -/
theorem unique (h : Reaches I fetch s t) (h' : Reaches I fetch s u) (ht : t.Ended)
    (hu : u.Ended) : t = u := by
  obtain ⟨m, rfl⟩ := h
  obtain ⟨n, rfl⟩ := h'
  rw [← run_of_ended ht n, ← run_add, Nat.add_comm, run_add, run_of_ended hu]

end Reaches

namespace Outlasts

theorem mono (h : Outlasts I fetch k s) (hm : m ≤ k) : Outlasts I fetch m s := by
  obtain ⟨n, pc, stack, l, hk, hrun⟩ := h
  exact ⟨n, pc, stack, l, Nat.le_trans hm hk, hrun⟩

theorem of_running (pc : Nat) (stack : List V) (l : Slots V) :
    Outlasts I fetch 0 (.running pc stack l) :=
  ⟨0, pc, stack, l, Nat.le_refl 0, rfl⟩

theorem of_reaches (h : Reaches I fetch s t) (h' : Outlasts I fetch k t) :
    Outlasts I fetch k s := by
  obtain ⟨m, rfl⟩ := h
  obtain ⟨n, pc, stack, l, hk, hrun⟩ := h'
  exact ⟨m + n, pc, stack, l, by omega, by rw [run_add, hrun]⟩

/-- A step makes a machine last longer. -/
theorem of_step (h : Outlasts I fetch k (s.step I fetch)) : Outlasts I fetch (k + 1) s := by
  obtain ⟨n, pc, stack, l, hk, hrun⟩ := h
  exact ⟨n + 1, pc, stack, l, by omega, hrun⟩

/-- A machine that has ended does not last. -/
theorem not_reaches (h : ∀ k, Outlasts I fetch k s) (ht : t.Ended) : ¬ Reaches I fetch s t := by
  rintro ⟨m, hm⟩
  obtain ⟨n, pc, stack, l, hn, hrun⟩ := h m
  obtain ⟨more, rfl⟩ := Nat.exists_eq_add_of_le hn
  rw [run_add, hm, run_of_ended ht] at hrun
  subst hrun
  exact ht

end Outlasts

theorem runsForever_iff : RunsForever I fetch s ↔ ∀ k, Outlasts I fetch k s := by
  constructor
  · intro h k
    obtain ⟨pc, stack, l, hrun⟩ := h k
    exact ⟨k, pc, stack, l, Nat.le_refl k, hrun⟩
  · intro h n
    rcases hrun : s.run I fetch n with ⟨pc, stack, l⟩ | ⟨value, l⟩ | _
    · exact ⟨pc, stack, l, rfl⟩
    · exact absurd ⟨n, hrun⟩ (Outlasts.not_reaches (t := .returned value l) h trivial)
    · exact absurd ⟨n, hrun⟩ (Outlasts.not_reaches (t := .stuck) h trivial)

end Status

/-! ## Code at a place -/

/-- Whether code stands at a place. -/
def Fetch.Holds (fetch : Fetch) (pc : Nat) (c : List (Instr String)) : Prop :=
  ∀ q ∈ Code.located pc c, fetch q.1 = some (q.2.map some)

namespace Fetch.Holds

variable {fetch : Fetch} {pc : Nat} {i : Instr String} {c d : List (Instr String)}

theorem append_iff : fetch.Holds pc (c ++ d) ↔
    fetch.Holds pc c ∧ fetch.Holds (pc + Code.size c) d := by
  rw [Holds, Code.located_append, List.forall_mem_append]
  rfl

theorem cons_iff : fetch.Holds pc (i :: c) ↔
    fetch pc = some (i.map some) ∧ fetch.Holds (pc + i.size) c := by
  rw [Holds, Code.located, List.forall_mem_cons]
  rfl

theorem nil : fetch.Holds pc [] :=
  List.forall_mem_nil _

/-- An instruction of code that stands at a place takes one step. -/
theorem step {I : Interpretation V} (h : fetch.Holds pc (i :: c)) (stack : List V)
    (l : Slots V) : (Status.running pc stack l).step I fetch =
      (i.map some).exec I (pc + i.size) stack l := by
  simp only [Status.step, (cons_iff.mp h).1, Instr.size_map]

theorem reaches {I : Interpretation V} (h : fetch.Holds pc (i :: c)) (stack : List V)
    (l : Slots V) : Status.Reaches I fetch (.running pc stack l)
      ((i.map some).exec I (pc + i.size) stack l) :=
  ⟨1, h.step stack l⟩

end Fetch.Holds

end ProbeLang
