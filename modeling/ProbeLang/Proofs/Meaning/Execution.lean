import ProbeLang.Proofs.Code.WellFormed
import ProbeLang.Proofs.Meaning.Simulation

/-!
# Running the methods of an artifact

A machine runs the bytes of a method: it reads an instruction where it stands, with the constants of
the class. On the method of a declaration in the fragment it comes to what the declaration means,
and runs for ever exactly if the declaration does.
-/

namespace ProbeLang

open Code Status

/-- The instructions of a method, by the places of its bytes, with the constants of its class. -/
def MethodInfo.fetch (pool : ConstantPool) (m : MethodInfo) : Fetch :=
  fun pc => (Instr.read? (m.code.drop pc)).map fun (i, _) => i.map fun k => pool.get? k.toNat

/-! ## Reading where a machine stands -/

theorem Code.drop_encode {pc p : Nat} {i : Instr UInt16} {c : Code}
    (h : (p, i) ∈ located pc c) :
    ∃ rest, c.encode.drop (p - pc) = i.encode ++ rest := by
  induction c generalizing pc with
  | nil => cases h
  | cons j c ih =>
      have hcons : encode (j :: c) = j.encode ++ encode c := rfl
      rcases List.mem_cons.mp h with h | h
      · cases h
        exact ⟨encode c, by rw [Nat.sub_self, List.drop_zero, hcons]⟩
      · obtain ⟨rest, hrest⟩ := ih h
        have hle := (bounds_of_mem_located h).1
        refine ⟨rest, ?_⟩
        rw [← hrest, hcons, List.drop_append, List.drop_eq_nil_of_le, List.nil_append,
          Instr.length_encode]
        · congr 1
          omega
        · rw [Instr.length_encode]
          omega

namespace MethodInfo.WellFormed

variable {pool : ConstantPool} {m : MethodInfo} {code : Code} {sym : SymbolicMethod}

/-- The jumps of code that is read back fit their operands. -/
theorem targetsFit (h : m.WellFormed pool code sym) (hlength : m.code.length < 0x100000000) :
    TargetsFit code := by
  intro i hi target ht
  have hbounds := bounds_of_mem_starts (h.jumps i hi target ht)
  rw [← h.encode, Code.length_encode] at hlength
  omega

/-- A machine finds the symbolic code of a method in its bytes. -/
theorem holds (h : m.WellFormed pool code sym) (hlength : m.code.length < 0x100000000) :
    (m.fetch pool).Holds 0 sym.code := by
  intro q hq
  obtain ⟨p, i⟩ := q
  have hfits := h.targetsFit hlength
  have hmem : (p, i.map some) ∈ located 0 (resolve pool code) := by
    rw [h.constants]
    exact mem_located_map.mpr ⟨i, hq, rfl⟩
  obtain ⟨j, hj, hi⟩ := mem_located_map.mp hmem
  obtain ⟨rest, hrest⟩ := drop_encode hj
  rw [Nat.sub_zero, h.encode] at hrest
  have hread := Instr.read?_encode j rest (hfits j (mem_of_mem_located hj))
  simp only [fetch, hrest, hread, Option.map_some, hi]

/-- Behind the code of a method there is nothing to run. -/
theorem fetch_end (h : m.WellFormed pool code sym) : m.fetch pool (size sym.code) = none := by
  have hsize : size code = size sym.code := by
    have hsame := congrArg size h.constants
    rwa [resolve, SymbolicCode.resolved, size_map, size_map] at hsame
  have hle : m.code.length ≤ size sym.code :=
    Nat.le_of_eq (by rw [← h.encode, Code.length_encode, hsize])
  have hread : Instr.read? (m.code.drop (size sym.code)) = none := by
    rw [List.drop_eq_nil_of_le hle, Instr.read?]
  simp only [fetch, hread, Option.map_none]

end MethodInfo.WellFormed

/-! ## Methods -/

section

variable {V : Type} {I : Interpretation V} {fetch : Fetch}

/-- What a machine comes to at the end of a method. -/
def Outcome.final (ret : Ty) : Outcome V → Status V
  | .next l => if ret = .void then .returned none l else .stuck
  | .returned value l => .returned value l
  | .fault => .stuck

theorem Outcome.ended_final (ret : Ty) (o : Outcome V) : (o.final ret).Ended := by
  rcases o with l | ⟨value, l⟩ | _
  · rw [final]
    by_cases hret : ret = .void
    · rw [if_pos hret]
      trivial
    · rw [if_neg hret]
      trivial
  · trivial
  · trivial

theorem MethodDecl.returns_iff {m : MethodDecl} {ret : Ty} {l l' : Slots V} {value : Option V} :
    m.Returns I ret l value l' ↔
      ∃ rounds o, Stmt.execAll I rounds m.body.body l = some o ∧
        o.final ret = .returned value l' := by
  constructor
  · rintro ⟨rounds, h | ⟨hret, rfl, h⟩⟩
    · exact ⟨rounds, _, h, rfl⟩
    · exact ⟨rounds, _, h, if_pos hret⟩
  · rintro ⟨rounds, o, h, ho⟩
    refine ⟨rounds, ?_⟩
    rcases o with l₁ | ⟨value₁, l₁⟩ | _
    · by_cases hret : ret = .void
      · rw [Outcome.final, if_pos hret] at ho
        cases ho
        exact .inr ⟨hret, rfl, h⟩
      · rw [Outcome.final, if_neg hret] at ho
        cases ho
    · cases ho
      exact .inl h
    · cases ho

/-- Whether the code behind the body of a method ends the method. -/
def Fetch.Closes (fetch : Fetch) (ret : Ty) (stop : Nat) : Prop :=
  if ret = .void then fetch.Holds stop [.ret] else fetch stop = none

theorem Status.Meets.final {s : Status V} {stop k : Nat} {ret : Ty} {o : Outcome V}
    (h : Meets I fetch stop k s (some o)) (hclose : fetch.Closes ret stop) :
    Reaches I fetch s (o.final ret) := by
  rcases o with l | ⟨value, l⟩ | _
  · obtain ⟨stack, h⟩ := h
    refine h.trans ?_
    rw [Fetch.Closes] at hclose
    rw [Outcome.final]
    by_cases hret : ret = .void
    · rw [if_pos hret] at hclose ⊢
      exact hclose.reaches stack l
    · rw [if_neg hret] at hclose ⊢
      exact ⟨1, by simp only [Status.run, Status.step, hclose]⟩
  · exact h
  · exact h

variable {m : MethodDecl} {sig : MethodSig}

/-- The body of a method in the fragment, with the code that stands behind it. -/
theorem MethodDecl.code_meets (hlocal : Stmt.allLocal m.body.body = true)
    (hslots : ∀ d ∈ Stmt.allLocalVars m.body.body, d.slot.isSome = true)
    (hn : m.firstLock sig ≤ 65536) (hcode : fetch.Holds 0 (m.code sig))
    (hend : fetch (size (m.code sig)) = none) :
    ∃ stop, fetch.Closes sig.ret stop ∧ ∀ rounds l,
      Meets I fetch stop rounds (.running 0 [] l) (Stmt.execAll I rounds m.body.body l) := by
  have hneeded : Stmt.allSlotsNeeded 0 m.body.body ≤ 65536 :=
    Nat.le_trans (Nat.le_max_right _ _) hn
  obtain ⟨hbody, hret⟩ := Fetch.Holds.append_iff.mp hcode
  refine ⟨_, ?_, fun rounds l => Stmt.codeAll_meets _ hlocal hslots hneeded hbody rounds [] l⟩
  unfold Fetch.Closes
  by_cases hvoid : sig.ret = .void
  · rw [if_pos hvoid] at hret ⊢
    exact hret
  · rw [if_neg hvoid]
    rw [MethodDecl.code, if_neg hvoid, List.append_nil] at hend
    rwa [Nat.zero_add]

/-- A machine returns from the code of a method in the fragment with what the method returns, and
runs for ever if the method does. -/
theorem MethodDecl.code_refines (hlocal : Stmt.allLocal m.body.body = true)
    (hslots : ∀ d ∈ Stmt.allLocalVars m.body.body, d.slot.isSome = true)
    (hn : m.firstLock sig ≤ 65536) (hcode : fetch.Holds 0 (m.code sig))
    (hend : fetch (size (m.code sig)) = none) (l : Slots V) :
    (∀ value l', Reaches I fetch (.running 0 [] l) (.returned value l') ↔
      m.Returns I sig.ret l value l') ∧
    (Status.RunsForever I fetch (.running 0 [] l) ↔ m.RunsForever I l) := by
  obtain ⟨stop, hclose, hmeets⟩ := code_meets (I := I) hlocal hslots hn hcode hend
  have hfinal {rounds : Nat} {o : Outcome V} (ho : Stmt.execAll I rounds m.body.body l = some o) :
      Reaches I fetch (.running 0 [] l) (o.final sig.ret) := by
    have hbody := hmeets rounds l
    rw [ho] at hbody
    exact hbody.final hclose
  have hforever (h : m.RunsForever I l) (k : Nat) : Outlasts I fetch k (.running 0 [] l) := by
    have hbody := hmeets k l
    rwa [h k] at hbody
  refine ⟨fun value l' => ⟨fun h => ?_, fun h => ?_⟩, fun h rounds => ?_, fun h => ?_⟩
  · by_cases hnone : m.RunsForever I l
    · exact absurd h (Outlasts.not_reaches (hforever hnone) trivial)
    · obtain ⟨rounds, hsome⟩ := not_forall.mp hnone
      obtain ⟨o, ho⟩ := Option.ne_none_iff_exists'.mp hsome
      exact returns_iff.mpr ⟨rounds, o, ho, (hfinal ho).unique h (o.ended_final _) trivial⟩
  · obtain ⟨rounds, o, ho, heq⟩ := returns_iff.mp h
    exact heq ▸ hfinal ho
  · rcases ho : Stmt.execAll I rounds m.body.body l with _ | o
    · rfl
    · exact absurd (hfinal ho) (Outlasts.not_reaches (runsForever_iff.mp h) (o.ended_final _))
  · exact runsForever_iff.mpr (hforever h)

end

end ProbeLang
