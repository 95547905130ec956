import ProbeLang.Proofs.Artifact.RoundTrip

/-!
# What can be written

Every length in an artifact has two or four bytes. A class can be written exactly when all of
these suffice: there are few enough texts, each of them is short enough, and so are the tables and
the code. Nothing else fails.
-/

namespace ProbeLang

variable {ε α β : Type}

/-- When a step succeeds whose second part does not depend on what the first gives. -/
theorem except_bind_ok_iff {x : Except ε α} {f : α → Except ε β} {P Q : Prop}
    (h : (∃ a, x = .ok a) ↔ P) (h' : ∀ a, x = .ok a → ((∃ b, f a = .ok b) ↔ Q)) :
    (∃ b, (x >>= f) = .ok b) ↔ P ∧ Q := by
  constructor
  · rintro ⟨b, hb⟩
    obtain ⟨a, ha, hf⟩ := except_bind_ok hb
    exact ⟨h.mp ⟨a, ha⟩, (h' a ha).mp ⟨b, hf⟩⟩
  · rintro ⟨hP, hQ⟩
    obtain ⟨a, rfl⟩ := h.mpr hP
    exact (h' a rfl).mpr hQ

theorem except_map_ok_iff {x : Except ε α} {g : α → β} {P : Prop} (h : (∃ a, x = .ok a) ↔ P) :
    (∃ b, (x >>= fun a => pure (g a)) = .ok b) ↔ P :=
  (except_bind_ok_iff h fun _ _ => iff_of_true ⟨_, rfl⟩ trivial).trans (and_iff_left trivial)

namespace ClassFile

/-! ## Tables and texts -/

theorem tableLength_ok_iff (n : Nat) : (∃ k, tableLength n = .ok k) ↔ n ≤ 65535 := by
  unfold tableLength
  split
  · exact iff_of_true ⟨_, rfl⟩ (by omega)
  · exact iff_of_false nofun (by omega)

theorem tableBytes_ok_iff (row : α → Bytes) (rows : List α) :
    (∃ bytes, tableBytes row rows = .ok bytes) ↔ rows.length ≤ 65535 :=
  except_map_ok_iff (tableLength_ok_iff rows.length)

theorem length_ofString (s : String) : (Bytes.ofString s).length = s.utf8ByteSize := by
  simp [Bytes.ofString]

theorem textBytes_ok_iff (s : String) :
    (∃ bytes, textBytes s = .ok bytes) ↔ s.utf8ByteSize ≤ 65535 := by
  rw [← length_ofString]
  exact except_map_ok_iff (tableLength_ok_iff (Bytes.ofString s).length)

theorem poolBytes_ok_iff (done : List Bytes) (texts : List String) :
    (∃ bytes, poolBytes done texts = .ok bytes) ↔ ∀ s ∈ texts, s.utf8ByteSize ≤ 65535 := by
  induction texts generalizing done with
  | nil => exact iff_of_true ⟨_, rfl⟩ (List.forall_mem_nil _)
  | cons s rest ih =>
      rw [List.forall_mem_cons]
      exact except_bind_ok_iff (textBytes_ok_iff s) fun b _ => ih (b :: done)

/-! ## Methods -/

theorem methodBytes_ok_iff (m : MethodInfo) (name descriptor : UInt16) :
    (∃ bytes, methodBytes m name descriptor = .ok bytes) ↔
      m.code.length < 4294967296 ∧ m.lines.length ≤ 65535 := by
  unfold methodBytes
  split
  · next hcode => exact iff_of_false nofun fun h => by omega
  · next hcode =>
      refine Iff.trans ?_ (and_iff_right (by omega)).symm
      exact except_map_ok_iff (tableBytes_ok_iff _ m.lines)

theorem methodsBytes_ok_iff (done : List Bytes) (rows : List (MethodInfo × UInt16 × UInt16)) :
    (∃ bytes, methodsBytes done rows = .ok bytes) ↔
      ∀ m ∈ rows.map Prod.fst, m.code.length < 4294967296 ∧ m.lines.length ≤ 65535 := by
  induction rows generalizing done with
  | nil => exact iff_of_true ⟨_, rfl⟩ (List.forall_mem_nil _)
  | cons row rest ih =>
      obtain ⟨m, n, d⟩ := row
      rw [List.map_cons, List.forall_mem_cons]
      exact except_bind_ok_iff (methodBytes_ok_iff m n d) fun b _ => ih (b :: done)

/-! ## Classes -/

/-- Whether all that a class consists of can be counted. -/
structure Countable (c : ClassFile) : Prop where
  names : c.allNames.length ≤ 65535
  texts : ∀ s ∈ c.allNames, s.utf8ByteSize ≤ 65535
  nested : c.nested.length ≤ 65535
  fields : c.fields.length ≤ 65535
  methods : c.methods.length ≤ 65535
  code : ∀ m ∈ c.methods, m.code.length < 4294967296
  lines : ∀ m ∈ c.methods, m.lines.length ≤ 65535

/-- The rows of the tables are those of the class. -/
theorem indices_ok {c : ClassFile} {x : Indices} {pool : ConstantPool} (hp : c.pool.Fits)
    (h : c.indices = .ok (x, pool)) :
    pool.Fits ∧ x.nested.length = c.nested.length ∧ x.fields.map Prod.fst = c.fields ∧
      x.methods.map Prod.fst = c.methods := by
  obtain ⟨⟨this, p₁⟩, h₁, h⟩ := except_bind_ok h
  obtain ⟨⟨superclass, p₂⟩, h₂, h⟩ := except_bind_ok h
  obtain ⟨⟨outer, p₃⟩, h₃, h⟩ := except_bind_ok h
  obtain ⟨⟨nested, p₄⟩, h₄, h⟩ := except_bind_ok h
  obtain ⟨⟨fields, p₅⟩, h₅, h⟩ := except_bind_ok h
  obtain ⟨⟨methods, p₆⟩, h₆, h⟩ := except_bind_ok h
  cases h
  have fits₁ := (ConstantPool.intern_eq_ok hp h₁).1
  have fits₂ := (optionalIndex_ok fits₁ h₂).1
  have fits₃ := (optionalIndex_ok fits₂ h₃).1
  obtain ⟨fits₄, -, is, rfl, hnested, -⟩ := internAll_ok c.nested fits₃ h₄
  obtain ⟨fits₅, -, _, rfl, hfields, -⟩ := memberIndices_ok c.fields fits₄ h₅
  obtain ⟨fits₆, -, _, rfl, hmethods, -⟩ := memberIndices_ok c.methods fits₅ h₆
  exact ⟨fits₆, by simp [← hnested], hfields, hmethods⟩

theorem bytes_ok_iff (x : Indices) (c : ClassFile) (pool : ConstantPool) :
    (∃ bytes, x.bytes c pool = .ok bytes) ↔
      pool.toList.length ≤ 65535 ∧ (∀ s ∈ pool.toList, s.utf8ByteSize ≤ 65535) ∧
      x.nested.length ≤ 65535 ∧ x.fields.length ≤ 65535 ∧ x.methods.length ≤ 65535 ∧
      ∀ m ∈ x.methods.map Prod.fst, m.code.length < 4294967296 ∧ m.lines.length ≤ 65535 := by
  rw [ConstantPool.length_toList]
  refine except_bind_ok_iff (tableLength_ok_iff _) fun _ _ => ?_
  refine except_bind_ok_iff (poolBytes_ok_iff [] _) fun _ _ => ?_
  refine except_bind_ok_iff (tableBytes_ok_iff _ _) fun _ _ => ?_
  refine except_bind_ok_iff (tableBytes_ok_iff _ _) fun _ _ => ?_
  refine except_bind_ok_iff (tableLength_ok_iff _) fun _ _ => ?_
  exact except_map_ok_iff (methodsBytes_ok_iff [] x.methods)

/-- A class is written exactly when all of it can be counted. -/
theorem encode_ok_iff {c : ClassFile} (hp : c.pool.Fits) :
    (∃ bytes, c.encode = .ok bytes) ↔ c.Countable := by
  rw [encode_eq]
  constructor
  · rintro ⟨bytes, hbytes⟩
    obtain ⟨⟨x, pool⟩, hindices, hbytes⟩ := except_bind_ok hbytes
    obtain ⟨-, hnested, hfields, hmethods⟩ := indices_ok hp hindices
    have hnames := toList_of_indices hindices
    obtain ⟨h₁, h₂, h₃, h₄, h₅, h₆⟩ := (bytes_ok_iff x c pool).mp ⟨bytes, hbytes⟩
    rw [hnames] at h₁ h₂
    rw [hmethods] at h₆
    have hfieldCount := congrArg List.length hfields
    have hmethodCount := congrArg List.length hmethods
    rw [List.length_map] at hfieldCount hmethodCount
    exact ⟨h₁, h₂, hnested ▸ h₃, hfieldCount ▸ h₄, hmethodCount ▸ h₅, fun m hm => (h₆ m hm).1,
      fun m hm => (h₆ m hm).2⟩
  · intro hc
    have hcount : (ConstantPool.addNames c.pool.toList c.headerNames).length ≤ 65535 := by
      rw [ConstantPool.addNames_eq]
      exact hc.names
    obtain ⟨x, pool, hindices⟩ := c.interns_indices.succeeds hcount
    obtain ⟨-, hnested, hfields, hmethods⟩ := indices_ok hp hindices
    have hnames := toList_of_indices hindices
    have hfieldCount := congrArg List.length hfields
    have hmethodCount := congrArg List.length hmethods
    rw [List.length_map] at hfieldCount hmethodCount
    obtain ⟨bytes, hbytes⟩ := (bytes_ok_iff x c pool).mpr ⟨hnames ▸ hc.names, hnames ▸ hc.texts,
      hnested ▸ hc.nested, hfieldCount ▸ hc.fields, hmethodCount ▸ hc.methods,
      hmethods ▸ fun m hm => ⟨hc.code m hm, hc.lines m hm⟩⟩
    exact ⟨bytes, by rw [hindices]; exact hbytes⟩

end ClassFile

/-! ## Pools as they are made -/

/-- A pool that was made text by text, or in reading an artifact. -/
inductive ConstantPool.Made : ConstantPool → Prop
  | empty : Made .empty
  | intern {p q : ConstantPool} {s : String} {i : UInt16} :
      Made p → p.intern s = .ok (i, q) → Made q
  | decode {bytes : Bytes} {c : ClassFile} : ClassFile.decode bytes = .ok c → Made c.pool

namespace ClassFile

theorem length_of_rows {row : Read α} {n : Nat} {done xs : List α} {bytes rest : Bytes}
    (h : (Read.rows row n done).run bytes = .ok (xs, rest)) : xs.length = done.length + n := by
  induction n generalizing done bytes with
  | zero =>
      obtain ⟨rfl, -⟩ := pure_ok h
      simp
  | succ n ih =>
      obtain ⟨a, bytes', -, h⟩ := bind_ok h
      rw [ih h, List.length_cons]
      omega

theorem length_of_table {row : Read α} {xs : List α} {bytes rest : Bytes}
    (h : (Read.table row).run bytes = .ok (xs, rest)) : xs.length ≤ 65535 := by
  obtain ⟨n, bytes', -, h⟩ := bind_ok h
  have hn := n.toNat_lt
  rw [length_of_rows h, List.length_nil]
  omega

/-- The pool of an artifact has no more texts than its length can tell. -/
theorem fits_of_decode {c : ClassFile} {bytes : Bytes} (h : decode bytes = .ok c) :
    c.pool.Fits := by
  obtain ⟨⟨c', rest⟩, hread, h⟩ := except_bind_ok h
  have hc : c' = c := by
    dsimp only at h
    split at h
    · exact Except.ok.inj h
    · cases h
  subst hc
  obtain ⟨magic, _, -, hread⟩ := bind_ok hread
  split at hread
  · cases hread
  obtain ⟨level, _, -, hread⟩ := bind_ok hread
  split at hread
  case h_2 => cases hread
  obtain ⟨constants, _, hconstants, hread⟩ := bind_ok hread
  obtain ⟨flags, _, -, hread⟩ := bind_ok hread
  obtain ⟨this, _, -, hread⟩ := bind_ok hread
  obtain ⟨superclass, _, -, hread⟩ := bind_ok hread
  obtain ⟨outer, _, -, hread⟩ := bind_ok hread
  obtain ⟨nested, _, -, hread⟩ := bind_ok hread
  obtain ⟨fields, _, -, hread⟩ := bind_ok hread
  obtain ⟨methods, _, -, hread⟩ := bind_ok hread
  obtain ⟨rfl, -⟩ := pure_ok hread
  have hlength := length_of_table hconstants
  rw [ConstantPool.Fits, ← ConstantPool.length_toList, toList_foldl_push]
  simpa [ConstantPool.maxIndex] using hlength

end ClassFile

theorem ConstantPool.Made.fits {p : ConstantPool} (h : p.Made) : p.Fits := by
  induction h with
  | empty => exact ConstantPool.fits_empty
  | intern _ hs ih => exact (ConstantPool.intern_eq_ok ih hs).1
  | decode hbytes => exact ClassFile.fits_of_decode hbytes

/-- A class is written exactly when all of it can be counted. What is written is read back as the
same class, whose pool has the missing names behind what it had, so that what an index in the code
stands for does not change. -/
theorem ClassFile.encode_countable {c : ClassFile} (hp : c.pool.Made) :
    ((∃ bytes, c.encode = .ok bytes) ↔ c.Countable) ∧
      ∀ bytes, c.encode = .ok bytes →
        ∃ pool : ConstantPool, ClassFile.decode bytes = .ok { c with pool } ∧
          pool.toList =
            c.pool.toList ++ (c.headerNames.filter fun s => s ∉ c.pool.toList).eraseDups ∧
          ∀ i s, c.pool.get? i = some s → pool.get? i = some s := by
  refine ⟨ClassFile.encode_ok_iff hp.fits, fun bytes hbytes => ?_⟩
  obtain ⟨pool, -, hnames, hdecode⟩ := ClassFile.decode_encode hp.fits hbytes
  have hextends := ClassFile.extends_of_allNames hnames
  exact ⟨pool, hdecode, hnames, fun i s hs => hextends.get? hs⟩

/-- A class with a text in its code. -/
def greeterFile : ClassFile where
  target := .v1
  flags := 0
  name := "Greeter"
  superclass := some "probe.lang.Object"
  outer := none
  nested := []
  fields := []
  methods := [⟨0, "greet", "()V", 1, (Instr.pushConst 1).encode ++ [0x01], [(0, 3)]⟩]
  pool := ConstantPool.empty.push "hello"

theorem encode_countable_greeter :
    ∃ bytes pool, greeterFile.encode = .ok bytes ∧
      ClassFile.decode bytes = .ok { greeterFile with pool } ∧
      pool.toList = ["hello", "Greeter", "probe.lang.Object", "greet", "()V"] := by
  have hintern : ConstantPool.empty.intern "hello" = .ok (1, ConstantPool.empty.push "hello") := by
    simp [ConstantPool.intern, ConstantPool.empty, ConstantPool.maxIndex]
  obtain ⟨hcountable, hread⟩ :=
    ClassFile.encode_countable (c := greeterFile) (.intern .empty hintern)
  obtain ⟨bytes, hbytes⟩ := hcountable.mpr (by constructor <;> decide)
  obtain ⟨pool, hdecode, hnames, -⟩ := hread bytes hbytes
  exact ⟨bytes, pool, hbytes, hdecode, hnames⟩

end ProbeLang
