import ProbeLang.Proofs.Artifact.RoundTrip

/-!
# Where artifacts end

A reader of artifacts is confined to the bytes that it takes (`Confined`): its answer and its
faults do not hang on what stands behind them, and a beginning of these bytes is never enough. One
rule for each way to build a reader gives this of the reader of whole classes, so bytes that are an
artifact cease to be one when some are cut off at the end or put behind it.
-/

namespace ProbeLang

/-- Whether a fault says that bytes are no artifact. -/
def ArtifactFault.isMalformed : ArtifactFault → Bool
  | .badMagic | .unsupportedTarget _ | .poolEntryNotText | .indexOutOfRange _ | .unexpectedEnd
  | .trailingBytes => true
  | _ => false

namespace ClassFile

/-- Whether a reader looks at no byte but those that it takes from the front. What it answers is
answered in front of anything, and nothing is answered to bytes that end before the last one it
takes. A fault stays the same whatever follows, unless it is that the bytes have ended. -/
structure Confined {α : Type} (r : Read α) : Prop where
  answers : ∀ {bytes rest a}, r.run bytes = .ok (a, rest) →
    ∃ taken, bytes = taken ++ rest ∧ Reads r taken a ∧
      ∀ part, part <+: taken → part ≠ taken → r.run part = .error .unexpectedEnd
  faults : ∀ {bytes fault}, r.run bytes = .error fault → fault.isMalformed = true ∧
    (fault ≠ .unexpectedEnd → ∀ more, r.run (bytes ++ more) = .error fault)

/-- A beginning of two parts ends within the first, or within the second. -/
theorem isPrefix_append_cases {part first second : Bytes} (h : part <+: first ++ second) :
    (part <+: first ∧ part ≠ first) ∨ ∃ more, part = first ++ more ∧ more <+: second := by
  rcases List.prefix_or_prefix_of_prefix h (List.prefix_append first second) with hle | ⟨more, rfl⟩
  · by_cases heq : part = first
    · exact .inr ⟨[], by rw [heq, List.append_nil], List.nil_prefix⟩
    · exact .inl ⟨hle, heq⟩
  · exact .inr ⟨more, rfl, (List.prefix_append_right_inj first).mp h⟩

namespace Confined

variable {α β : Type} {r : Read α} {f : α → Read β}

theorem pure (a : α) : Confined (pure a) where
  answers := by
    intro bytes rest b h
    obtain ⟨rfl, rfl⟩ := pure_ok h
    refine ⟨[], rfl, .pure a, fun part hpart hne => ?_⟩
    exact absurd (List.prefix_nil.mp hpart) hne
  faults := by
    intro bytes fault h
    cases h

theorem throw {fault : ArtifactFault} (hfault : fault.isMalformed = true) :
    Confined (throw fault : Read α) where
  answers := by
    intro bytes rest a h
    cases h
  faults := by
    intro bytes fault' h
    cases h
    exact ⟨hfault, fun _ _ => rfl⟩

theorem bind (hr : Confined r) (hf : ∀ a, Confined (f a)) : Confined (r >>= f) where
  answers := by
    intro bytes rest b h
    obtain ⟨a, middle, hfirst, hsecond⟩ := bind_ok h
    obtain ⟨first, rfl, hreads, hshort⟩ := hr.answers hfirst
    obtain ⟨second, rfl, hreads', hshort'⟩ := (hf a).answers hsecond
    refine ⟨first ++ second, (List.append_assoc ..).symm, hreads.bind hreads', ?_⟩
    intro part hpart hne
    rw [StateT.run_bind]
    rcases isPrefix_append_cases hpart with ⟨hpart, hne⟩ | ⟨more, rfl, hmore⟩
    · rw [hshort part hpart hne]
      rfl
    · rw [hreads more]
      exact hshort' more hmore fun heq => hne (heq ▸ rfl)
  faults := by
    intro bytes fault h
    rw [StateT.run_bind] at h
    rcases except_bind_error h with hfirst | ⟨⟨a, rest⟩, hfirst, hsecond⟩
    · obtain ⟨hfault, hmore⟩ := hr.faults hfirst
      refine ⟨hfault, fun hne more => ?_⟩
      rw [StateT.run_bind, hmore hne more]
      rfl
    · obtain ⟨first, rfl, hreads, -⟩ := hr.answers hfirst
      obtain ⟨hfault, hmore⟩ := (hf a).faults hsecond
      refine ⟨hfault, fun hne more => ?_⟩
      rw [StateT.run_bind, List.append_assoc, hreads (rest ++ more)]
      exact hmore hne more

/-- A reader that takes a number of bytes, which is the only one to find that bytes have ended. -/
theorem take (n : Nat) : Confined (Read.take n) := by
  have hrun : ∀ bytes : Bytes, (Read.take n).run bytes =
      if (bytes.take n).length = n then .ok (bytes.take n, bytes.drop n)
      else .error .unexpectedEnd := by
    intro bytes
    simp only [Read.take, StateT.run_bind, StateT.run_get, pure_bind]
    split <;> rfl
  constructor
  · intro bytes rest chunk h
    rw [hrun] at h
    split at h
    · next hlength =>
        cases h
        refine ⟨bytes.take n, (List.take_append_drop n bytes).symm, .take hlength, ?_⟩
        intro part hpart hne
        have hshort : part.length < n := by
          rw [← hlength]
          exact Nat.lt_of_le_of_ne hpart.length_le fun heq => hne (hpart.eq_of_length heq)
        rw [hrun, if_neg]
        rw [List.length_take]
        omega
    · cases h
  · intro bytes fault h
    rw [hrun] at h
    split at h
    · cases h
    · cases h
      exact ⟨rfl, fun hne => absurd rfl hne⟩

theorem u16 : Confined Read.u16 := by
  refine (take 2).bind fun chunk => ?_
  split
  · exact .pure _
  · exact .throw rfl

theorem u32 : Confined Read.u32 := by
  refine (take 4).bind fun chunk => ?_
  split
  · exact .pure _
  · exact .throw rfl

theorem rows (hr : Confined r) : ∀ (n : Nat) (done : List α), Confined (Read.rows r n done)
  | 0, done => .pure done.reverse
  | n + 1, done => hr.bind fun a => rows hr n (a :: done)

theorem table (hr : Confined r) : Confined (Read.table r) :=
  u16.bind fun n => hr.rows n.toNat []

/-! ## The parts of an artifact -/

theorem text : Confined Read.text := by
  refine u16.bind fun n => (take n.toNat).bind fun content => ?_
  split
  · exact .pure _
  · exact .throw rfl

theorem nameAt (names : Array String) (i : UInt16) : Confined (Read.nameAt names i) := by
  unfold Read.nameAt
  split
  · exact .throw rfl
  · split
    · exact .pure _
    · exact .throw rfl

theorem name (names : Array String) : Confined (Read.name names) :=
  u16.bind fun i => nameAt names i

theorem optionalName (names : Array String) : Confined (Read.optionalName names) := by
  refine u16.bind fun i => ?_
  split
  · exact .pure none
  · exact (nameAt names i).bind fun s => .pure (some s)

theorem field (names : Array String) : Confined (Read.field names) :=
  u16.bind fun _ => (name names).bind fun _ => (name names).bind fun _ => .pure _

theorem method (names : Array String) : Confined (Read.method names) := by
  refine u16.bind fun flags => (name names).bind fun n => (name names).bind fun d => ?_
  refine u16.bind fun maxLocals => u32.bind fun size => (take size.toNat).bind fun code => ?_
  have hline : Confined (do let pc ← Read.u32; let line ← Read.u32; return (pc, line)) :=
    u32.bind fun _ => u32.bind fun _ => .pure _
  exact hline.table.bind fun lines => .pure _

theorem classFile : Confined Read.classFile := by
  refine (take 4).bind fun magic => ?_
  split
  · exact .throw rfl
  refine u16.bind fun level => ?_
  split
  case h_2 => exact .throw rfl
  refine text.table.bind fun constants => u16.bind fun flags => ?_
  refine (name _).bind fun this => ?_
  refine (optionalName _).bind fun superclass => (optionalName _).bind fun outer => ?_
  refine (name _).table.bind fun nested => ?_
  refine (field _).table.bind fun fields => ?_
  exact (method _).table.bind fun methods => .pure _

end Confined

/-! ## Whole artifacts -/

theorem decode_of_run {bytes rest : Bytes} {c : ClassFile}
    (h : Read.classFile.run bytes = .ok (c, rest)) :
    decode bytes = if rest = [] then .ok c else .error .trailingBytes := by
  rw [decode, h]
  cases rest with
  | nil => rfl
  | cons b rest => rfl

theorem run_of_decode {bytes : Bytes} {c : ClassFile} (h : decode bytes = .ok c) :
    Read.classFile.run bytes = .ok (c, []) := by
  obtain ⟨⟨c', rest⟩, hrun, -⟩ := except_bind_ok h
  rw [decode_of_run hrun] at h
  split at h
  · next hrest =>
      cases h
      rw [hrun, hrest]
  · cases h

/-- An artifact ends where its last part does: nothing less is one, and nothing more. -/
theorem decode_of_isPrefix {bytes part : Bytes} {c : ClassFile} (h : decode bytes = .ok c)
    (hpart : part <+: bytes) (hne : part ≠ bytes) : decode part = .error .unexpectedEnd := by
  obtain ⟨taken, hbytes, -, hshort⟩ := Confined.classFile.answers (run_of_decode h)
  rw [List.append_nil] at hbytes
  subst hbytes
  rw [decode, hshort part hpart hne]
  rfl

theorem decode_append {bytes more : Bytes} {c : ClassFile} (h : decode bytes = .ok c)
    (hmore : more ≠ []) : decode (bytes ++ more) = .error .trailingBytes := by
  obtain ⟨taken, hbytes, hreads, -⟩ := Confined.classFile.answers (run_of_decode h)
  rw [List.append_nil] at hbytes
  subst hbytes
  rw [decode_of_run (hreads more), if_neg hmore]

/-- Bytes that are no artifact have one of the faults of reading. Unless they have ended too early,
no bytes behind them change that. -/
theorem malformed_of_decode {bytes : Bytes} {fault : ArtifactFault}
    (h : decode bytes = .error fault) : fault.isMalformed = true ∧
      (fault ≠ .unexpectedEnd → ∀ more, decode (bytes ++ more) = .error fault) := by
  cases hrun : Read.classFile.run bytes with
  | error fault' =>
      have hfault : fault' = fault := by
        rw [decode, hrun] at h
        exact Except.error.inj h
      subst hfault
      obtain ⟨hmalformed, hsame⟩ := Confined.classFile.faults hrun
      refine ⟨hmalformed, fun hne more => ?_⟩
      rw [decode, hsame hne more]
      rfl
  | ok r =>
      obtain ⟨c, rest⟩ := r
      rw [decode_of_run hrun] at h
      split at h
      · cases h
      · next hrest =>
          cases h
          refine ⟨rfl, fun _ more => ?_⟩
          obtain ⟨taken, rfl, hreads, -⟩ := Confined.classFile.answers hrun
          rw [List.append_assoc, decode_of_run (hreads (rest ++ more)), if_neg]
          simp [hrest]

/-- Bytes are an artifact or they are malformed. An artifact is none any more when bytes at its end
are left out, for then it ends unexpectedly, nor when there are bytes behind it, for these are too
many; so none is the beginning of another. What is malformed otherwise than by its end is so
whatever stands behind it: no byte is read that is not there. -/
theorem decode_delimits (bytes : Bytes) :
    (∃ c, decode bytes = .ok c ∧
      (∀ part, part <+: bytes → part ≠ bytes → decode part = .error .unexpectedEnd) ∧
      (∀ more, more ≠ [] → decode (bytes ++ more) = .error .trailingBytes) ∧
      ∀ longer c', bytes <+: longer → decode longer = .ok c' → longer = bytes) ∨
    ∃ fault, decode bytes = .error fault ∧ fault.isMalformed = true ∧
      (fault ≠ .unexpectedEnd → ∀ more, decode (bytes ++ more) = .error fault) := by
  cases h : decode bytes with
  | error fault => exact .inr ⟨fault, rfl, malformed_of_decode h⟩
  | ok c =>
      refine .inl ⟨c, rfl, fun part => decode_of_isPrefix h, fun more => decode_append h, ?_⟩
      intro longer c' hlonger h'
      refine Decidable.byContradiction fun hne => ?_
      have hshort := decode_of_isPrefix h' hlonger fun heq => hne heq.symm
      rw [h] at hshort
      cases hshort

/-- A count is believed only as far as there are bytes. -/
example : decode (artifactMagic ++ [0, 1, 0xFF, 0xFF]) = .error .unexpectedEnd := rfl

end ClassFile

end ProbeLang
