import ProbeLang.Proofs.Artifact.Interning

/-!
# The faults of writing

A class cannot be made into an artifact for four reasons only: a table or a text is too long, there
are too many constants, there is too much code, or a method needs too many slots. All of them are
limits of the format (`ArtifactFault.isLimit`). The other faults belong to reading, or to a class
without a symbol.
-/

namespace ProbeLang

/-- Whether a fault is a limit of the format that a class exceeds. -/
def ArtifactFault.isLimit : ArtifactFault → Bool
  | .tableTooLarge | .poolOverflow | .codeTooLarge | .slotsExhausted => true
  | _ => false

variable {α β : Type}

/-- Whether a step fails at limits of the format only. -/
def Limited (r : Except ArtifactFault α) : Prop :=
  ∀ fault, r = .error fault → fault.isLimit = true

namespace Limited

theorem ok (a : α) : Limited (.ok a) := by
  intro fault h
  cases h

theorem error {fault : ArtifactFault} (h : fault.isLimit = true) :
    Limited (.error fault : Except ArtifactFault α) := by
  intro fault' h'
  cases h'
  exact h

theorem bind {r : Except ArtifactFault α} {f : α → Except ArtifactFault β} (hr : Limited r)
    (hf : ∀ a, Limited (f a)) : Limited (r >>= f) := by
  cases r with
  | error fault => exact error (hr fault rfl)
  | ok a => exact hf a

/-- A step whose result is only put into another form. -/
theorem map {r : Except ArtifactFault α} {g : α → β} (hr : Limited r) :
    Limited (r >>= fun a => pure (g a)) :=
  hr.bind fun a => ok (g a)

end Limited

/-! ## Constants -/

namespace ConstantPool

theorem limited_intern (p : ConstantPool) (s : String) : Limited (p.intern s) := by
  unfold intern
  split
  · exact .ok _
  · split
    · exact .ok _
    · exact .error rfl

theorem limited_internAll : ∀ (names : List String) (p : ConstantPool) (done : List UInt16),
    Limited (p.internAll done names)
  | [], _, _ => .ok _
  | s :: rest, p, _ => (p.limited_intern s).bind fun ⟨_, p⟩ => limited_internAll rest p _

end ConstantPool

/-! ## Bytes -/

theorem limited_tableLength (n : Nat) : Limited (tableLength n) := by
  unfold tableLength
  split
  · exact .ok _
  · exact .error rfl

theorem limited_tableBytes (row : α → Bytes) (rows : List α) : Limited (tableBytes row rows) :=
  (limited_tableLength rows.length).map

theorem limited_textBytes (s : String) : Limited (textBytes s) :=
  (limited_tableLength (Bytes.ofString s).length).map

namespace ClassFile

theorem limited_optionalIndex (p : ConstantPool) (name : Option String) :
    Limited (optionalIndex p name) := by
  cases name with
  | none => exact .ok _
  | some s => exact p.limited_intern s

theorem limited_memberIndices (name descriptor : α → String) : ∀ (members : List α)
    (p : ConstantPool) (done : List (α × UInt16 × UInt16)),
    Limited (memberIndices name descriptor p done members)
  | [], _, _ => .ok _
  | m :: rest, p, _ => by
      refine (p.limited_intern (name m)).bind fun ⟨n, p⟩ => ?_
      refine (p.limited_intern (descriptor m)).bind fun ⟨d, p⟩ => ?_
      exact limited_memberIndices name descriptor rest p _

theorem limited_poolBytes : ∀ (texts : List String) (done : List Bytes),
    Limited (poolBytes done texts)
  | [], _ => .ok _
  | s :: rest, _ => (limited_textBytes s).bind fun _ => limited_poolBytes rest _

theorem limited_methodBytes (m : MethodInfo) (name descriptor : UInt16) :
    Limited (methodBytes m name descriptor) := by
  unfold methodBytes
  split
  · exact .error rfl
  · exact (limited_tableBytes _ m.lines).map

theorem limited_methodsBytes : ∀ (methods : List (MethodInfo × UInt16 × UInt16))
    (done : List Bytes), Limited (methodsBytes done methods)
  | [], _ => .ok _
  | (m, n, d) :: rest, _ => (limited_methodBytes m n d).bind fun _ => limited_methodsBytes rest _

theorem limited_indices (c : ClassFile) : Limited c.indices := by
  refine (c.pool.limited_intern c.name).bind fun ⟨_, p⟩ => ?_
  refine (limited_optionalIndex p c.superclass).bind fun ⟨_, p⟩ => ?_
  refine (limited_optionalIndex p c.outer).bind fun ⟨_, p⟩ => ?_
  refine (p.limited_internAll c.nested []).bind fun ⟨_, p⟩ => ?_
  refine (limited_memberIndices _ _ c.fields p []).bind fun ⟨_, p⟩ => ?_
  exact (limited_memberIndices _ _ c.methods p []).bind fun ⟨_, _⟩ => .ok _

theorem limited_bytes (x : Indices) (c : ClassFile) (pool : ConstantPool) :
    Limited (x.bytes c pool) := by
  refine (limited_tableLength pool.size).bind fun _ => ?_
  refine (limited_poolBytes pool.toList []).bind fun _ => ?_
  refine (limited_tableBytes _ x.nested).bind fun _ => ?_
  refine (limited_tableBytes _ x.fields).bind fun _ => ?_
  refine (limited_tableLength x.methods.length).bind fun _ => ?_
  exact (limited_methodsBytes x.methods []).map

/-- Writing a class fails at limits of the format only. -/
theorem limited_encode (c : ClassFile) : Limited c.encode := by
  rw [encode_eq]
  exact c.limited_indices.bind fun x => limited_bytes x.1 c x.2

end ClassFile

end ProbeLang
