import ProbeLang.Proofs.Artifact.RoundTrip

/-!
# What is written

Every part of an artifact is written as a function of its content (`Indices.written`), and the
indices that a class is written with are those of the first places of its names among all its texts
(`firstIndices`). So the bytes of a class are known without writing it (`eq_written_of_encode`), and
so is their number (`length_written`).
-/

namespace ProbeLang

/-! ## Places of names -/

namespace ConstantPool

/-- The index of the first place at which a text stands among others. -/
def indexIn (names : List String) (s : String) : UInt16 :=
  UInt16.ofNat (names.idxOf s + 1)

theorem indexIn_of_isPrefix {names more : List String} {s : String} (h : names <+: more)
    (hs : s ∈ names) : indexIn more s = indexIn names s := by
  obtain ⟨rest, rfl⟩ := h
  rw [indexIn, indexIn, List.idxOf_append, if_pos hs]

/-- Where no text is repeated, there is only one index for each. -/
theorem eq_indexIn_of_get? {p : ConstantPool} {i : UInt16} {s : String} (hp : p.toList.Nodup)
    (h : p.get? i.toNat = some s) : i = indexIn p.toList s := by
  unfold ConstantPool.get? at h
  split at h
  · cases h
  · next hi =>
      obtain ⟨hlt, rfl⟩ := List.getElem?_eq_some_iff.mp h
      rw [indexIn, hp.idxOf_getElem, Nat.sub_add_cancel (Nat.pos_of_ne_zero hi), UInt16.ofNat_toNat]

/-- Interning a text gives the index of its first place, in the pool that has it and in every list
that begins with its texts. -/
theorem intern_first {p q : ConstantPool} {s : String} {i : UInt16} (h : p.intern s = .ok (i, q)) :
    q.Extends p ∧ ∀ names, q.toList <+: names → i = indexIn names s := by
  have hplace : p.places[s]? = p.toList.idxOf? s := p.places_eq s
  unfold intern at h
  rw [hplace] at h
  split at h
  · next k hk =>
      cases h
      obtain ⟨hlt, hk⟩ := List.findIdx?_eq_some_iff_findIdx_eq.mp hk
      have hidx : p.toList.idxOf s = k := hk
      have hs : s ∈ p.toList := List.idxOf_lt_length_iff.mp (hidx ▸ hlt)
      refine ⟨.refl p, fun names hnames => ?_⟩
      rw [indexIn_of_isPrefix hnames hs, indexIn, hidx]
  · next hk =>
      split at h
      · cases h
        have hs : s ∉ p.toList := List.idxOf?_eq_none_iff.mp hk
        refine ⟨extends_push p s, fun names hnames => ?_⟩
        rw [indexIn_of_isPrefix hnames (by simp), indexIn, toList_push, List.idxOf_append,
          if_neg hs, length_toList]
        simp
      · cases h

theorem internAll_first : ∀ (ss : List String) {p q : ConstantPool} {done is : List UInt16},
    p.internAll done ss = .ok (is, q) →
      q.Extends p ∧ ∀ names, q.toList <+: names → is = done.reverse ++ ss.map (indexIn names)
  | [], p, q, done, is, h => by
      cases h
      exact ⟨.refl p, fun names _ => by simp⟩
  | s :: rest, p, q, done, is, h => by
      obtain ⟨⟨i, p₁⟩, hi, h⟩ := except_bind_ok h
      obtain ⟨hextends, hfirst⟩ := intern_first hi
      obtain ⟨hextends', hrest⟩ := internAll_first rest h
      refine ⟨hextends'.trans hextends, fun names hnames => ?_⟩
      rw [hrest names hnames, hfirst names (List.IsPrefix.trans hextends' hnames)]
      simp

end ConstantPool

namespace ClassFile

open ConstantPool

theorem optionalIndex_first {p q : ConstantPool} {s : Option String} {i : UInt16}
    (h : optionalIndex p s = .ok (i, q)) :
    q.Extends p ∧ ∀ names, q.toList <+: names → i = s.elim 0 (indexIn names) := by
  cases s with
  | none =>
      cases h
      exact ⟨.refl p, fun names _ => rfl⟩
  | some s => exact intern_first h

theorem memberIndices_first {α : Type} {name descriptor : α → String} :
    ∀ (ms : List α) {p q : ConstantPool} {done rows : List (α × UInt16 × UInt16)},
      memberIndices name descriptor p done ms = .ok (rows, q) →
        q.Extends p ∧ ∀ names, q.toList <+: names → rows = done.reverse ++
          ms.map fun m => (m, indexIn names (name m), indexIn names (descriptor m))
  | [], p, q, done, rows, h => by
      cases h
      exact ⟨.refl p, fun names _ => by simp⟩
  | m :: rest, p, q, done, rows, h => by
      obtain ⟨⟨n, p₁⟩, hn, h⟩ := except_bind_ok h
      obtain ⟨⟨d, p₂⟩, hd, h⟩ := except_bind_ok h
      obtain ⟨hextends, hname⟩ := intern_first hn
      obtain ⟨hextends', hdescriptor⟩ := intern_first hd
      obtain ⟨hextends'', hrest⟩ := memberIndices_first rest h
      refine ⟨(hextends''.trans hextends').trans hextends, fun names hnames => ?_⟩
      have hnames' := List.IsPrefix.trans hextends'' hnames
      rw [hrest names hnames, hdescriptor names hnames',
        hname names (List.IsPrefix.trans hextends' hnames')]
      simp

/-- The indices of a class by the first places of its names. -/
def firstIndices (c : ClassFile) (names : List String) : Indices where
  this := indexIn names c.name
  superclass := c.superclass.elim 0 (indexIn names)
  outer := c.outer.elim 0 (indexIn names)
  nested := c.nested.map (indexIn names)
  fields := c.fields.map fun f => (f, indexIn names f.name, indexIn names f.descriptor)
  methods := c.methods.map fun m => (m, indexIn names m.name, indexIn names m.descriptor)

theorem indices_eq_first {c : ClassFile} {x : Indices} {pool : ConstantPool}
    (h : c.indices = .ok (x, pool)) : x = c.firstIndices pool.toList := by
  obtain ⟨⟨this, p₁⟩, h₁, h⟩ := except_bind_ok h
  obtain ⟨⟨superclass, p₂⟩, h₂, h⟩ := except_bind_ok h
  obtain ⟨⟨outer, p₃⟩, h₃, h⟩ := except_bind_ok h
  obtain ⟨⟨nested, p₄⟩, h₄, h⟩ := except_bind_ok h
  obtain ⟨⟨fields, p₅⟩, h₅, h⟩ := except_bind_ok h
  obtain ⟨⟨methods, p₆⟩, h₆, h⟩ := except_bind_ok h
  cases h
  obtain ⟨-, first₁⟩ := intern_first h₁
  obtain ⟨ext₂, first₂⟩ := optionalIndex_first h₂
  obtain ⟨ext₃, first₃⟩ := optionalIndex_first h₃
  obtain ⟨ext₄, first₄⟩ := internAll_first c.nested h₄
  obtain ⟨ext₅, first₅⟩ := memberIndices_first c.fields h₅
  obtain ⟨ext₆, first₆⟩ := memberIndices_first c.methods h₆
  have ext₄' := ext₆.trans ext₅
  have ext₃' := ext₄'.trans ext₄
  have ext₂' := ext₃'.trans ext₃
  have ext₁' := ext₂'.trans ext₂
  rw [firstIndices, ← first₁ _ ext₁', ← first₂ _ ext₂', ← first₃ _ ext₃', first₄ _ ext₄',
    first₅ _ ext₆, first₆ _ (List.prefix_refl _)]
  rfl

/-! ## Bytes of each part -/

/-- A text behind its length. -/
def textContent (s : String) : Bytes :=
  u16Bytes (UInt16.ofNat (Bytes.ofString s).length) ++ Bytes.ofString s

/-- Rows behind their number. -/
def tableContent {α : Type} (row : α → Bytes) (rows : List α) : Bytes :=
  u16Bytes (UInt16.ofNat rows.length) ++ rows.flatMap row

/-- A place in the code and its line. -/
def lineContent (line : UInt32 × UInt32) : Bytes :=
  u32Bytes line.1 ++ u32Bytes line.2

/-- A field with the indices of its name and descriptor. -/
def fieldContent (row : FieldInfo × UInt16 × UInt16) : Bytes :=
  u16Bytes row.1.flags ++ u16Bytes row.2.1 ++ u16Bytes row.2.2

/-- A method with the indices of its name and descriptor. -/
def methodContent (row : MethodInfo × UInt16 × UInt16) : Bytes :=
  u16Bytes row.1.flags ++ u16Bytes row.2.1 ++ u16Bytes row.2.2 ++ u16Bytes row.1.maxLocals ++
    u32Bytes (UInt32.ofNat row.1.code.length) ++ row.1.code ++ tableContent lineContent row.1.lines

/-- A class with certain indices among certain texts. -/
def Indices.written (x : Indices) (c : ClassFile) (names : List String) : Bytes :=
  artifactMagic ++ u16Bytes (UInt16.ofNat c.target.code) ++ tableContent textContent names ++
    u16Bytes c.flags ++ u16Bytes x.this ++ u16Bytes x.superclass ++ u16Bytes x.outer ++
    tableContent u16Bytes x.nested ++ tableContent fieldContent x.fields ++
    tableContent methodContent x.methods

theorem tableLength_eq_ok {n : Nat} {k : UInt16} (h : tableLength n = .ok k) :
    k = UInt16.ofNat n := by
  unfold tableLength at h
  split at h
  · exact (Except.ok.inj h).symm
  · cases h

theorem tableBytes_eq_ok {α : Type} {row : α → Bytes} {rows : List α} {bytes : Bytes}
    (h : tableBytes row rows = .ok bytes) : bytes = tableContent row rows := by
  obtain ⟨n, hn, h⟩ := except_bind_ok h
  cases tableLength_eq_ok hn
  exact (Except.ok.inj h).symm

theorem textBytes_eq_ok {s : String} {bytes : Bytes} (h : textBytes s = .ok bytes) :
    bytes = textContent s := by
  obtain ⟨n, hn, h⟩ := except_bind_ok h
  cases tableLength_eq_ok hn
  exact (Except.ok.inj h).symm

theorem poolBytes_eq_ok : ∀ {names : List String} {done : List Bytes} {bytes : Bytes},
    poolBytes done names = .ok bytes → bytes = done.reverse.flatten ++ names.flatMap textContent
  | [], done, bytes, h => by
      rw [List.flatMap_nil, List.append_nil]
      exact (Except.ok.inj h).symm
  | s :: rest, done, bytes, h => by
      obtain ⟨b, hb, h⟩ := except_bind_ok h
      cases textBytes_eq_ok hb
      rw [poolBytes_eq_ok h]
      simp

theorem methodBytes_eq_ok {m : MethodInfo} {n d : UInt16} {bytes : Bytes}
    (h : methodBytes m n d = .ok bytes) : bytes = methodContent (m, n, d) := by
  unfold methodBytes at h
  split at h
  · cases h
  · obtain ⟨lines, hlines, h⟩ := except_bind_ok h
    have hcontent : lines = tableContent lineContent m.lines := tableBytes_eq_ok hlines
    rw [methodContent, ← hcontent]
    exact (Except.ok.inj h).symm

theorem methodsBytes_eq_ok : ∀ {rows : List (MethodInfo × UInt16 × UInt16)} {done : List Bytes}
    {bytes : Bytes}, methodsBytes done rows = .ok bytes →
      bytes = done.reverse.flatten ++ rows.flatMap methodContent
  | [], done, bytes, h => by
      rw [List.flatMap_nil, List.append_nil]
      exact (Except.ok.inj h).symm
  | (m, n, d) :: rest, done, bytes, h => by
      obtain ⟨b, hb, h⟩ := except_bind_ok h
      cases methodBytes_eq_ok hb
      rw [methodsBytes_eq_ok h]
      simp

theorem Indices.bytes_eq_ok {x : Indices} {c : ClassFile} {pool : ConstantPool} {bytes : Bytes}
    (h : x.bytes c pool = .ok bytes) : bytes = x.written c pool.toList := by
  obtain ⟨size, hsize, h⟩ := except_bind_ok h
  obtain ⟨constants, hconstants, h⟩ := except_bind_ok h
  obtain ⟨nested, hnested, h⟩ := except_bind_ok h
  obtain ⟨fields, hfields, h⟩ := except_bind_ok h
  obtain ⟨count, hcount, h⟩ := except_bind_ok h
  obtain ⟨methods, hmethods, h⟩ := except_bind_ok h
  cases tableLength_eq_ok hsize
  cases tableLength_eq_ok hcount
  cases poolBytes_eq_ok hconstants
  cases tableBytes_eq_ok hnested
  cases methodsBytes_eq_ok hmethods
  have hcontent : fields = tableContent fieldContent x.fields := tableBytes_eq_ok hfields
  subst hcontent
  rw [← Except.ok.inj h, written, tableContent, tableContent, tableContent, tableContent,
    pool.length_toList]
  simp only [List.append_assoc, List.reverse_nil, List.flatten_nil, List.nil_append]

/-- The bytes of a class. -/
theorem eq_written_of_encode {c : ClassFile} {bytes : Bytes} (h : c.encode = .ok bytes) :
    bytes = (c.firstIndices c.allNames).written c c.allNames := by
  rw [encode_eq] at h
  obtain ⟨⟨x, pool⟩, hindices, hbytes⟩ := except_bind_ok h
  have hnames := toList_of_indices hindices
  rw [← hnames, ← indices_eq_first hindices]
  exact Indices.bytes_eq_ok hbytes

/-! ## Numbers of bytes -/

/-- Whether indices are for the parts that a class has. -/
structure Indices.Covers (x : Indices) (c : ClassFile) : Prop where
  nested : x.nested.length = c.nested.length
  fields : x.fields.map Prod.fst = c.fields
  methods : x.methods.map Prod.fst = c.methods

theorem covers_firstIndices (c : ClassFile) (names : List String) :
    (c.firstIndices names).Covers c where
  nested := List.length_map ..
  fields := by simp [firstIndices, Function.comp_def]
  methods := by simp [firstIndices, Function.comp_def]

/-- The number of bytes of a method. -/
def methodSize (m : MethodInfo) : Nat :=
  14 + m.code.length + 8 * m.lines.length

/-- The number of bytes of a class among certain texts: whatever its indices are, each has two. -/
def size (c : ClassFile) (names : List String) : Nat :=
  22 + (names.flatMap textContent).length + 2 * c.nested.length + 6 * c.fields.length +
    (c.methods.map methodSize).foldr (· + ·) 0

theorem length_flatMap_eq {α : Type} {row : α → Bytes} (k : Nat) (h : ∀ a, (row a).length = k)
    (rows : List α) : (rows.flatMap row).length = k * rows.length := by
  induction rows with
  | nil => rfl
  | cons a rest ih =>
      rw [List.flatMap_cons, List.length_append, h, ih, List.length_cons, Nat.mul_succ,
        Nat.add_comm]

theorem length_methodContent (row : MethodInfo × UInt16 × UInt16) :
    (methodContent row).length = methodSize row.1 := by
  have hlines : (row.1.lines.flatMap lineContent).length = 8 * row.1.lines.length :=
    length_flatMap_eq 8 (fun _ => rfl) _
  simp [methodContent, tableContent, u16Bytes, u32Bytes, methodSize, hlines]
  omega

theorem length_written {x : Indices} {c : ClassFile} (names : List String) (h : x.Covers c) :
    (x.written c names).length = c.size names := by
  have hnested : (x.nested.flatMap u16Bytes).length = 2 * c.nested.length := by
    rw [length_flatMap_eq 2 fun _ => rfl, h.nested]
  have hfields : (x.fields.flatMap fieldContent).length = 6 * c.fields.length := by
    rw [length_flatMap_eq 6 fun _ => rfl, ← h.fields, List.length_map]
  have hmethods : (x.methods.flatMap methodContent).length =
      (c.methods.map methodSize).foldr (· + ·) 0 := by
    rw [List.length_flatMap, List.sum_eq_foldr, ← h.methods, List.map_map]
    exact congrArg (List.foldr _ 0) (List.map_congr_left fun row _ => length_methodContent row)
  simp only [Indices.written, tableContent, u16Bytes, artifactMagic, List.length_append,
    List.length_cons, List.length_nil, hnested, hfields, hmethods, size]
  omega

end ClassFile

end ProbeLang
