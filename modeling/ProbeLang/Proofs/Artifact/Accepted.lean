import ProbeLang.Proofs.Artifact.Extent
import ProbeLang.Proofs.Artifact.Limits
import ProbeLang.Proofs.Artifact.Written
import ProbeLang.Proofs.Related

/-!
# Writing accepted artifacts again

Bytes that are read as a class are what the class is written as, with indices of its names that
need not be those of their first places (`written_of_decode`). All that is counted in them was
counted with as many bytes as writing has, so the class can be written again. That gives as many
bytes, which are read as the same class, and the same bytes if no text stands in the pool twice or
if they were written from some class.
-/

namespace ProbeLang

/-- Whether an index is that of a name, or zero where there is none. -/
def ConstantPool.HasOptional (p : ConstantPool) (i : UInt16) (s : Option String) : Prop :=
  i = 0 ∧ s = none ∨ ∃ t, s = some t ∧ p.get? i.toNat = some t

/-- Whether a row has a member and the indices of its name and descriptor. -/
def ConstantPool.HasMember {α : Type} (p : ConstantPool) (name descriptor : α → String)
    (row : α × UInt16 × UInt16) (m : α) : Prop :=
  row.1 = m ∧ p.get? row.2.1.toNat = some (name m) ∧ p.get? row.2.2.toNat = some (descriptor m)

namespace ClassFile

open ConstantPool

/-! ## Readers undo writers -/

/-- Whether a reader gives an answer only to bytes that begin with the writing of something that
the answer is for. -/
def Undoes {α β : Type} (r : Read β) (f : α → Bytes) (R : α → β → Prop) : Prop :=
  ∀ bytes rest b, r.run bytes = .ok (b, rest) → ∃ a, R a b ∧ bytes = f a ++ rest

namespace Undoes

variable {α β γ : Type} {r : Read β} {f : α → Bytes} {R : α → β → Prop}

/-- What comes first in a sequence is undone first. -/
theorem bind_ok (hr : Undoes r f R) {g : β → Read γ} {bytes rest : Bytes} {c : γ}
    (h : (r >>= g).run bytes = .ok (c, rest)) :
    ∃ a b behind, R a b ∧ bytes = f a ++ behind ∧ (g b).run behind = .ok (c, rest) := by
  obtain ⟨b, behind, hfirst, hrest⟩ := ProbeLang.bind_ok h
  obtain ⟨a, hab, hbytes⟩ := hr bytes behind b hfirst
  exact ⟨a, b, behind, hab, hbytes, hrest⟩

theorem take (n : Nat) :
    Undoes (Read.take n) id fun chunk answer => chunk = answer ∧ chunk.length = n := by
  intro bytes rest answer h
  simp only [Read.take, StateT.run_bind, StateT.run_get, pure_bind] at h
  split at h
  · next hlength =>
      cases h
      exact ⟨bytes.take n, ⟨rfl, hlength⟩, (List.take_append_drop n bytes).symm⟩
  · cases h

theorem u16 : Undoes Read.u16 u16Bytes Eq := by
  intro bytes rest n h
  obtain ⟨chunk, _, behind, ⟨rfl, -⟩, rfl, hrest⟩ := (take 2).bind_ok h
  split at hrest
  · next a b =>
      obtain ⟨rfl, rfl⟩ := pure_ok hrest
      exact ⟨_, rfl, by rw [u16Bytes_of, id]⟩
  · cases hrest

theorem u32 : Undoes Read.u32 u32Bytes Eq := by
  intro bytes rest n h
  obtain ⟨chunk, _, behind, ⟨rfl, -⟩, rfl, hrest⟩ := (take 4).bind_ok h
  split at hrest
  · next a b c d =>
      obtain ⟨rfl, rfl⟩ := pure_ok hrest
      exact ⟨_, rfl, by rw [u32Bytes_of, id]⟩
  · cases hrest

theorem rows (hr : Undoes r f R) : ∀ (n : Nat) {done bs : List β} {bytes rest : Bytes},
    (Read.rows r n done).run bytes = .ok (bs, rest) →
      ∃ as new, List.Forall₂ R as new ∧ bs = done.reverse ++ new ∧ as.length = n ∧
        bytes = as.flatMap f ++ rest
  | 0, done, bs, bytes, rest, h => by
      obtain ⟨rfl, rfl⟩ := pure_ok h
      exact ⟨[], [], .nil, (List.append_nil _).symm, rfl, rfl⟩
  | n + 1, done, bs, bytes, rest, h => by
      obtain ⟨a, b, behind, hab, rfl, hrest⟩ := hr.bind_ok h
      obtain ⟨as, new, hall, rfl, rfl, rfl⟩ := rows hr n hrest
      exact ⟨a :: as, b :: new, .cons hab hall, by simp, rfl, by simp⟩

theorem table (hr : Undoes r f R) : Undoes (Read.table r) (tableContent f)
    fun as bs => List.Forall₂ R as bs ∧ as.length ≤ 65535 := by
  intro bytes rest bs h
  obtain ⟨n, _, behind, rfl, rfl, hrest⟩ := u16.bind_ok h
  obtain ⟨as, new, hall, rfl, has, rfl⟩ := hr.rows n.toNat hrest
  have hn := n.toNat_lt
  refine ⟨as, ⟨hall, by omega⟩, ?_⟩
  rw [tableContent, has, UInt16.ofNat_toNat, List.append_assoc]

/-! ## Names -/

theorem text : Undoes Read.text textContent fun s t => s = t ∧ s.utf8ByteSize ≤ 65535 := by
  intro bytes rest s h
  obtain ⟨n, _, behind, rfl, rfl, hrest⟩ := u16.bind_ok h
  obtain ⟨content, _, behind, ⟨rfl, hlength⟩, rfl, hlast⟩ := (take n.toNat).bind_ok hrest
  split at hlast
  · next s' hs =>
      obtain ⟨rfl, rfl⟩ := pure_ok hlast
      have hcontent : content = Bytes.ofString s' := Bytes.eq_ofString_of_toString? hs
      have hn := n.toNat_lt
      refine ⟨s', ⟨rfl, ?_⟩, ?_⟩
      · rw [← length_ofString, ← hcontent]
        omega
      · rw [textContent, ← hcontent, hlength, UInt16.ofNat_toNat, List.append_assoc, id]
  · cases hlast

variable {p : ConstantPool}

theorem nameAt {bytes rest : Bytes} {i : UInt16} {s : String}
    (h : (Read.nameAt p.toList.toArray i).run bytes = .ok (s, rest)) :
    p.get? i.toNat = some s ∧ bytes = rest := by
  unfold Read.nameAt at h
  split at h
  · cases h
  · next hi =>
      have hne : i.toNat ≠ 0 := fun h0 => hi (UInt16.toNat.inj h0)
      split at h
      · next s' hs =>
          obtain ⟨rfl, rfl⟩ := pure_ok h
          rw [List.getElem?_toArray] at hs
          exact ⟨by rw [ConstantPool.get?, if_neg hne, hs], rfl⟩
      · cases h

theorem name : Undoes (Read.name p.toList.toArray) u16Bytes
    fun i s => p.get? i.toNat = some s := by
  intro bytes rest s h
  obtain ⟨i, _, behind, rfl, rfl, hrest⟩ := u16.bind_ok h
  obtain ⟨hget, rfl⟩ := nameAt hrest
  exact ⟨i, hget, rfl⟩

theorem optionalName : Undoes (Read.optionalName p.toList.toArray) u16Bytes p.HasOptional := by
  intro bytes rest s h
  obtain ⟨i, _, behind, rfl, rfl, hrest⟩ := u16.bind_ok h
  split at hrest
  · next hi =>
      obtain ⟨rfl, rfl⟩ := pure_ok hrest
      exact ⟨i, .inl ⟨hi, rfl⟩, rfl⟩
  · obtain ⟨t, behind', hname, hrest⟩ := ProbeLang.bind_ok hrest
    obtain ⟨hget, rfl⟩ := nameAt hname
    obtain ⟨rfl, rfl⟩ := pure_ok hrest
    exact ⟨i, .inr ⟨t, rfl, hget⟩, rfl⟩

/-! ## Members -/

theorem field : Undoes (Read.field p.toList.toArray) fieldContent
    (p.HasMember FieldInfo.name FieldInfo.descriptor) := by
  intro bytes rest f h
  obtain ⟨flags, _, behind₁, rfl, rfl, h₁⟩ := u16.bind_ok h
  obtain ⟨n, fieldName, behind₂, hname, rfl, h₂⟩ := name.bind_ok h₁
  obtain ⟨d, descriptor, behind₃, hdescriptor, rfl, h₃⟩ := name.bind_ok h₂
  obtain ⟨rfl, rfl⟩ := pure_ok h₃
  refine ⟨(⟨flags, fieldName, descriptor⟩, n, d), ⟨rfl, hname, hdescriptor⟩, ?_⟩
  simp only [fieldContent, List.append_assoc]

theorem line :
    Undoes (do let pc ← Read.u32; let line ← Read.u32; return (pc, line)) lineContent Eq := by
  intro bytes rest l h
  obtain ⟨pc, _, behind₁, rfl, rfl, h₁⟩ := u32.bind_ok h
  obtain ⟨line, _, behind₂, rfl, rfl, h₂⟩ := u32.bind_ok h₁
  obtain ⟨rfl, rfl⟩ := pure_ok h₂
  exact ⟨(pc, line), rfl, by rw [lineContent, List.append_assoc]⟩

theorem method : Undoes (Read.method p.toList.toArray) methodContent fun row m =>
    p.HasMember MethodInfo.name MethodInfo.descriptor row m ∧
      m.code.length < 4294967296 ∧ m.lines.length ≤ 65535 := by
  intro bytes rest m h
  obtain ⟨flags, _, behind₁, rfl, rfl, h₁⟩ := u16.bind_ok h
  obtain ⟨n, methodName, behind₂, hname, rfl, h₂⟩ := name.bind_ok h₁
  obtain ⟨d, descriptor, behind₃, hdescriptor, rfl, h₃⟩ := name.bind_ok h₂
  obtain ⟨maxLocals, _, behind₄, rfl, rfl, h₄⟩ := u16.bind_ok h₃
  obtain ⟨size, _, behind₅, rfl, rfl, h₅⟩ := u32.bind_ok h₄
  obtain ⟨code, _, behind₆, ⟨rfl, hcode⟩, rfl, h₆⟩ := (take size.toNat).bind_ok h₅
  obtain ⟨lines, _, behind₇, ⟨hlines, hcount⟩, rfl, h₇⟩ := line.table.bind_ok h₆
  obtain ⟨rfl, rfl⟩ := pure_ok h₇
  rw [List.forall₂_eq_eq_eq] at hlines
  subst hlines
  refine ⟨(⟨flags, methodName, descriptor, maxLocals, code, lines⟩, n, d),
    ⟨⟨rfl, hname, hdescriptor⟩, hcode ▸ size.toNat_lt, hcount⟩, ?_⟩
  simp only [methodContent, hcode, UInt32.ofNat_toNat, List.append_assoc, id]

end Undoes

/-! ## Classes -/

/-- Whether the names of a class stand at its indices. -/
structure Indices.Finds (x : Indices) (c : ClassFile) : Prop where
  this : c.pool.get? x.this.toNat = some c.name
  superclass : c.pool.HasOptional x.superclass c.superclass
  outer : c.pool.HasOptional x.outer c.outer
  nested : List.Forall₂ (fun i s => c.pool.get? i.toNat = some s) x.nested c.nested
  fields : List.Forall₂ (c.pool.HasMember FieldInfo.name FieldInfo.descriptor) x.fields c.fields
  methods : List.Forall₂ (c.pool.HasMember MethodInfo.name MethodInfo.descriptor) x.methods
    c.methods

theorem target_of_ofCode? {level : UInt16} {target : LanguageLevel}
    (h : LanguageLevel.ofCode? level.toNat = some target) : level = UInt16.ofNat target.code := by
  unfold LanguageLevel.ofCode? at h
  split at h
  · next hlevel =>
      cases h
      exact UInt16.toNat.inj hlevel
  · next hlevel =>
      cases h
      exact UInt16.toNat.inj hlevel
  · cases h

/-- What is read as a class is what it is written as, with some indices of its names, and all of it
can be counted. -/
theorem written_of_run {bytes rest : Bytes} {c : ClassFile}
    (h : Read.classFile.run bytes = .ok (c, rest)) :
    ∃ x : Indices, x.Finds c ∧ bytes = x.written c c.pool.toList ++ rest ∧
      c.pool = c.pool.toList.foldl push .empty ∧ (∀ s ∈ c.pool.toList, s.utf8ByteSize ≤ 65535) ∧
      c.pool.toList.length ≤ 65535 ∧ c.nested.length ≤ 65535 ∧ c.fields.length ≤ 65535 ∧
      c.methods.length ≤ 65535 ∧
      ∀ m ∈ c.methods, m.code.length < 4294967296 ∧ m.lines.length ≤ 65535 := by
  obtain ⟨magic, _, behind₁, ⟨rfl, -⟩, rfl, h₁⟩ := (Undoes.take 4).bind_ok h
  split at h₁
  · cases h₁
  next hmagic =>
  obtain ⟨level, _, behind₂, rfl, rfl, h₂⟩ := Undoes.u16.bind_ok h₁
  split at h₂
  case h_2 => cases h₂
  next target htarget =>
  obtain ⟨texts, constants, behind₃, ⟨htexts, hcount⟩, rfl, h₃⟩ := Undoes.text.table.bind_ok h₂
  obtain rfl : texts = constants := by
    have heq := map_eq_of_forall₂ (f := id) (g := id) htexts fun _ _ h => h.1
    rwa [List.map_id, List.map_id] at heq
  have hsizes : ∀ s ∈ texts, s.utf8ByteSize ≤ 65535 := fun s hs =>
    let ⟨_, _, hst, hsize⟩ := exists_of_mem_right htexts hs
    hst ▸ hsize
  obtain ⟨pool, hpool, hnames⟩ :
      ∃ pool, pool = texts.foldl push .empty ∧ pool.toList = texts := by
    refine ⟨_, rfl, ?_⟩
    rw [toList_foldl_push, toList_empty, List.nil_append]
  subst hnames
  rw [← hpool] at h₃
  obtain ⟨flags, _, behind₄, rfl, rfl, h₄⟩ := Undoes.u16.bind_ok h₃
  obtain ⟨this, className, behind₅, hthis, rfl, h₅⟩ := Undoes.name.bind_ok h₄
  obtain ⟨super, superclass, behind₆, hsuper, rfl, h₆⟩ := Undoes.optionalName.bind_ok h₅
  obtain ⟨out, outer, behind₇, houter, rfl, h₇⟩ := Undoes.optionalName.bind_ok h₆
  obtain ⟨is, nested, behind₈, ⟨hnested, hnestedCount⟩, rfl, h₈⟩ :=
    Undoes.name.table.bind_ok h₇
  obtain ⟨fieldRows, fields, behind₉, ⟨hfields, hfieldCount⟩, rfl, h₉⟩ :=
    Undoes.field.table.bind_ok h₈
  obtain ⟨rows, methods, behind, ⟨hmethods, hmethodCount⟩, rfl, hlast⟩ :=
    Undoes.method.table.bind_ok h₉
  obtain ⟨rfl, rfl⟩ := pure_ok hlast
  refine ⟨⟨this, super, out, is, fieldRows, rows⟩, ⟨hthis, hsuper, houter, hnested, hfields,
    hmethods.imp fun _ _ h => h.1⟩, ?_, hpool, hsizes, hcount, hnested.length_eq ▸ hnestedCount,
    hfields.length_eq ▸ hfieldCount, hmethods.length_eq ▸ hmethodCount, ?_⟩
  · rw [Indices.written, ← target_of_ofCode? htarget, ← Decidable.not_not.mp hmagic]
    simp only [List.append_assoc, id]
  · intro m hm
    obtain ⟨row, -, -, hlengths⟩ := exists_of_mem_right hmethods hm
    exact hlengths

theorem mem_of_get? {p : ConstantPool} {i : Nat} {s : String} (h : p.get? i = some s) :
    s ∈ p.toList := by
  unfold ConstantPool.get? at h
  split at h
  · cases h
  · exact List.mem_of_getElem? h

namespace Indices.Finds

variable {x : Indices} {c : ClassFile}

theorem covers (h : x.Finds c) : x.Covers c where
  nested := h.nested.length_eq
  fields := by
    have heq := map_eq_of_forall₂ (g := id) h.fields fun _ _ hmember => hmember.1
    rwa [List.map_id] at heq
  methods := by
    have heq := map_eq_of_forall₂ (g := id) h.methods fun _ _ hmember => hmember.1
    rwa [List.map_id] at heq

/-- A class whose names all stand in its pool is written with no others. -/
theorem allNames_eq (h : x.Finds c) : c.allNames = c.pool.toList := by
  have hoptional : ∀ {i s}, c.pool.HasOptional i s → ∀ t ∈ s, t ∈ c.pool.toList := by
    rintro i s (⟨-, rfl⟩ | ⟨t, rfl, hget⟩) t' ht
    · cases ht
    · cases ht
      exact mem_of_get? hget
  have hnames : ∀ s ∈ c.headerNames, s ∈ c.pool.toList := by
    intro s hs
    simp only [headerNames, List.mem_append, List.mem_cons, List.mem_flatMap, List.not_mem_nil,
      or_false, Option.mem_toList] at hs
    rcases hs with ((((rfl | hs) | hs) | hs) | ⟨f, hf, hs⟩) | ⟨m, hm, hs⟩
    · exact mem_of_get? h.this
    · exact hoptional h.superclass s hs
    · exact hoptional h.outer s hs
    · obtain ⟨i, -, hget⟩ := exists_of_mem_right h.nested hs
      exact mem_of_get? hget
    · obtain ⟨row, -, -, hname, hdescriptor⟩ := exists_of_mem_right h.fields hf
      rcases hs with rfl | rfl
      · exact mem_of_get? hname
      · exact mem_of_get? hdescriptor
    · obtain ⟨row, -, -, hname, hdescriptor⟩ := exists_of_mem_right h.methods hm
      rcases hs with rfl | rfl
      · exact mem_of_get? hname
      · exact mem_of_get? hdescriptor
  have hnone : (c.headerNames.filter fun s => s ∉ c.pool.toList) = [] := by
    refine List.filter_eq_nil_iff.mpr fun s hs => ?_
    simpa using hnames s hs
  rw [allNames, hnone, List.eraseDups_nil, List.append_nil]

/-- Where no text is repeated, the indices are those of the first places. -/
theorem eq_first (h : x.Finds c) (hpool : c.pool.toList.Nodup) :
    x = c.firstIndices c.pool.toList := by
  have hoptional : ∀ {i s}, c.pool.HasOptional i s → i = s.elim 0 (indexIn c.pool.toList) := by
    rintro i s (⟨rfl, rfl⟩ | ⟨t, rfl, hget⟩)
    · rfl
    · exact eq_indexIn_of_get? hpool hget
  have hmember : ∀ {α : Type} {name descriptor : α → String} (row : α × UInt16 × UInt16) (m : α),
      c.pool.HasMember name descriptor row m → row =
        (m, indexIn c.pool.toList (name m), indexIn c.pool.toList (descriptor m)) := by
    rintro α name descriptor ⟨m, n, d⟩ _ ⟨rfl, hname, hdescriptor⟩
    rw [← eq_indexIn_of_get? hpool hname, ← eq_indexIn_of_get? hpool hdescriptor]
  have hnested := map_eq_of_forall₂ (f := id) (g := indexIn c.pool.toList) h.nested
    fun _ _ hget => eq_indexIn_of_get? hpool hget
  have hfields := map_eq_of_forall₂ (f := id) h.fields hmember
  have hmethods := map_eq_of_forall₂ (f := id) h.methods hmember
  rw [List.map_id] at hnested hfields hmethods
  rw [firstIndices, ← eq_indexIn_of_get? hpool h.this, ← hoptional h.superclass,
    ← hoptional h.outer, ← hnested, ← hfields, ← hmethods]

end Indices.Finds

/-- Bytes that are a class are what the class is written as, with some indices of its names, and
all of it can be counted. Its pool was made of the texts in their order. -/
theorem written_of_decode {bytes : Bytes} {c : ClassFile} (h : decode bytes = .ok c) :
    c.Countable ∧ c.pool = c.pool.toList.foldl push .empty ∧
      ∃ x : Indices, x.Finds c ∧ bytes = x.written c c.pool.toList := by
  obtain ⟨x, hfinds, hbytes, hpool, htexts, hnames, hnested, hfields, hmethods, hlengths⟩ :=
    written_of_run (run_of_decode h)
  rw [List.append_nil] at hbytes
  refine ⟨?_, hpool, x, hfinds, hbytes⟩
  rw [← hfinds.allNames_eq] at htexts hnames
  exact ⟨hnames, htexts, hnested, hfields, hmethods, fun m hm => (hlengths m hm).1,
    fun m hm => (hlengths m hm).2⟩

/-- What has been written had a pool whose texts all have an index. -/
theorem fits_of_encode {c : ClassFile} {bytes : Bytes} (h : c.encode = .ok bytes) :
    c.pool.Fits := by
  rw [encode_eq] at h
  obtain ⟨⟨x, pool⟩, hindices, hbytes⟩ := except_bind_ok h
  have hlength := ((bytes_ok_iff x c pool).mp ⟨bytes, hbytes⟩).1
  have hle := (extends_of_allNames (toList_of_indices hindices)).length_le
  rw [length_toList] at hle
  rw [Fits, maxIndex]
  omega

/-- A class that has been read is written again with as many bytes, which are read as the same
class, pool included. They are the same bytes where no text stands in the pool twice, and wherever
they had been written from a class. -/
theorem encode_decoded {bytes : Bytes} {c : ClassFile} (h : decode bytes = .ok c) :
    ∃ again, c.encode = .ok again ∧ again.length = bytes.length ∧ decode again = .ok c ∧
      (c.pool.toList.Nodup → again = bytes) ∧
      ∀ c' : ClassFile, c'.encode = .ok bytes → again = bytes := by
  obtain ⟨hcountable, hpool, x, hfinds, hbytes⟩ := written_of_decode h
  have hfits : c.pool.Fits := fits_of_decode h
  obtain ⟨again, hagain⟩ := (encode_ok_iff hfits).mpr hcountable
  have hwritten := eq_written_of_encode hagain
  rw [hfinds.allNames_eq] at hwritten
  refine ⟨again, hagain, ?_, ?_, fun hnodup => ?_, fun c' hc' => ?_⟩
  · rw [hwritten, hbytes, length_written _ hfinds.covers,
      length_written _ (c.covers_firstIndices _)]
  · obtain ⟨pool, -, hnames, hdecode⟩ := decode_encode hfits hagain
    obtain ⟨-, hpool', -⟩ := written_of_decode hdecode
    have hsame : pool = c.pool := by
      rw [hpool, ← hfinds.allNames_eq, ← hnames]
      exact hpool'
    rw [hdecode, hsame]
  · rw [hwritten, hbytes, ← hfinds.eq_first hnodup]
  · obtain ⟨pool, -, hnames, hdecode⟩ := decode_encode (fits_of_encode hc') hc'
    rw [h] at hdecode
    cases hdecode
    rw [hwritten, eq_written_of_encode hc', ← hnames]
    rfl

/-- A class whose name stands in the pool twice, and is named by its second place. -/
def repeatedName : Bytes :=
  artifactMagic ++ [0, 1, 0, 2, 0, 1, 0x41, 0, 1, 0x41, 0, 1, 0, 2, 0, 0, 0, 0, 0, 0, 0, 0, 0, 0]

/-- It is written again with the first place of its name: other bytes for the same class. -/
theorem encode_decoded_repeated : ∃ c, decode repeatedName = .ok c ∧
    c.encode = .ok (repeatedName.set 17 1) ∧ decode (repeatedName.set 17 1) = .ok c := by
  have hrun : (decode repeatedName >>= encode).toOption = some (repeatedName.set 17 1) := rfl
  obtain ⟨c, hc, hencode⟩ := except_bind_ok (eq_ok_of_toOption hrun)
  obtain ⟨again, hagain, -, hdecode, -⟩ := encode_decoded hc
  rw [hencode] at hagain
  cases hagain
  exact ⟨c, hc, hencode, hdecode⟩

end ClassFile

end ProbeLang
