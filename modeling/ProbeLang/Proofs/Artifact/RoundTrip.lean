import ProbeLang.Proofs.Artifact.Interning
import ProbeLang.Proofs.Artifact.Text
import ProbeLang.Proofs.Code.Reading

/-!
# Reading artifacts back

What is written is read back: a class that has been encoded is decoded as the same class, but for
its pool, which has the names of the header behind the constants of the code (`decode_encode`).
Each part of the format has a reader that takes exactly what its writer gave (`Reads`).
-/

namespace ProbeLang

namespace ClassFile

/-- Whether a reader takes certain bytes, whatever follows them, and answers a value. -/
def Reads {α : Type} (r : Read α) (bytes : Bytes) (a : α) : Prop :=
  ∀ rest, r.run (bytes ++ rest) = .ok (a, rest)

namespace Reads

variable {α β : Type}

theorem pure (a : α) : Reads (pure a) [] a :=
  fun _ => rfl

theorem bind {r : Read α} {f : α → Read β} {bytes bytes' : Bytes} {a : α} {b : β}
    (h : Reads r bytes a) (h' : Reads (f a) bytes' b) : Reads (r >>= f) (bytes ++ bytes') b := by
  intro rest
  rw [List.append_assoc, StateT.run_bind, h]
  exact h' rest

/-- What is answered once a reader has taken the last bytes. -/
theorem map {r : Read α} {f : α → Read β} {bytes : Bytes} {a : α} {b : β} (h : Reads r bytes a)
    (h' : Reads (f a) [] b) : Reads (r >>= f) bytes b := by
  have := h.bind h'
  rwa [List.append_nil] at this

theorem take {n : Nat} {bytes : Bytes} (h : bytes.length = n) : Reads (Read.take n) bytes bytes := by
  intro rest
  subst h
  simp only [Read.take, StateT.run_bind, StateT.run_get, pure_bind, List.take_left,
    List.drop_left, if_true]
  rfl

theorem u16 (n : UInt16) : Reads Read.u16 (u16Bytes n) n := by
  intro rest
  have h : (Read.take 2).run (u16Bytes n ++ rest) = .ok (u16Bytes n, rest) := take rfl rest
  simp only [Read.u16, StateT.run_bind, h]
  exact congrArg (fun n => Except.ok (n, rest)) (u16_of_bytes n)

theorem u32 (n : UInt32) : Reads Read.u32 (u32Bytes n) n := by
  intro rest
  have h : (Read.take 4).run (u32Bytes n ++ rest) = .ok (u32Bytes n, rest) := take rfl rest
  simp only [Read.u32, StateT.run_bind, h]
  exact congrArg (fun n => Except.ok (n, rest)) (u32_of_bytes n)

/-- Rows that are written one after the other. -/
theorem rows {row : Read β} {f : α → Bytes} {g : α → β} (xs : List α) (done : List β)
    (h : ∀ a ∈ xs, Reads row (f a) (g a)) :
    Reads (Read.rows row xs.length done) (xs.flatMap f) (done.reverse ++ xs.map g) := by
  induction xs generalizing done with
  | nil => simpa [Read.rows] using Reads.pure done.reverse
  | cons a xs ih =>
      have := ih (g a :: done) fun b hb => h b (List.mem_cons_of_mem _ hb)
      rw [List.reverse_cons, List.append_assoc, List.singleton_append] at this
      exact (h a List.mem_cons_self).bind this

end Reads

theorem tableLength_ok {n : Nat} {k : UInt16} (h : tableLength n = .ok k) : k.toNat = n := by
  unfold tableLength at h
  split at h
  · next hlt =>
      cases h
      exact UInt16.toNat_ofNat_of_lt' hlt
  · cases h

/-- A table, whose rows need not all be written by one function of the row. -/
theorem reads_rows {α β : Type} {row : Read β} {f : α → Bytes} {g : α → β} {xs : List α}
    {n : UInt16} (hn : tableLength xs.length = .ok n) (h : ∀ a ∈ xs, Reads row (f a) (g a)) :
    Reads (Read.table row) (u16Bytes n ++ xs.flatMap f) (xs.map g) := by
  refine (Reads.u16 n).bind ?_
  rw [tableLength_ok hn]
  exact Reads.rows xs [] h

theorem reads_table {α β : Type} {row : Read β} {f : α → Bytes} {g : α → β} {xs : List α}
    {bytes : Bytes} (hb : tableBytes f xs = .ok bytes) (h : ∀ a ∈ xs, Reads row (f a) (g a)) :
    Reads (Read.table row) bytes (xs.map g) := by
  obtain ⟨n, hn, hb⟩ := except_bind_ok hb
  cases hb
  exact reads_rows hn h

theorem tableBytes_map {α β : Type} (f : β → Bytes) (g : α → β) (xs : List α) :
    tableBytes f (xs.map g) = tableBytes (f ∘ g) xs := by
  simp [tableBytes, List.flatMap_map, Function.comp_def]

theorem reads_text {s : String} {bytes : Bytes} (h : textBytes s = .ok bytes) :
    Reads Read.text bytes s := by
  obtain ⟨n, hn, h⟩ := except_bind_ok h
  cases h
  refine (Reads.u16 n).bind ((Reads.take (tableLength_ok hn).symm).map ?_)
  rw [Bytes.toString?_ofString]
  exact Reads.pure s

theorem poolBytes_ok : ∀ (ss : List String) {done : List Bytes} {bytes : Bytes},
    poolBytes done ss = .ok bytes →
      ∃ texts : List (String × Bytes), texts.map Prod.fst = ss ∧
        bytes = done.reverse.flatten ++ texts.flatMap Prod.snd ∧
        ∀ t ∈ texts, Reads Read.text t.2 t.1
  | [], done, bytes, h => by
      cases h
      exact ⟨[], by simp⟩
  | s :: rest, done, bytes, h => by
      obtain ⟨b, hb, h⟩ := except_bind_ok h
      obtain ⟨texts, rfl, rfl, htexts⟩ := poolBytes_ok rest h
      refine ⟨(s, b) :: texts, rfl, by simp, fun t ht => ?_⟩
      rcases List.mem_cons.mp ht with rfl | ht
      · exact reads_text hb
      · exact htexts t ht

/-! ## Names -/

theorem reads_nameAt {p : ConstantPool} {i : UInt16} {s : String} (h : p.get? i.toNat = some s) :
    Reads (Read.nameAt p.toList.toArray i) [] s := by
  unfold ConstantPool.get? at h
  split at h
  · cases h
  · next hi =>
      have hne : i ≠ 0 := fun h0 => hi (by rw [h0]; rfl)
      intro rest
      simp only [Read.nameAt, hne, if_false, List.getElem?_toArray, h]
      rfl

theorem reads_name {p : ConstantPool} {i : UInt16} {s : String} (h : p.get? i.toNat = some s) :
    Reads (Read.name p.toList.toArray) (u16Bytes i) s :=
  (Reads.u16 i).map (reads_nameAt h)

theorem internAll_ok : ∀ (ss : List String) {p q : ConstantPool} {done is : List UInt16},
    p.Fits → p.internAll done ss = .ok (is, q) →
      q.Fits ∧ q.Extends p ∧ ∃ new : List (UInt16 × String), is = done.reverse ++ new.map Prod.fst ∧
        new.map Prod.snd = ss ∧ ∀ t ∈ new, q.get? t.1.toNat = some t.2
  | [], p, q, done, is, hp, h => by
      cases h
      exact ⟨hp, .refl _, [], by simp⟩
  | s :: rest, p, q, done, is, hp, h => by
      obtain ⟨⟨i, p₁⟩, hi, h⟩ := except_bind_ok h
      obtain ⟨hfits, hext, hget⟩ := ConstantPool.intern_eq_ok hp hi
      obtain ⟨hfits', hext', new, rfl, rfl, hnew⟩ := internAll_ok rest hfits h
      refine ⟨hfits', hext'.trans hext, (i, s) :: new, by simp, rfl, fun t ht => ?_⟩
      rcases List.mem_cons.mp ht with rfl | ht
      · exact hext'.get? hget
      · exact hnew t ht

theorem memberIndices_ok {α : Type} {name descriptor : α → String} :
    ∀ (ms : List α) {p q : ConstantPool} {done rows : List (α × UInt16 × UInt16)},
    p.Fits → memberIndices name descriptor p done ms = .ok (rows, q) →
      q.Fits ∧ q.Extends p ∧ ∃ new : List (α × UInt16 × UInt16), rows = done.reverse ++ new ∧ new.map Prod.fst = ms ∧
        ∀ r ∈ new, q.get? r.2.1.toNat = some (name r.1) ∧
          q.get? r.2.2.toNat = some (descriptor r.1)
  | [], p, q, done, rows, hp, h => by
      cases h
      exact ⟨hp, .refl _, [], by simp⟩
  | m :: rest, p, q, done, rows, hp, h => by
      obtain ⟨⟨n, p₁⟩, hn, h⟩ := except_bind_ok h
      obtain ⟨⟨d, p₂⟩, hd, h⟩ := except_bind_ok h
      obtain ⟨hfits, hext, hname⟩ := ConstantPool.intern_eq_ok hp hn
      obtain ⟨hfits', hext', hdesc⟩ := ConstantPool.intern_eq_ok hfits hd
      obtain ⟨hfits'', hext'', new, rfl, rfl, hnew⟩ := memberIndices_ok rest hfits' h
      refine ⟨hfits'', (hext''.trans hext').trans hext, (m, n, d) :: new, by simp, rfl,
        fun r hr => ?_⟩
      rcases List.mem_cons.mp hr with rfl | hr
      · exact ⟨(hext''.trans hext').get? hname, hext''.get? hdesc⟩
      · exact hnew r hr

theorem optionalIndex_ok {p q : ConstantPool} {s : Option String} {i : UInt16} (hp : p.Fits)
    (h : optionalIndex p s = .ok (i, q)) :
    q.Fits ∧ q.Extends p ∧
      (i = 0 ∧ s = none ∨ ∃ t, s = some t ∧ q.get? i.toNat = some t) := by
  cases s with
  | none =>
      cases h
      exact ⟨hp, .refl _, .inl ⟨rfl, rfl⟩⟩
  | some t =>
      obtain ⟨hfits, hext, hget⟩ := ConstantPool.intern_eq_ok hp h
      exact ⟨hfits, hext, .inr ⟨t, rfl, hget⟩⟩

theorem reads_optionalName {p : ConstantPool} {i : UInt16} {s : Option String}
    (h : i = 0 ∧ s = none ∨ ∃ t, s = some t ∧ p.get? i.toNat = some t) :
    Reads (Read.optionalName p.toList.toArray) (u16Bytes i) s := by
  refine (Reads.u16 i).map ?_
  rcases h with ⟨rfl, rfl⟩ | ⟨t, rfl, ht⟩
  · exact Reads.pure none
  · have hne : i ≠ 0 := by
      rintro rfl
      cases ht
    rw [if_neg hne]
    exact (reads_nameAt ht).map (Reads.pure (some t))

/-! ## Members -/

theorem reads_field {p : ConstantPool} {f : FieldInfo} {n d : UInt16}
    (hn : p.get? n.toNat = some f.name) (hd : p.get? d.toNat = some f.descriptor) :
    Reads (Read.field p.toList.toArray) (u16Bytes f.flags ++ u16Bytes n ++ u16Bytes d) f := by
  rw [List.append_assoc]
  exact (Reads.u16 f.flags).bind <| (reads_name hn).bind <| (reads_name hd).map <| Reads.pure f

theorem reads_method {p : ConstantPool} {m : MethodInfo} {n d : UInt16} {bytes : Bytes}
    (hn : p.get? n.toNat = some m.name) (hd : p.get? d.toNat = some m.descriptor)
    (h : methodBytes m n d = .ok bytes) : Reads (Read.method p.toList.toArray) bytes m := by
  unfold methodBytes at h
  split at h
  · cases h
  · next hsize =>
      obtain ⟨lines, hlines, h⟩ := except_bind_ok h
      cases h
      have hcode : m.code.length = (UInt32.ofNat m.code.length).toNat :=
        (UInt32.toNat_ofNat_of_lt' (Nat.lt_of_not_le hsize)).symm
      have hrow (a : UInt32 × UInt32) : Reads
          (do let pc ← Read.u32; let line ← Read.u32; return (pc, line))
          (u32Bytes a.1 ++ u32Bytes a.2) a :=
        (Reads.u32 a.1).bind <| (Reads.u32 a.2).map <| Reads.pure a
      have hrows := reads_table (g := id) hlines fun a _ => hrow a
      rw [List.map_id] at hrows
      simp only [List.append_assoc]
      exact (Reads.u16 m.flags).bind <| (reads_name hn).bind <| (reads_name hd).bind <|
        (Reads.u16 m.maxLocals).bind <| (Reads.u32 _).bind <| (Reads.take hcode).bind <|
        hrows.map <| Reads.pure m

theorem methodsBytes_ok : ∀ (ms : List (MethodInfo × UInt16 × UInt16)) {done : List Bytes}
    {bytes : Bytes}, methodsBytes done ms = .ok bytes →
      ∃ texts : List ((MethodInfo × UInt16 × UInt16) × Bytes), texts.map Prod.fst = ms ∧
        bytes = done.reverse.flatten ++ texts.flatMap Prod.snd ∧
        ∀ t ∈ texts, methodBytes t.1.1 t.1.2.1 t.1.2.2 = .ok t.2
  | [], done, bytes, h => by
      cases h
      exact ⟨[], by simp⟩
  | (m, n, d) :: rest, done, bytes, h => by
      obtain ⟨b, hb, h⟩ := except_bind_ok h
      obtain ⟨texts, rfl, rfl, htexts⟩ := methodsBytes_ok rest h
      refine ⟨((m, n, d), b) :: texts, rfl, by simp, fun t ht => ?_⟩
      rcases List.mem_cons.mp ht with rfl | ht
      · exact hb
      · exact htexts t ht

/-! ## Classes -/

theorem ofCode?_code (l : LanguageLevel) :
    LanguageLevel.ofCode? (UInt16.ofNat l.code).toNat = some l := by
  cases l <;> rfl

theorem toList_foldl_push : ∀ (ss : List String) (p : ConstantPool),
    (ss.foldl ConstantPool.push p).toList = p.toList ++ ss
  | [], p => by simp
  | s :: rest, p => by
      rw [List.foldl_cons, toList_foldl_push rest, ConstantPool.toList_push]
      simp

/-- The indices of the header in the pool that the bytes hold. -/
structure Header (c : ClassFile) (pool : ConstantPool) where
  this : UInt16
  superclass : UInt16
  outer : UInt16
  nested : List (UInt16 × String)
  fields : List (FieldInfo × UInt16 × UInt16)
  methods : List (MethodInfo × UInt16 × UInt16)
  this_get? : pool.get? this.toNat = some c.name
  superclass_get? : superclass = 0 ∧ c.superclass = none ∨
    ∃ t, c.superclass = some t ∧ pool.get? superclass.toNat = some t
  outer_get? : outer = 0 ∧ c.outer = none ∨
    ∃ t, c.outer = some t ∧ pool.get? outer.toNat = some t
  nested_eq : nested.map Prod.snd = c.nested
  nested_get? : ∀ t ∈ nested, pool.get? t.1.toNat = some t.2
  fields_eq : fields.map Prod.fst = c.fields
  fields_get? : ∀ r ∈ fields, pool.get? r.2.1.toNat = some r.1.name ∧
    pool.get? r.2.2.toNat = some r.1.descriptor
  methods_eq : methods.map Prod.fst = c.methods
  methods_get? : ∀ r ∈ methods, pool.get? r.2.1.toNat = some r.1.name ∧
    pool.get? r.2.2.toNat = some r.1.descriptor

/-- The parts of an encoded class: the pool with all names, and the tables over it. -/
theorem encode_ok {c : ClassFile} {bytes : Bytes} (hp : c.pool.Fits)
    (h : c.encode = .ok bytes) :
    ∃ (pool : ConstantPool) (header : Header c pool) (size count : UInt16)
      (constants nested fields methods : Bytes),
      pool.Fits ∧ pool.toList = c.allNames ∧ tableLength pool.size = .ok size ∧
      poolBytes [] pool.toList = .ok constants ∧
      tableBytes u16Bytes (header.nested.map Prod.fst) = .ok nested ∧
      tableBytes (fun (f, n, d) => u16Bytes f.flags ++ u16Bytes n ++ u16Bytes d) header.fields =
        .ok fields ∧
      tableLength header.methods.length = .ok count ∧
      methodsBytes [] header.methods = .ok methods ∧
      bytes = artifactMagic ++ u16Bytes (UInt16.ofNat c.target.code) ++ u16Bytes size ++
        constants ++ u16Bytes c.flags ++ u16Bytes header.this ++ u16Bytes header.superclass ++
        u16Bytes header.outer ++ nested ++ fields ++ u16Bytes count ++ methods := by
  obtain ⟨⟨this, p₁⟩, h₁, h⟩ := except_bind_ok h
  obtain ⟨⟨superclass, p₂⟩, h₂, h⟩ := except_bind_ok h
  obtain ⟨⟨outer, p₃⟩, h₃, h⟩ := except_bind_ok h
  obtain ⟨⟨nested, p₄⟩, h₄, h⟩ := except_bind_ok h
  obtain ⟨⟨fields, p₅⟩, h₅, h⟩ := except_bind_ok h
  obtain ⟨⟨methods, p₆⟩, h₆, h⟩ := except_bind_ok h
  obtain ⟨size, hsize, h⟩ := except_bind_ok h
  obtain ⟨constants, hconstants, h⟩ := except_bind_ok h
  obtain ⟨nestedTable, hnestedTable, h⟩ := except_bind_ok h
  obtain ⟨fieldTable, hfieldTable, h⟩ := except_bind_ok h
  obtain ⟨count, hcount, h⟩ := except_bind_ok h
  obtain ⟨methodTable, hmethodTable, h⟩ := except_bind_ok h
  cases h
  have hindices : c.indices = .ok (⟨this, superclass, outer, nested, fields, methods⟩, p₆) := by
    simp only [indices, bind, Except.bind, h₁, h₂, h₃, h₄, h₅, h₆]
    rfl
  have hnames := toList_of_indices hindices
  obtain ⟨fits₁, -, get₁⟩ := ConstantPool.intern_eq_ok hp h₁
  obtain ⟨fits₂, ext₂, get₂⟩ := optionalIndex_ok fits₁ h₂
  obtain ⟨fits₃, ext₃, get₃⟩ := optionalIndex_ok fits₂ h₃
  obtain ⟨fits₄, ext₄, is, rfl, hnested, get₄⟩ := internAll_ok c.nested fits₃ h₄
  obtain ⟨fits₅, ext₅, _, rfl, hfields, get₅⟩ := memberIndices_ok c.fields fits₄ h₅
  obtain ⟨fits₆, ext₆, _, rfl, hmethods, get₆⟩ := memberIndices_ok c.methods fits₅ h₆
  have ext₆₄ := ext₆.trans ext₅
  have ext₆₃ := ext₆₄.trans ext₄
  have ext₆₂ := ext₆₃.trans ext₃
  have ext₆₁ := ext₆₂.trans ext₂
  refine ⟨p₆, ⟨this, superclass, outer, is, fields, methods, ext₆₁.get? get₁, ?_, ?_, hnested,
    fun t ht => ext₆₄.get? (get₄ t ht), hfields, fun r hr => ?_, hmethods, get₆⟩, size, count,
    constants, nestedTable, fieldTable, methodTable, fits₆, hnames, hsize, hconstants,
    hnestedTable, hfieldTable, hcount, hmethodTable, rfl⟩
  · exact get₂.imp_right fun h => h.imp fun _ h => h.imp_right ext₆₂.get?
  · exact get₃.imp_right fun h => h.imp fun _ h => h.imp_right ext₆₃.get?
  · exact ⟨ext₆.get? (get₅ r hr).1, ext₆.get? (get₅ r hr).2⟩

/-- The code of a method that has been encoded is no longer than its length can tell. -/
theorem length_code_lt {c : ClassFile} {bytes : Bytes} (hp : c.pool.Fits)
    (h : c.encode = .ok bytes) : ∀ m ∈ c.methods, m.code.length < 0x100000000 := by
  obtain ⟨pool, header, -, -, -, -, -, methods, -, -, -, -, -, -, -, hmethods, -⟩ := encode_ok hp h
  obtain ⟨parts, hparts, -, hmethod⟩ := methodsBytes_ok _ hmethods
  intro m hm
  rw [← header.methods_eq, ← hparts, List.map_map] at hm
  obtain ⟨part, hpart, rfl⟩ := List.mem_map.mp hm
  have hbytes := hmethod part hpart
  unfold methodBytes at hbytes
  split at hbytes
  · cases hbytes
  · next hsize => exact Nat.lt_of_not_le hsize

/-- A class is read from the parts of its encoding. -/
theorem reads_classFile {c : ClassFile} {pool : ConstantPool} (header : Header c pool)
    {constants nested fields methods : Bytes}
    (hconstants : Reads (Read.table Read.text) constants pool.toList)
    (hnested : Reads (Read.table (Read.name pool.toList.toArray)) nested c.nested)
    (hfields : Reads (Read.table (Read.field pool.toList.toArray)) fields c.fields)
    (hmethods : Reads (Read.table (Read.method pool.toList.toArray)) methods c.methods) :
    Reads Read.classFile
      (artifactMagic ++ (u16Bytes (UInt16.ofNat c.target.code) ++ (constants ++
        (u16Bytes c.flags ++ (u16Bytes header.this ++ (u16Bytes header.superclass ++
        (u16Bytes header.outer ++ (nested ++ (fields ++ methods)))))))))
      { c with pool := pool.toList.foldl ConstantPool.push .empty } := by
  have hmagic : Reads (Read.take 4) artifactMagic artifactMagic := Reads.take rfl
  refine hmagic.bind ?_
  rw [if_neg (by simp)]
  refine (Reads.u16 _).bind ?_
  rw [ofCode?_code]
  refine hconstants.bind ?_
  refine (Reads.u16 _).bind ?_
  refine (reads_name header.this_get?).bind ?_
  refine (reads_optionalName header.superclass_get?).bind ?_
  refine (reads_optionalName header.outer_get?).bind ?_
  refine hnested.bind ?_
  refine hfields.bind ?_
  exact hmethods.map (Reads.pure _)

/-- An encoded class is decoded as it was, but for the names that were added to its pool. -/
theorem decode_encode {c : ClassFile} {bytes : Bytes} (hp : c.pool.Fits)
    (h : c.encode = .ok bytes) :
    ∃ pool : ConstantPool, pool.Fits ∧ pool.toList = c.allNames ∧
      decode bytes = .ok { c with pool := pool } := by
  obtain ⟨pool, header, size, count, constants, nested, fields, methods, hfits, hnames, hsize,
    hconstants, hnested, hfields, hcount, hmethods, rfl⟩ := encode_ok hp h
  obtain ⟨texts, htexts, rfl, hreadText⟩ := poolBytes_ok _ hconstants
  obtain ⟨parts, hparts, rfl, hmethod⟩ := methodsBytes_ok _ hmethods
  have hreadConstants : Reads (Read.table Read.text)
      (u16Bytes size ++ texts.flatMap Prod.snd) pool.toList := by
    rw [← htexts]
    refine reads_rows ?_ hreadText
    rw [← hsize, ← pool.length_toList, ← htexts, List.length_map]
  have hreadNested : Reads (Read.table (Read.name pool.toList.toArray)) nested c.nested := by
    rw [tableBytes_map] at hnested
    rw [← header.nested_eq]
    exact reads_table hnested fun t ht => reads_name (header.nested_get? t ht)
  have hreadFields : Reads (Read.table (Read.field pool.toList.toArray)) fields c.fields := by
    rw [← header.fields_eq]
    exact reads_table hfields fun r hr =>
      reads_field (header.fields_get? r hr).1 (header.fields_get? r hr).2
  have hreadMethods : Reads (Read.table (Read.method pool.toList.toArray))
      (u16Bytes count ++ parts.flatMap Prod.snd) c.methods := by
    rw [← header.methods_eq, ← hparts, List.map_map]
    refine reads_rows ?_ fun t ht => ?_
    · rw [← hcount, ← hparts, List.length_map]
    · have hr := header.methods_get? t.1 (hparts ▸ List.mem_map_of_mem ht)
      exact reads_method hr.1 hr.2 (hmethod t ht)
  have hclass := reads_classFile header hreadConstants hreadNested hreadFields hreadMethods []
  have hpool := toList_foldl_push pool.toList .empty
  rw [ConstantPool.toList_empty, List.nil_append] at hpool
  refine ⟨pool.toList.foldl ConstantPool.push .empty, ?_, ?_, ?_⟩
  · rw [ConstantPool.Fits, ← ConstantPool.length_toList, hpool, ConstantPool.length_toList]
    exact hfits
  · rw [hpool, hnames]
  · simp only [List.append_assoc, List.append_nil] at hclass
    simp only [List.append_assoc, List.reverse_nil, List.flatten_nil, List.nil_append]
    rw [decode, hclass]
    rfl

end ClassFile

end ProbeLang
