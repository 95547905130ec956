import ProbeLang.Proofs.Analysis.Attribution
import ProbeLang.Proofs.Code.Artifacts
import ProbeLang.Proofs.Code.Jumps
import ProbeLang.Proofs.Code.Reading

/-!
# Well-formed methods

The code of every method of an artifact is read back instruction by instruction. Its jumps lead to
instructions, its slots are among those of the method, its constants are the texts that it was made
with, and its lines begin at instructions, in their order. What this takes from the analysis is that
static code makes no use of `this` and that the values of fields name no local variables.
-/

namespace ProbeLang

open Code

/-! ## Symbolic methods -/

/-- Whether the jumps of a symbolic method stay in it and its slots are those that it counts. -/
structure SymbolicMethod.Closed (sym : SymbolicMethod) : Prop where
  inside : JumpsInside 0 sym.code
  slots : SlotsBelow sym.locals sym.code

/-- Lists that agree in some respect also do so place by place. -/
theorem eq_of_mem_zip {α β γ : Type} {f : α → γ} {g : β → γ} : ∀ {as : List α} {bs : List β},
    bs.map g = as.map f → ∀ p ∈ as.zip bs, f p.1 = g p.2
  | a :: as, b :: bs, h, p, hp => by
      obtain ⟨hhead, htail⟩ := List.cons.inj h
      rcases List.mem_cons.mp hp with rfl | hp
      · exact hhead.symm
      · exact eq_of_mem_zip htail p hp

namespace ClassDecl

variable {c : ClassDecl} {symbol : ClassSymbol}

theorem fieldValuesClosed (hfit : c.Fit) (hsigns : symbol.Signs c) :
    FieldValuesClosed (c.fields.zip symbol.fields) := by
  intro f hf e he x hx
  have hstatic := congrArg Prod.snd (eq_of_mem_zip hsigns.fields f hf)
  obtain ⟨hx, hplace⟩ := hfit.fields (List.of_mem_zip hf).1 e he x hx
  exact ⟨hplace, fun h => hx.static (hstatic.trans h)⟩

/-- The methods of a class that is fit for code and has its signatures are closed. -/
theorem symbolicMethods_closed (hfit : c.Fit) (hsigns : symbol.Signs c) (superclass : String) :
    ∀ sym ∈ c.symbolicMethods symbol superclass, sym.Closed := by
  have hfields := fieldValuesClosed hfit hsigns
  intro sym hsym
  rcases List.mem_cons.mp hsym with rfl | hsym
  · exact ⟨(instanceInit_skips _ _ _).inside, instanceInit_slotsBelow hfields⟩
  rcases List.mem_append.mp hsym with hsym | hsym
  · obtain ⟨⟨m, sig⟩, hm, rfl⟩ := List.mem_map.mp hsym
    have hstatic := congrArg (fun p => p.2.2) (eq_of_mem_zip hsigns.methods (m, sig) hm)
    have hbody := hfit.methods (List.of_mem_zip hm).1
    refine ⟨m.code_inside sig, MethodDecl.code_slotsBelow fun h x hx => ?_⟩
    exact (hbody.evaluated x hx).static (hstatic.trans h)
  · split at hsym
    · obtain rfl := List.mem_singleton.mp hsym
      exact ⟨(classInit_skips _ _).inside, classInit_slotsBelow hfields⟩
    · cases hsym

end ClassDecl

/-! ## Methods -/

/-- Whether a method, with the constants of its class, is well-formed: which instructions it is read
as, and the symbolic method whose texts the constants are. -/
structure MethodInfo.WellFormed (pool : ConstantPool) (m : MethodInfo) (code : Code)
    (sym : SymbolicMethod) : Prop where
  name : m.name = sym.name
  descriptor : m.descriptor = sym.descriptor
  read : Code.read? m.code = some code
  encode : code.encode = m.code
  jumps : JumpsInside 0 code
  slots : ∀ i ∈ code, ∀ slot, i.slot? = some slot → slot.toNat < m.maxLocals.toNat
  constants : resolve pool code = sym.code.resolved
  ordered : (m.lines.map Prod.fst).Pairwise (· ≤ ·)
  lines : ∀ pc ∈ m.lines.map Prod.fst, pc.toNat ∈ starts 0 code

/-- The method that a closed symbolic method becomes is well-formed. -/
theorem MethodInfo.Links.wellFormed {pool : ConstantPool} {m : MethodInfo} {sym : SymbolicMethod}
    (h : m.Links pool sym) (hsym : sym.Closed) (hlength : m.code.length < 0x100000000) :
    ∃ code, m.WellFormed pool code sym := by
  obtain ⟨code, hcode, hresolve⟩ := h.code
  obtain ⟨marks, hmarks, hlines⟩ := h.lines
  have hstarts : starts 0 code = starts 0 sym.code := by
    have hsame := congrArg (starts 0) hresolve
    rwa [resolve, SymbolicCode.resolved, starts_map, starts_map] at hsame
  have hinside : JumpsInside 0 code := by
    have hsame : JumpsInside 0 (resolve pool code) :=
      hresolve ▸ (jumpsInside_map some).mpr hsym.inside
    exact (jumpsInside_map _).mp hsame
  have hfits {pc : Nat} (hpc : pc ∈ starts 0 code) : pc < 0x100000000 := by
    have hbounds := bounds_of_mem_starts hpc
    rw [hcode, Code.length_encode] at hlength
    omega
  have hslots : SlotsBelow sym.locals code := by
    have hsame : SlotsBelow sym.locals (resolve pool code) :=
      hresolve ▸ (slotsBelow_map some).mpr hsym.slots
    exact (slotsBelow_map _).mp hsame
  refine ⟨code, h.name, h.descriptor, ?_, hcode.symm, hinside, fun i hi slot hslot => ?_, hresolve,
    ?_, fun pc hpc => ?_⟩
  · rw [hcode]
    exact read?_encode fun i hi target htarget => hfits (hinside i hi target htarget)
  · obtain ⟨n, hn, rfl⟩ := hslots i hi slot hslot
    rw [h.maxLocals, UInt16.toNat_ofNat_of_lt' ?_]
    · exact hn
    · have := m.maxLocals.toNat_lt
      rw [h.maxLocals] at this
      exact Nat.lt_trans hn this
  · rw [hlines, List.map_map, List.pairwise_map, List.pairwise_reverse]
    refine hmarks.ordered.imp_of_mem fun {later earlier} hlater hearlier hle => ?_
    have hlt := hfits (hstarts ▸ hmarks.starts later hlater)
    rw [Function.comp_apply, Function.comp_apply, UInt32.le_iff_toNat_le,
      UInt32.toNat_ofNat_of_lt' hlt, UInt32.toNat_ofNat_of_lt' (Nat.lt_of_le_of_lt hle hlt)]
    exact hle
  · rw [hlines, List.map_map] at hpc
    obtain ⟨mark, hmark, rfl⟩ := List.mem_map.mp hpc
    have hstart := hstarts ▸ hmarks.starts mark (List.mem_reverse.mp hmark)
    rw [Function.comp_apply, UInt32.toNat_ofNat_of_lt' (hfits hstart)]
    exact hstart

/-- What is read back from the artifact of a class that is fit for code is well-formed. -/
theorem ClassDecl.decode_wellFormed {options : Options} {c : ClassDecl} {symbol : ClassSymbol}
    {file : ClassFile} {bytes : Bytes} (hfit : c.Fit) (hsigns : symbol.Signs c)
    (hfile : c.classFile options symbol = .ok file) (hencode : file.encode = .ok bytes) :
    ∃ read, ClassFile.decode bytes = .ok read ∧
      List.Forall₂ (fun m sym => ∃ code, m.WellFormed read.pool code sym) read.methods
        (c.symbolicMethods symbol ((superclassName symbol).getD objectName)) := by
  obtain ⟨pool, hdecode, hlength, hlinks⟩ := decode_links hfile hencode
  refine ⟨_, hdecode, ?_⟩
  have hclosed := symbolicMethods_closed hfit hsigns ((superclassName symbol).getD objectName)
  obtain ⟨hcount, hzip⟩ := List.forall₂_iff_zip.mp hlinks
  refine List.forall₂_iff_zip.mpr ⟨hcount, fun {m sym} hm => ?_⟩
  obtain ⟨hmethod, hsym⟩ := List.of_mem_zip hm
  exact (hzip hm).wellFormed (hclosed sym hsym) (hlength m hmethod)

end ProbeLang
