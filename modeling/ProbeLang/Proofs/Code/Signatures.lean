import Mathlib.Data.List.Forall2
import Mathlib.Data.List.TakeWhile
import ProbeLang.Proofs.Code.Methods
import ProbeLang.Proofs.Session.Loading
import ProbeLang.Proofs.Session.Signatures
import ProbeLang.Proofs.Tree.Parsed
import ProbeLang.Proofs.Tree.Words
import ProbeLang.Session.Classes
import ProbeLang.Ty

/-!
# Signatures that are read back

The symbol of an artifact agrees with that of the class it was made from (`symbol_classFile`): the
flags hold a modifier exactly if the declaration has it, the descriptors are read back as the types
they were written for, and of the methods only the two initialisers are left out, since no declared
method has a name with a bracket.
-/

namespace ProbeLang

/-! ## Descriptors are read back

What is read as a type is a code word, of which a class has several: a dot of its name may be written
as it is or as a slash. No code word is the beginning of another, so what stands behind one does not
matter when it is read, and code words can follow one another without separators. -/

theorem toList_replaceChar (old new : Char) (s : String) :
    (replaceChar old new s).toList = s.toList.map fun c => if c = old then new else c := by
  rw [replaceChar, String.toList_ofList]

/-- Replacing a character by one that is not in a text can be undone. -/
theorem replaceChar_replaceChar {old new : Char} {s : String} (h : new ∉ s.toList) :
    replaceChar new old (replaceChar old new s) = s := by
  apply String.toList_injective
  rw [toList_replaceChar, toList_replaceChar, List.map_map]
  refine (List.map_congr_left fun c hc => ?_).trans (List.map_id _)
  have hne : c ≠ new := fun heq => h (heq ▸ hc)
  by_cases hold : c = old
  · simp [hold]
  · simp [hold, hne]

namespace Ty

/-- The code words that are read as a type. -/
inductive Coded : Ty → List Char → Prop
  | void : Coded .void ['V']
  | int : Coded .int ['I']
  | long : Coded .long ['J']
  | boolean : Coded .boolean ['Z']
  | char : Coded .char ['C']
  | cls {name : List Char} (nonempty : name ≠ []) (ends : ';' ∉ name) :
      Coded (.cls (replaceChar '/' '.' (String.ofList name))) ('L' :: (name ++ [';']))
  | array {elem : Ty} {word : List Char} (elem_coded : elem.Coded word) :
      Coded (.array elem) ('[' :: word)

/-- Whether a type is read back from its descriptor: its classes have names, and in these there is
neither what ends a name nor what a dot is written as. The two answers of the analysis are written,
and so read back, as the root class. -/
def Encodable : Ty → Prop
  | .cls name => name ≠ "" ∧ ';' ∉ name.toList ∧ '/' ∉ name.toList
  | .array elem => elem.Encodable
  | .null | .unknown => False
  | _ => True

/-- Whether a type is one of a declaration: its classes have names that are spelled. -/
def Readable : Ty → Prop
  | .cls name => Spelled name
  | .array elem => elem.Readable
  | .null | .unknown => False
  | _ => True

theorem Readable.encodable : ∀ {ty : Ty}, ty.Readable → ty.Encodable
  | .void, _ | .int, _ | .long, _ | .boolean, _ | .char, _ => trivial
  | .cls name, h => by
      have hspelled : Spelled name := h
      refine ⟨fun heq => hspelled.1 (heq ▸ rfl), ?_, ?_⟩
      · exact hspelled.not_mem (by decide +kernel) (by decide)
      · exact hspelled.not_mem (by decide +kernel) (by decide)
  | .array elem, h => by
      have helem : elem.Readable := h
      exact helem.encodable

/-- A text up to a character that is not in it. -/
theorem takeWhile_append_cons {c : Char} {cs : List Char} (h : c ∉ cs) (rest : List Char) :
    (cs ++ c :: rest).takeWhile (· ≠ c) = cs ∧ (cs ++ c :: rest).dropWhile (· ≠ c) = c :: rest := by
  induction cs with
  | nil => simp
  | cons d cs ih =>
      obtain ⟨htake, hdrop⟩ := ih (List.not_mem_of_not_mem_cons h)
      have hne : d ≠ c := fun heq => h (heq ▸ List.mem_cons_self)
      rw [List.cons_append, List.takeWhile_cons_of_pos (by simpa using hne),
        List.dropWhile_cons_of_pos (by simpa using hne), htake, hdrop]
      exact ⟨rfl, rfl⟩

/-- A text is what stands in front of a character, which is not in it, and what stands behind. -/
theorem eq_append_of_dropWhile {c d : Char} {cs rest : List Char}
    (h : cs.dropWhile (· ≠ c) = d :: rest) :
    c ∉ cs.takeWhile (· ≠ c) ∧ cs = cs.takeWhile (· ≠ c) ++ c :: rest := by
  constructor
  · intro hmem
    simpa using List.mem_takeWhile_imp hmem
  · have hd : d = c := by
      have hhead := List.head?_dropWhile_not (· ≠ c) cs
      rw [h] at hhead
      simpa using hhead
    conv_lhs => rw [← List.takeWhile_append_dropWhile (p := (· ≠ c)) (l := cs), h, hd]

/-- A type is read from its code words, whatever stands behind them. -/
theorem Coded.read {ty : Ty} {word : List Char} (h : ty.Coded word) (rest : List Char) :
    readDescriptor (word ++ rest) = some (ty, rest) := by
  induction h with
  | void | int | long | boolean | char => rfl
  | @cls name nonempty ends =>
      obtain ⟨htake, hdrop⟩ := takeWhile_append_cons ends rest
      have htext : 'L' :: (name ++ [';']) ++ rest = 'L' :: (name ++ ';' :: rest) := by simp
      rw [htext, readDescriptor, htake, hdrop]
      cases name with
      | nil => exact absurd rfl nonempty
      | cons c cs => rfl
  | array _ ih => rw [List.cons_append, readDescriptor, ih, Option.map_some]

/-- Only code words are read. -/
theorem coded_of_read {cs : List Char} : ∀ {ty : Ty} {rest : List Char},
    readDescriptor cs = some (ty, rest) → ∃ word, ty.Coded word ∧ cs = word ++ rest := by
  fun_induction readDescriptor cs with
  | case1 rest | case2 rest | case3 rest | case4 rest | case5 rest =>
      rintro ty rest ⟨⟩
      exact ⟨_, by constructor, rfl⟩
  | case6 | case7 => rintro _ _ ⟨⟩
  | case8 cs head tail hdrop hne =>
      rintro ty rest ⟨⟩
      obtain ⟨hmem, heq⟩ := eq_append_of_dropWhile hdrop
      refine ⟨_, .cls hne hmem, ?_⟩
      rw [List.cons_append, List.append_assoc, List.singleton_append, ← heq]
  | case9 cs ih =>
      intro ty rest h
      obtain ⟨⟨elem, rest'⟩, hread, heq⟩ := Option.map_eq_some_iff.mp h
      cases heq
      obtain ⟨word, hword, rfl⟩ := ih hread
      exact ⟨_, hword.array, rfl⟩
  | case10 => rintro _ _ ⟨⟩

/-- What is read is a code word, and nothing behind it is looked at. -/
theorem readDescriptor_eq_some {cs rest : List Char} {ty : Ty} :
    readDescriptor cs = some (ty, rest) ↔ ∃ word, ty.Coded word ∧ cs = word ++ rest := by
  refine ⟨coded_of_read, ?_⟩
  rintro ⟨word, hword, rfl⟩
  exact hword.read rest

/-- A descriptor is a code word of its type. -/
theorem Encodable.coded : ∀ {ty : Ty}, ty.Encodable → ty.Coded ty.descriptor.toList
  | .void, _ => .void
  | .int, _ => .int
  | .long, _ => .long
  | .boolean, _ => .boolean
  | .char, _ => .char
  | .cls name, h => by
      obtain ⟨hne, hsemicolon, hslash⟩ := h
      have hword : (Ty.cls name).descriptor.toList =
          'L' :: ((replaceChar '.' '/' name).toList ++ [';']) := by
        simp [descriptor, classDescriptor, String.toList_append]
      have hname : name = replaceChar '/' '.' (String.ofList (replaceChar '.' '/' name).toList) := by
        rw [String.ofList_toList, replaceChar_replaceChar hslash]
      rw [hword]
      conv => arg 1; rw [hname]
      refine .cls ?_ ?_
      · rw [toList_replaceChar]
        exact fun hnil => hne (String.toList_eq_nil_iff.mp (List.map_eq_nil_iff.mp hnil))
      · rw [toList_replaceChar]
        intro hmem
        obtain ⟨c, hc, heq⟩ := List.mem_map.mp hmem
        split at heq
        · cases heq
        · exact hsemicolon (heq ▸ hc)
  | .array elem, h => by
      have helem : elem.Encodable := h
      have hword : (Ty.array elem).descriptor.toList = '[' :: elem.descriptor.toList := by
        simp [descriptor, String.toList_append]
      rw [hword]
      exact helem.coded.array

/-- A type is read back from its descriptor. -/
theorem Encodable.read {ty : Ty} (h : ty.Encodable) (rest : List Char) :
    readDescriptor (ty.descriptor.toList ++ rest) = some (ty, rest) :=
  h.coded.read rest

/-- A code word does not begin with a parenthesis. -/
theorem Coded.eq_cons {ty : Ty} {word : List Char} (h : ty.Coded word) :
    ∃ c cs, word = c :: cs ∧ c ≠ ')' := by
  cases h <;> exact ⟨_, _, rfl, by decide⟩

end Ty

/-! ### Signatures -/

/-- Parameters are read from code words one behind the other, up to the parenthesis. -/
theorem readParamDescriptors_flatten {params : List Ty} {words : List (List Char)}
    (h : List.Forall₂ Ty.Coded params words) (rest : List Char) {fuel : Nat}
    (hfuel : params.length ≤ fuel) (done : List Ty) :
    readParamDescriptors fuel done (words.flatten ++ ')' :: rest) =
      some (done.reverse ++ params, rest) := by
  induction h generalizing fuel done with
  | nil => simp [readParamDescriptors]
  | @cons p word params words hp hparams ih =>
      cases fuel with
      | zero => cases hfuel
      | succ fuel =>
          obtain ⟨c, cs, rfl, hc⟩ := hp.eq_cons
          have hread := hp.read (words.flatten ++ ')' :: rest)
          rw [List.flatten_cons, List.append_assoc]
          rw [List.cons_append] at hread ⊢
          rw [readParamDescriptors, hread]
          · refine (ih (Nat.le_of_succ_le_succ hfuel) (p :: done)).trans ?_
            rw [List.reverse_cons, List.append_assoc, List.singleton_append]
          · intro rest' heq
            exact hc (List.cons.inj heq).1

theorem coded_of_readParams {fuel : Nat} {done : List Ty} {cs : List Char} :
    ∀ {ps : List Ty} {rest : List Char}, readParamDescriptors fuel done cs = some (ps, rest) →
      ∃ params words, List.Forall₂ Ty.Coded params words ∧ ps = done.reverse ++ params ∧
        cs = words.flatten ++ ')' :: rest := by
  fun_induction readParamDescriptors fuel done cs with
  | case1 fuel done rest =>
      rintro ps rest ⟨⟩
      exact ⟨[], [], .nil, (List.append_nil _).symm, rfl⟩
  | case2 => rintro _ _ ⟨⟩
  | case3 done cs fuel hcs ih =>
      intro ps rest h
      obtain ⟨⟨ty, cs'⟩, hread, hrest⟩ := Option.bind_eq_some_iff.mp h
      obtain ⟨word, hword, rfl⟩ := Ty.coded_of_read hread
      obtain ⟨params, words, hparams, rfl, rfl⟩ := ih _ _ hrest
      refine ⟨ty :: params, word :: words, .cons hword hparams, ?_, ?_⟩
      · rw [List.reverse_cons, List.append_assoc, List.singleton_append]
      · rw [List.flatten_cons, List.append_assoc]

/-- There are no fewer characters in code words than there are code words. -/
theorem length_le_flatten {params : List Ty} {words : List (List Char)}
    (h : List.Forall₂ Ty.Coded params words) : params.length ≤ words.flatten.length := by
  induction h with
  | nil => exact Nat.le_refl _
  | cons hp _ ih =>
      obtain ⟨c, cs, rfl, -⟩ := hp.eq_cons
      rw [List.flatten_cons, List.length_append, List.length_cons, List.length_cons]
      omega

/-- A signature is read from a text that consists of code words, and from no other. -/
theorem readMethodDescriptor_eq_some {text : String} {params : List Ty} {ret : Ty} :
    readMethodDescriptor text = some (params, ret) ↔
      ∃ words word, List.Forall₂ Ty.Coded params words ∧ ret.Coded word ∧
        text.toList = '(' :: (words.flatten ++ ')' :: word) := by
  constructor
  · intro h
    unfold readMethodDescriptor at h
    split at h
    · next cs htext =>
        obtain ⟨⟨ps, rest⟩, hparams, hbehind⟩ := Option.bind_eq_some_iff.mp h
        obtain ⟨⟨ty, last⟩, hret, hend⟩ := Option.bind_eq_some_iff.mp hbehind
        obtain ⟨params', words, hwords, rfl, rfl⟩ := coded_of_readParams hparams
        obtain ⟨word, hword, rfl⟩ := Ty.coded_of_read hret
        obtain ⟨hempty, hsig⟩ := Option.ite_none_right_eq_some.mp hend
        cases hsig
        rw [List.isEmpty_iff.mp hempty, List.append_nil] at htext
        exact ⟨words, word, hwords, hword, htext⟩
    · cases h
  · rintro ⟨words, word, hwords, hword, htext⟩
    have hfuel : params.length ≤ (words.flatten ++ ')' :: word).length := by
      rw [List.length_append]
      exact Nat.le_trans (length_le_flatten hwords) (Nat.le_add_right _ _)
    have hparams := readParamDescriptors_flatten hwords word hfuel []
    have hret := hword.read []
    rw [List.append_nil] at hret
    simp only [readMethodDescriptor, htext, hparams, hret, Option.bind_eq_bind, Option.bind_some,
      List.reverse_nil, List.nil_append, List.isEmpty_nil, if_true]

/-- A signature is read back from its descriptor. -/
theorem readMethodDescriptor_methodDescriptor {params : List Ty} {ret : Ty}
    (hparams : ∀ p ∈ params, p.Encodable) (hret : ret.Encodable) :
    readMethodDescriptor (methodDescriptor params ret) = some (params, ret) := by
  refine readMethodDescriptor_eq_some.mpr
    ⟨params.map fun p => p.descriptor.toList, ret.descriptor.toList, ?_, hret.coded, ?_⟩
  · exact List.forall₂_map_right_iff.mpr (List.forall₂_same.mpr fun p hp => (hparams p hp).coded)
  · simp [methodDescriptor, String.toList_append, List.flatMap_def, Function.comp_def]

/-- Descriptors are an unambiguous code. A type that can be written is read back from its descriptor
whatever stands behind it, and so is a signature; hence signatures with one descriptor are the same.
Of any text, exactly a code word at its beginning is read as a type, and what stands behind is left;
as a signature, exactly a text that consists of code words is read. -/
theorem descriptors_unambiguous :
    (∀ (ty : Ty) (rest : String), ty.Encodable →
      Ty.readDescriptor (ty.descriptor ++ rest).toList = some (ty, rest.toList)) ∧
    (∀ (params : List Ty) (ret : Ty), (∀ p ∈ params, p.Encodable) → ret.Encodable →
      readMethodDescriptor (methodDescriptor params ret) = some (params, ret) ∧
      ∀ (params' : List Ty) (ret' : Ty), (∀ p ∈ params', p.Encodable) → ret'.Encodable →
        methodDescriptor params ret = methodDescriptor params' ret' →
          params = params' ∧ ret = ret') ∧
    (∀ (cs rest : List Char) (ty : Ty), Ty.readDescriptor cs = some (ty, rest) ↔
      ∃ word, ty.Coded word ∧ cs = word ++ rest) ∧
    ∀ (text : String) (params : List Ty) (ret : Ty),
      readMethodDescriptor text = some (params, ret) ↔
        ∃ words word, List.Forall₂ Ty.Coded params words ∧ ret.Coded word ∧
          text.toList = '(' :: (words.flatten ++ ')' :: word) := by
  refine ⟨?_, ?_, fun _ _ _ => Ty.readDescriptor_eq_some, fun _ _ _ => readMethodDescriptor_eq_some⟩
  · intro ty rest hty
    rw [String.toList_append]
    exact hty.read rest.toList
  · intro params ret hparams hret
    have hread := readMethodDescriptor_methodDescriptor hparams hret
    refine ⟨hread, fun params' ret' hparams' hret' heq => ?_⟩
    rw [heq, readMethodDescriptor_methodDescriptor hparams' hret'] at hread
    cases hread
    exact ⟨rfl, rfl⟩

example : readMethodDescriptor "(I[La/B;Z)J" =
    some ([.int, .array (.cls "a.B"), .boolean], .long) := by decide +kernel

/-! ## Symbols that are read back -/

/-! ### Flags -/

/-- A bit is set in two flags that are joined if one of them has it. -/
theorem or_and_ne_zero (a b flag : UInt16) :
    ((a ||| b) &&& flag != 0) = ((a &&& flag != 0) || (b &&& flag != 0)) := by
  have hand : (a ||| b) &&& flag = (a &&& flag) ||| (b &&& flag) := by
    apply UInt16.toBitVec_inj.mp
    simp only [UInt16.toBitVec_and, UInt16.toBitVec_or]
    exact BitVec.and_or_distrib_right
  rw [hand, Bool.eq_iff_iff, bne_iff_ne, Bool.or_eq_true, bne_iff_ne, bne_iff_ne, ne_eq,
    UInt16.or_eq_zero_iff]
  exact Decidable.not_and_iff_or_not

namespace Modifiers

/-- A bit is set if a modifier sets it. -/
theorem bits_and_ne_zero (m : Modifiers) (flag : UInt16) :
    (m.bits &&& flag != 0) = m.flags.any fun f => f.flag &&& flag != 0 := by
  have hfold (flags : List Modifier) (bits : UInt16) :
      (flags.foldl (fun bits f => bits ||| f.flag) bits &&& flag != 0) =
        ((bits &&& flag != 0) || flags.any fun f => f.flag &&& flag != 0) := by
    induction flags generalizing bits with
    | nil => rw [List.foldl_nil, List.any_nil, Bool.or_false]
    | cons f flags ih =>
        rw [List.foldl_cons, ih, or_and_ne_zero, List.any_cons, Bool.or_assoc]
  rw [bits, hfold, UInt16.zero_and, bne_self_eq_false, Bool.false_or]

theorem bits_isStatic (m : Modifiers) :
    (m.bits &&& AccessFlag.isStatic != 0) = m.has .isStatic := by
  rw [bits_and_ne_zero, has, List.contains_eq_any_beq]
  congr 1
  funext f
  cases f <;> decide

/-- No modifier sets the bit of deprecated classes. -/
theorem bits_isDeprecated (m : Modifiers) : (m.bits &&& AccessFlag.isDeprecated != 0) = false := by
  rw [bits_and_ne_zero, List.any_eq_false]
  intro f _
  cases f <;> decide

end Modifiers

/-! ### Types -/

theorem TypeRef.Denotes.readable {symbols : SymbolTable} {t : TypeRef} {ty : Ty}
    (h : t.Denotes symbols ty) (hspelled : ∀ {name}, symbols.has name = true → Spelled name) :
    ty.Readable := by
  obtain ⟨base, hbase, rfl⟩ := h
  have hreadable : base.Readable := by
    cases hname : t.base with
    | named path =>
        rw [hname] at hbase
        obtain ⟨cls, rfl, hhas⟩ := hbase
        exact hspelled hhas
    | void | int | long | boolean =>
        rw [hname] at hbase
        cases hbase
        trivial
  generalize t.dims = dims
  induction dims with
  | zero => exact hreadable
  | succ dims ih => exact ih

/-! ### Members -/

/-- The field that an artifact has for a declared field. -/
def FieldDecl.info (f : FieldDecl) (sig : FieldSig) : FieldInfo :=
  ⟨f.modifiers.bits, sig.name, sig.ty.descriptor⟩

/-- The signature that a field of an artifact is read back as. -/
def FieldInfo.sig? (f : FieldInfo) : Option FieldSig :=
  match Ty.readDescriptor f.descriptor.toList with
  | some (ty, []) => some ⟨f.name, ty, f.flags &&& AccessFlag.isStatic != 0⟩
  | _ => none

/-- The signature that a method is read back as. -/
def methodSig? (flags : UInt16) (name descriptor : String) : Option MethodSig :=
  if name.toList.head? = some '<' then none
  else
    (readMethodDescriptor descriptor).map fun (params, ret) =>
      ⟨name, params, ret, flags &&& AccessFlag.isStatic != 0⟩

/-- The signature that a method of an artifact is read back as. -/
def MethodInfo.sig? (m : MethodInfo) : Option MethodSig :=
  methodSig? m.flags m.name m.descriptor

/-- The signature that the artifact of a method is read back as. -/
def SymbolicMethod.sig? (m : SymbolicMethod) : Option MethodSig :=
  methodSig? m.flags m.name m.descriptor

theorem MethodInfo.Links.sig?_eq {pool : ConstantPool} {m : MethodInfo} {sym : SymbolicMethod}
    (h : m.Links pool sym) : m.sig? = sym.sig? := by
  rw [MethodInfo.sig?, SymbolicMethod.sig?, h.flags, h.name, h.descriptor]

section

variable {symbols : SymbolTable} (hspelled : ∀ {name}, symbols.has name = true → Spelled name)

include hspelled

theorem FieldSig.Written.sig?_info {sig : FieldSig} {f : FieldDecl} (h : sig.Written symbols f) :
    (f.info sig).sig? = some sig := by
  have hread := (h.type.readable hspelled).encodable.read []
  rw [List.append_nil] at hread
  simp only [FieldDecl.info, FieldInfo.sig?, hread, Modifiers.bits_isStatic, ← h.static]

theorem MethodSig.Written.sig?_symbolic {sig : MethodSig} {m : MethodDecl}
    (h : sig.Written symbols m) (hname : Word m.name.name) :
    (m.symbolic sig).sig? = some sig := by
  have hbracket : m.name.name.toList.head? ≠ some '<' := by
    intro hhead
    exact hname.not_mem (by decide +kernel) (List.mem_of_head? hhead)
  have hparams : ∀ p ∈ sig.params, p.Encodable := by
    intro p hp
    obtain ⟨param, -, hparam⟩ := exists_of_mem_left h.params hp
    exact (hparam.readable hspelled).encodable
  simp only [MethodDecl.symbolic, SymbolicMethod.sig?]
  rw [methodSig?, if_neg hbracket, MethodSig.descriptor,
    readMethodDescriptor_methodDescriptor hparams (h.ret.readable hspelled).encodable, Option.map_some,
    Modifiers.bits_isStatic, ← h.static, ← h.name]

end

namespace ClassDecl

variable {c : ClassDecl} {symbol : ClassSymbol} {symbols : SymbolTable}

/-- The methods of an artifact without the initialisers are read back as the methods of the symbol. -/
theorem filterMap_symbolicMethods (hspelled : ∀ {name}, symbols.has name = true → Spelled name)
    (hformed : c.Formed) (hwritten : symbol.Written symbols c) (superclass : String) :
    (c.symbolicMethods symbol superclass).filterMap SymbolicMethod.sig? = symbol.methods := by
  have hinit : (c.symbolicInit symbol superclass).sig? = none := by
    show methodSig? AccessFlag.isPublic "<init>" "()V" = none
    rw [methodSig?, if_pos (by decide +kernel)]
  have hclassInit : (c.symbolicClassInit symbol).sig? = none := by
    show methodSig? AccessFlag.isStatic "<clinit>" "()V" = none
    rw [methodSig?, if_pos (by decide +kernel)]
  have hlast : (if c.fields.any fun f => f.modifiers.has .isStatic && f.init.isSome then
      [c.symbolicClassInit symbol] else []).filterMap SymbolicMethod.sig? = [] := by
    split
    · exact List.filterMap_cons_none hclassInit
    · exact List.filterMap_nil
  rw [symbolicMethods, List.cons_append, List.filterMap_cons_none hinit, List.filterMap_append,
    hlast, List.append_nil, List.filterMap_map]
  refine filterMap_zip_of_forall₂ hwritten.methods fun m hm sig hsig => ?_
  exact hsig.sig?_symbolic hspelled (hformed.methods m hm).name

end ClassDecl

/-! ### Symbols -/

/-- The symbol of an artifact agrees with the symbol it was made from, whatever its constants are. -/
theorem ClassDecl.symbol_classFile {options : Options} {c : ClassDecl} {symbol : ClassSymbol}
    {file : ClassFile} {symbols : SymbolTable}
    (hspelled : ∀ {name}, symbols.has name = true → Spelled name) (hformed : c.Formed)
    (hwritten : symbol.Written symbols c) (hsuper : symbol.superclass.isSome = true)
    (hfile : c.classFile options symbol = .ok file) (pool : ConstantPool) :
    ({ file with pool } : ClassFile).symbol.Agrees symbol := by
  obtain ⟨-, hlinks⟩ := classFile_links hfile
  have hmethods : file.methods.filterMap MethodInfo.sig? = symbol.methods := by
    rw [filterMap_eq_of_forall₂ hlinks fun _ _ hm => hm.sig?_eq]
    exact filterMap_symbolicMethods hspelled hformed hwritten _
  obtain ⟨sup, hsup⟩ := Option.isSome_iff_exists.mp hsuper
  obtain ⟨⟨methods, pool'⟩, -, h⟩ := except_bind_ok hfile
  cases h
  refine ⟨rfl, ?_, rfl, ?_, ?_, ?_⟩
  · simp only [ClassFile.symbol, hsup, Option.some_or]
  · simp only [ClassFile.symbol, ClassFile.isDeprecated]
    cases symbol.deprecated with
    | true =>
        rw [if_pos rfl, or_and_ne_zero, Modifiers.bits_isDeprecated, Bool.false_or]
        decide
    | false => rw [if_neg Bool.false_ne_true, Modifiers.bits_isDeprecated]
  · show ((c.fields.zip symbol.fields).map fun p => p.1.info p.2).filterMap FieldInfo.sig? = _
    rw [List.filterMap_map]
    exact filterMap_zip_of_forall₂ hwritten.fields fun f _ sig hsig => hsig.sig?_info hspelled
  · exact hmethods

end ProbeLang
