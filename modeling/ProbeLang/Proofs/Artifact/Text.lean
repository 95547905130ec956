import ProbeLang.Bytes

/-!
# Text in bytes

The UTF-8 form of a text is read back as the text, and bytes that are read as a text are its UTF-8
form.
-/

namespace ProbeLang

theorem ofString_eq_flatMap (s : String) :
    Bytes.ofString s = s.toList.flatMap String.utf8EncodeChar := by
  rw [Bytes.ofString, ← String.utf8Encode_toList, List.utf8Encode, List.toList_data_toByteArray]

namespace Utf8

theorem isContinuation_iff {b : UInt8} :
    isContinuation b = true ↔ 128 ≤ b.toNat ∧ b.toNat ≤ 191 := by
  simp [isContinuation, UInt8.le_iff_toNat_le]

theorem isSecondOfThree_iff {a b : UInt8} : isSecondOfThree a b = true ↔
    isContinuation b = true ∧ (a.toNat = 224 → 160 ≤ b.toNat) ∧
      (a.toNat = 237 → b.toNat ≤ 159) := by
  simp only [isSecondOfThree, ← UInt8.toNat_inj, UInt8.le_iff_toNat_le, ne_eq, Bool.and_eq_true,
    Bool.or_eq_true, decide_eq_true_eq, ← Decidable.imp_iff_not_or, and_assoc]
  rfl

theorem isSecondOfFour_iff {a b : UInt8} : isSecondOfFour a b = true ↔
    isContinuation b = true ∧ (a.toNat = 240 → 144 ≤ b.toNat) ∧
      (a.toNat = 244 → b.toNat ≤ 143) := by
  simp only [isSecondOfFour, ← UInt8.toNat_inj, UInt8.le_iff_toNat_le, ne_eq, Bool.and_eq_true,
    Bool.or_eq_true, decide_eq_true_eq, ← Decidable.imp_iff_not_or, and_assoc]
  rfl

/-! ## One character -/

section Step

variable (i : Nat) (done : List Char) {a b c d : UInt8} (rest : Bytes)

theorem decodeFrom_one (ha : a.toNat < 128) :
    decodeFrom i done (a :: rest) = decodeFrom (i + 1) (Char.ofNat a.toNat :: done) rest := by
  have ha' : a < 0x80 := UInt8.lt_iff_toNat_lt.mpr ha
  rw [decodeFrom.eq_def]
  simp only [ha', if_true]

theorem decodeFrom_two (ha : 194 ≤ a.toNat ∧ a.toNat ≤ 223) (hb : isContinuation b = true) :
    decodeFrom i done (a :: b :: rest) =
      decodeFrom (i + 2) (Char.ofNat (a.toNat % 32 * 64 + payload b) :: done) rest := by
  have h1 : ¬ a < 0x80 := by
    simp [UInt8.lt_iff_toNat_lt]
    omega
  have h2 : (0xC2 ≤ a && a ≤ 0xDF) = true := by simp [UInt8.le_iff_toNat_le, ha]
  rw [decodeFrom.eq_def]
  simp only [h1, h2, hb, if_true, if_false]

theorem decodeFrom_three (ha : 224 ≤ a.toNat ∧ a.toNat ≤ 239) (hb : isSecondOfThree a b = true)
    (hc : isContinuation c = true) :
    decodeFrom i done (a :: b :: c :: rest) =
      decodeFrom (i + 3)
        (Char.ofNat ((a.toNat % 16 * 64 + payload b) * 64 + payload c) :: done) rest := by
  have h1 : ¬ a < 0x80 := by
    simp [UInt8.lt_iff_toNat_lt]
    omega
  have h2 : ¬ (0xC2 ≤ a && a ≤ 0xDF) = true := by
    simp [UInt8.le_iff_toNat_le]
    omega
  have h3 : (0xE0 ≤ a && a ≤ 0xEF) = true := by simp [UInt8.le_iff_toNat_le, ha]
  rw [decodeFrom.eq_def]
  simp only [h1, h2, h3, hb, hc, if_true, if_false, Bool.not_true, Bool.false_eq_true]

theorem decodeFrom_four (ha : 240 ≤ a.toNat ∧ a.toNat ≤ 244) (hb : isSecondOfFour a b = true)
    (hc : isContinuation c = true) (hd : isContinuation d = true) :
    decodeFrom i done (a :: b :: c :: d :: rest) =
      decodeFrom (i + 4)
        (Char.ofNat (((a.toNat % 8 * 64 + payload b) * 64 + payload c) * 64 + payload d) :: done)
        rest := by
  have h1 : ¬ a < 0x80 := by
    simp [UInt8.lt_iff_toNat_lt]
    omega
  have h2 : ¬ (0xC2 ≤ a && a ≤ 0xDF) = true := by
    simp [UInt8.le_iff_toNat_le]
    omega
  have h3 : ¬ (0xE0 ≤ a && a ≤ 0xEF) = true := by
    simp [UInt8.le_iff_toNat_le]
    omega
  have h4 : (0xF0 ≤ a && a ≤ 0xF4) = true := by simp [UInt8.le_iff_toNat_le, ha]
  rw [decodeFrom.eq_def]
  simp only [h1, h2, h3, h4, hb, hc, hd, if_true, if_false, Bool.not_true, Bool.false_eq_true]

end Step

/-- A character is decoded from its UTF-8 form. -/
theorem decodeFrom_utf8EncodeChar (i : Nat) (done : List Char) (c : Char) (rest : Bytes) :
    ∃ j, decodeFrom i done (String.utf8EncodeChar c ++ rest) = decodeFrom j (c :: done) rest := by
  have hvalid : c.val.toNat < 0xD800 ∨ 0xDFFF < c.val.toNat ∧ c.val.toNat < 0x110000 := c.valid
  have hchar : ∀ n, n = c.val.toNat → Char.ofNat n = c := fun n hn => hn ▸ Char.ofNat_toNat c
  unfold String.utf8EncodeChar
  simp only
  generalize c.val.toNat = v at hvalid hchar
  split
  · refine ⟨i + 1, ?_⟩
    rw [List.singleton_append, decodeFrom_one _ _ _ ?_, hchar _ ?_]
    all_goals
      rw [UInt8.toNat_ofNat']
      omega
  split
  · refine ⟨i + 2, ?_⟩
    rw [List.cons_append, List.singleton_append, decodeFrom_two _ _ _ ?_ ?_, hchar _ ?_]
    all_goals
      simp only [isContinuation_iff, payload, UInt8.toNat_ofNat']
      omega
  split
  · refine ⟨i + 3, ?_⟩
    have hb : isSecondOfThree (UInt8.ofNat (v / 4096 % 16 + 224))
        (UInt8.ofNat (v / 64 % 64 + 128)) = true := by
      refine isSecondOfThree_iff.mpr ⟨?_, ?_, ?_⟩ <;>
        simp only [isContinuation_iff, UInt8.toNat_ofNat'] <;> omega
    rw [List.cons_append, List.cons_append, List.singleton_append,
      decodeFrom_three _ _ _ ?_ hb ?_, hchar _ ?_]
    all_goals
      simp only [isContinuation_iff, payload, UInt8.toNat_ofNat']
      omega
  · refine ⟨i + 4, ?_⟩
    have hb : isSecondOfFour (UInt8.ofNat (v / 262144 % 8 + 240))
        (UInt8.ofNat (v / 4096 % 64 + 128)) = true := by
      refine isSecondOfFour_iff.mpr ⟨?_, ?_, ?_⟩ <;>
        simp only [isContinuation_iff, UInt8.toNat_ofNat'] <;> omega
    rw [List.cons_append, List.cons_append, List.cons_append, List.singleton_append,
      decodeFrom_four _ _ _ ?_ hb ?_ ?_, hchar _ ?_]
    all_goals
      simp only [isContinuation_iff, payload, UInt8.toNat_ofNat']
      omega

theorem decodeFrom_flatMap (cs : List Char) (i : Nat) (done : List Char) :
    decodeFrom i done (cs.flatMap String.utf8EncodeChar) = .ok (done.reverse ++ cs) := by
  induction cs generalizing i done with
  | nil => simp [decodeFrom]
  | cons c cs ih =>
      obtain ⟨j, hj⟩ := decodeFrom_utf8EncodeChar i done c (cs.flatMap String.utf8EncodeChar)
      rw [List.flatMap_cons, hj, ih]
      simp

/-! ## Bytes that are a text -/

theorem val_ofNat {n : Nat} (h : n.isValidChar) : (Char.ofNat n).val.toNat = n := by
  unfold Char.ofNat
  rw [dif_pos h]
  rfl

section Encode

variable {a b c d : UInt8}

theorem utf8EncodeChar_one (ha : a < 0x80) :
    String.utf8EncodeChar (Char.ofNat a.toNat) = [a] := by
  have ha' : a.toNat < 128 := UInt8.lt_iff_toNat_lt.mp ha
  have hvalid : a.toNat.isValidChar := by
    unfold Nat.isValidChar
    omega
  simp only [String.utf8EncodeChar, val_ofNat hvalid]
  rw [if_pos (by omega), UInt8.ofNat_toNat]

theorem utf8EncodeChar_two (ha : (0xC2 ≤ a && a ≤ 0xDF) = true) (hb : isContinuation b = true) :
    String.utf8EncodeChar (Char.ofNat (a.toNat % 32 * 64 + payload b)) = [a, b] := by
  simp [UInt8.le_iff_toNat_le] at ha
  rw [isContinuation_iff] at hb
  unfold payload
  have hvalid : (a.toNat % 32 * 64 + b.toNat % 64).isValidChar := by
    unfold Nat.isValidChar
    omega
  simp only [String.utf8EncodeChar, val_ofNat hvalid]
  rw [if_neg (by omega), if_pos (by omega)]
  simp only [List.cons.injEq, and_true, ← UInt8.toNat_inj, UInt8.toNat_ofNat']
  omega

theorem utf8EncodeChar_three (ha : (0xE0 ≤ a && a ≤ 0xEF) = true)
    (hb : isSecondOfThree a b = true) (hc : isContinuation c = true) :
    String.utf8EncodeChar
        (Char.ofNat ((a.toNat % 16 * 64 + payload b) * 64 + payload c)) = [a, b, c] := by
  simp [UInt8.le_iff_toNat_le] at ha
  rw [isSecondOfThree_iff, isContinuation_iff] at hb
  rw [isContinuation_iff] at hc
  unfold payload
  have hvalid : ((a.toNat % 16 * 64 + b.toNat % 64) * 64 + c.toNat % 64).isValidChar := by
    unfold Nat.isValidChar
    omega
  simp only [String.utf8EncodeChar, val_ofNat hvalid]
  rw [if_neg (by omega), if_neg (by omega), if_pos (by omega)]
  simp only [List.cons.injEq, and_true, ← UInt8.toNat_inj, UInt8.toNat_ofNat']
  omega

theorem utf8EncodeChar_four (ha : (0xF0 ≤ a && a ≤ 0xF4) = true)
    (hb : isSecondOfFour a b = true) (hc : isContinuation c = true)
    (hd : isContinuation d = true) :
    String.utf8EncodeChar (Char.ofNat
      (((a.toNat % 8 * 64 + payload b) * 64 + payload c) * 64 + payload d)) = [a, b, c, d] := by
  simp [UInt8.le_iff_toNat_le] at ha
  rw [isSecondOfFour_iff, isContinuation_iff] at hb
  rw [isContinuation_iff] at hc hd
  unfold payload
  have hvalid : (((a.toNat % 8 * 64 + b.toNat % 64) * 64 + c.toNat % 64) * 64 +
      d.toNat % 64).isValidChar := by
    unfold Nat.isValidChar
    omega
  simp only [String.utf8EncodeChar, val_ofNat hvalid]
  rw [if_neg (by omega), if_neg (by omega), if_neg (by omega)]
  simp only [List.cons.injEq, and_true, ← UInt8.toNat_inj, UInt8.toNat_ofNat']
  omega

end Encode

theorem flatMap_of_decodeFrom {i : Nat} {done cs : List Char} {bytes : Bytes}
    (h : decodeFrom i done bytes = .ok cs) :
    cs.flatMap String.utf8EncodeChar = done.reverse.flatMap String.utf8EncodeChar ++ bytes := by
  fun_induction decodeFrom i done bytes with
  | case1 i done =>
      cases h
      rw [List.append_nil]
  | case2 i done a rest ha ih =>
      rw [ih h]
      simp [utf8EncodeChar_one ha]
  | case4 i done a _ ha b rest hb ih =>
      rw [ih h]
      simp [utf8EncodeChar_two ha hb]
  | case10 i done a _ _ ha b c rest hb hc n ih =>
      rw [ih h]
      simp [n, utf8EncodeChar_three ha (by simpa using hb) (by simpa using hc)]
  | case17 i done a _ _ _ ha b c d rest hb hc hd n ih =>
      rw [ih h]
      simp [n, utf8EncodeChar_four ha (by simpa using hb) (by simpa using hc) (by simpa using hd)]
  | _ => cases h

end Utf8

theorem Bytes.toString?_ofString (s : String) : (Bytes.ofString s).toString? = .ok s := by
  rw [Bytes.toString?, ofString_eq_flatMap, Utf8.decode, Utf8.decodeFrom_flatMap]
  simp [Except.map]

theorem Bytes.eq_ofString_of_toString? {bytes : Bytes} {s : String} (h : bytes.toString? = .ok s) :
    bytes = Bytes.ofString s := by
  unfold Bytes.toString? at h
  cases hdecode : Utf8.decode bytes with
  | error fault =>
      rw [hdecode] at h
      cases h
  | ok cs =>
      rw [hdecode] at h
      cases h
      rw [ofString_eq_flatMap, String.toList_ofList, Utf8.flatMap_of_decodeFrom hdecode]
      rfl

end ProbeLang
