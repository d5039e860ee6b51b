import Mathlib.Tactic.SplitIfs
import TagFormat.Text.Utf8

/-! # UTF-8: one byte sequence for each text

The characters that `decodeFrom` finds are those whose encodings, one after another, make up the
bytes (`decodeFrom_flatMap`, `eq_flatMap_of_decodeFrom`), so text and its bytes determine each other
(`decode_eq_ok_iff`). Each of the four lengths of a character is treated by itself:
`encodeChar_join₁` to `encodeChar_join₄` put the bytes of one character together and take them apart
again. -/

namespace TagFormat.Utf8

/-! ### One character -/

theorem toNat_ofNat (n : Nat) (h : n < 0xD800 ∨ 0xDFFF < n ∧ n < 0x110000) :
    (Char.ofNat n).val.toNat = n := by
  have hv : n.isValidChar := h
  rw [Char.ofNat, dif_pos hv]
  show (UInt32.ofNatLT n _).toNat = n
  rfl

theorem isContinuation_iff (b : UInt8) :
    isContinuation b = true ↔ 0x80 ≤ b.toNat ∧ b.toNat < 0xC0 := by
  simp [isContinuation, UInt8.le_iff_toNat_le, UInt8.lt_iff_toNat_lt]

theorem isSecondOfThree_iff (a b : UInt8) : isSecondOfThree a b = true ↔
    (0x80 ≤ b.toNat ∧ b.toNat < 0xC0) ∧ (a.toNat = 0xE0 → 0xA0 ≤ b.toNat) ∧
      (a.toNat = 0xED → b.toNat < 0xA0) := by
  simp only [isSecondOfThree, Bool.and_eq_true, isContinuation_iff, Bool.or_eq_true, bne_iff_ne,
    decide_eq_true_eq, UInt8.le_iff_toNat_le, UInt8.lt_iff_toNat_lt, ne_eq, ← UInt8.toNat_inj]
  simp
  omega

theorem isSecondOfFour_iff (a b : UInt8) : isSecondOfFour a b = true ↔
    (0x80 ≤ b.toNat ∧ b.toNat < 0xC0) ∧ (a.toNat = 0xF0 → 0x90 ≤ b.toNat) ∧
      (a.toNat = 0xF4 → b.toNat < 0x90) := by
  simp only [isSecondOfFour, Bool.and_eq_true, isContinuation_iff, Bool.or_eq_true, bne_iff_ne,
    decide_eq_true_eq, UInt8.le_iff_toNat_le, UInt8.lt_iff_toNat_lt, ne_eq, ← UInt8.toNat_inj]
  simp
  omega

theorem ofNat_eq_iff {n : Nat} {b : UInt8} (h : n < 256) : UInt8.ofNat n = b ↔ b.toNat = n := by
  rw [← UInt8.toNat_inj, UInt8.toNat_ofNat', Nat.mod_eq_of_lt h, eq_comm]

theorem encodeChar_join₁ {a : UInt8} (h : a.toNat < 0x80) :
    String.utf8EncodeChar (join a.toNat []) = [a] := by
  have hv : (join a.toNat []).val.toNat = a.toNat := toNat_ofNat a.toNat (by omega)
  rw [String.utf8EncodeChar, if_pos (by omega), hv, (ofNat_eq_iff (by omega)).mpr rfl]

theorem encodeChar_join₂ {a b : UInt8} (ha : 0xC2 ≤ a.toNat) (ha' : a.toNat < 0xE0)
    (hb : isContinuation b = true) :
    String.utf8EncodeChar (join (a.toNat % 32) [b]) = [a, b] := by
  rw [isContinuation_iff] at hb
  have hv : (join (a.toNat % 32) [b]).val.toNat = 64 * (a.toNat % 32) + b.toNat % 64 :=
    toNat_ofNat (64 * (a.toNat % 32) + b.toNat % 64) (by omega)
  rw [String.utf8EncodeChar, if_neg (by omega), if_pos (by omega), hv,
    (ofNat_eq_iff (b := a) (by omega)).mpr (by omega),
    (ofNat_eq_iff (b := b) (by omega)).mpr (by omega)]

theorem encodeChar_join₃ {a b c : UInt8} (ha : 0xE0 ≤ a.toNat) (ha' : a.toNat < 0xF0)
    (hb : isSecondOfThree a b = true) (hc : isContinuation c = true) :
    String.utf8EncodeChar (join (a.toNat % 16) [b, c]) = [a, b, c] := by
  rw [isSecondOfThree_iff] at hb
  rw [isContinuation_iff] at hc
  have hv : (join (a.toNat % 16) [b, c]).val.toNat =
      64 * (64 * (a.toNat % 16) + b.toNat % 64) + c.toNat % 64 :=
    toNat_ofNat (64 * (64 * (a.toNat % 16) + b.toNat % 64) + c.toNat % 64) (by omega)
  rw [String.utf8EncodeChar, if_neg (by omega), if_neg (by omega), if_pos (by omega), hv,
    (ofNat_eq_iff (b := a) (by omega)).mpr (by omega),
    (ofNat_eq_iff (b := b) (by omega)).mpr (by omega),
    (ofNat_eq_iff (b := c) (by omega)).mpr (by omega)]

theorem encodeChar_join₄ {a b c d : UInt8} (ha : 0xF0 ≤ a.toNat) (ha' : a.toNat < 0xF5)
    (hb : isSecondOfFour a b = true) (hc : isContinuation c = true)
    (hd : isContinuation d = true) :
    String.utf8EncodeChar (join (a.toNat % 8) [b, c, d]) = [a, b, c, d] := by
  rw [isSecondOfFour_iff] at hb
  rw [isContinuation_iff] at hc hd
  have hv : (join (a.toNat % 8) [b, c, d]).val.toNat =
      64 * (64 * (64 * (a.toNat % 8) + b.toNat % 64) + c.toNat % 64) + d.toNat % 64 :=
    toNat_ofNat (64 * (64 * (64 * (a.toNat % 8) + b.toNat % 64) + c.toNat % 64) + d.toNat % 64)
      (by omega)
  rw [String.utf8EncodeChar, if_neg (by omega), if_neg (by omega), if_neg (by omega), hv,
    (ofNat_eq_iff (b := a) (by omega)).mpr (by omega),
    (ofNat_eq_iff (b := b) (by omega)).mpr (by omega),
    (ofNat_eq_iff (b := c) (by omega)).mpr (by omega),
    (ofNat_eq_iff (b := d) (by omega)).mpr (by omega)]

/-! ### One step of the reader -/

theorem decodeFrom_one (i : Nat) {a : UInt8} (ha : a.toNat < 0x80) (rest : Bytes) :
    decodeFrom i (a :: rest) = (decodeFrom (i + 1) rest).map (join a.toNat [] :: ·) := by
  have h1 : a < 0x80 := UInt8.lt_iff_toNat_lt.mpr ha
  rw [decodeFrom.eq_def]
  simp only [if_pos h1]

theorem decodeFrom_two (i : Nat) {a b : UInt8} (ha : 0xC2 ≤ a.toNat) (ha' : a.toNat < 0xE0)
    (hb : isContinuation b = true) (rest : Bytes) :
    decodeFrom i (a :: b :: rest) =
      (decodeFrom (i + 2) rest).map (join (a.toNat % 32) [b] :: ·) := by
  have h1 : ¬ a < 0x80 := by rw [UInt8.lt_iff_toNat_lt]; simp; omega
  have h2 : ¬ a < 0xC2 := by rw [UInt8.lt_iff_toNat_lt]; simp; omega
  have h3 : a < 0xE0 := UInt8.lt_iff_toNat_lt.mpr ha'
  rw [decodeFrom.eq_def]
  simp only [if_neg h1, if_neg h2, if_pos h3, if_pos hb]

theorem decodeFrom_three (i : Nat) {a b c : UInt8} (ha : 0xE0 ≤ a.toNat) (ha' : a.toNat < 0xF0)
    (hb : isSecondOfThree a b = true) (hc : isContinuation c = true) (rest : Bytes) :
    decodeFrom i (a :: b :: c :: rest) =
      (decodeFrom (i + 3) rest).map (join (a.toNat % 16) [b, c] :: ·) := by
  have h1 : ¬ a < 0x80 := by rw [UInt8.lt_iff_toNat_lt]; simp; omega
  have h2 : ¬ a < 0xC2 := by rw [UInt8.lt_iff_toNat_lt]; simp; omega
  have h3 : ¬ a < 0xE0 := by rw [UInt8.lt_iff_toNat_lt]; simp; omega
  have h4 : a < 0xF0 := UInt8.lt_iff_toNat_lt.mpr ha'
  rw [decodeFrom.eq_def]
  simp only [if_neg h1, if_neg h2, if_neg h3, if_pos h4, if_pos hb, if_pos hc]

theorem decodeFrom_four (i : Nat) {a b c d : UInt8} (ha : 0xF0 ≤ a.toNat) (ha' : a.toNat < 0xF5)
    (hb : isSecondOfFour a b = true) (hc : isContinuation c = true)
    (hd : isContinuation d = true) (rest : Bytes) :
    decodeFrom i (a :: b :: c :: d :: rest) =
      (decodeFrom (i + 4) rest).map (join (a.toNat % 8) [b, c, d] :: ·) := by
  have h1 : ¬ a < 0x80 := by rw [UInt8.lt_iff_toNat_lt]; simp; omega
  have h2 : ¬ a < 0xC2 := by rw [UInt8.lt_iff_toNat_lt]; simp; omega
  have h3 : ¬ a < 0xE0 := by rw [UInt8.lt_iff_toNat_lt]; simp; omega
  have h4 : ¬ a < 0xF0 := by rw [UInt8.lt_iff_toNat_lt]; simp; omega
  have h5 : a < 0xF5 := UInt8.lt_iff_toNat_lt.mpr ha'
  rw [decodeFrom.eq_def]
  simp only [if_neg h1, if_neg h2, if_neg h3, if_neg h4, if_pos h5, if_pos hb, if_pos hc, if_pos hd]

/-- **The bytes of a character at the front are read as that character.** -/
theorem decodeFrom_encodeChar (i : Nat) (c : Char) (rest : Bytes) :
    decodeFrom i (String.utf8EncodeChar c ++ rest) =
      (decodeFrom (i + (String.utf8EncodeChar c).length) rest).map (c :: ·) := by
  have hv : c.val.toNat < 0xD800 ∨ 0xDFFF < c.val.toNat ∧ c.val.toNat < 0x110000 := c.valid
  have hc : Char.ofNat c.val.toNat = c := Char.ofNat_toNat c
  have hbyte : ∀ n, n < 256 → (UInt8.ofNat n).toNat = n := fun n hn => by
    rw [UInt8.toNat_ofNat', Nat.mod_eq_of_lt hn]
  rw [String.utf8EncodeChar]
  generalize c.val.toNat = v at hv hc
  split_ifs with h1 h2 h3
  · have ha := hbyte v (by omega)
    have hj : join (UInt8.ofNat v).toNat [] = c := by rw [ha]; exact hc
    rw [List.singleton_append, decodeFrom_one i (by omega), hj]
    rfl
  · have ha := hbyte (v / 64 % 32 + 192) (by omega)
    have hb := hbyte (v % 64 + 128) (by omega)
    have hj : join ((UInt8.ofNat (v / 64 % 32 + 192)).toNat % 32)
        [UInt8.ofNat (v % 64 + 128)] = c := by
      rw [← hc, join, List.foldl_cons, List.foldl_nil, ha, hb]
      congr 1
      omega
    rw [List.cons_append, List.singleton_append, decodeFrom_two i (by omega) (by omega)
      (by rw [isContinuation_iff]; omega), hj]
    rfl
  · have ha := hbyte (v / 4096 % 16 + 224) (by omega)
    have hb := hbyte (v / 64 % 64 + 128) (by omega)
    have hd := hbyte (v % 64 + 128) (by omega)
    have hj : join ((UInt8.ofNat (v / 4096 % 16 + 224)).toNat % 16)
        [UInt8.ofNat (v / 64 % 64 + 128), UInt8.ofNat (v % 64 + 128)] = c := by
      rw [← hc, join, List.foldl_cons, List.foldl_cons, List.foldl_nil, ha, hb, hd]
      congr 1
      omega
    rw [List.cons_append, List.cons_append, List.singleton_append, decodeFrom_three i (by omega)
      (by omega) (by rw [isSecondOfThree_iff]; omega) (by rw [isContinuation_iff]; omega), hj]
    rfl
  · have ha := hbyte (v / 262144 % 8 + 240) (by omega)
    have hb := hbyte (v / 4096 % 64 + 128) (by omega)
    have hd := hbyte (v / 64 % 64 + 128) (by omega)
    have he := hbyte (v % 64 + 128) (by omega)
    have hj : join ((UInt8.ofNat (v / 262144 % 8 + 240)).toNat % 8)
        [UInt8.ofNat (v / 4096 % 64 + 128), UInt8.ofNat (v / 64 % 64 + 128),
          UInt8.ofNat (v % 64 + 128)] = c := by
      rw [← hc, join, List.foldl_cons, List.foldl_cons, List.foldl_cons, List.foldl_nil, ha, hb, hd,
        he]
      congr 1
      omega
    rw [List.cons_append, List.cons_append, List.cons_append, List.singleton_append,
      decodeFrom_four i (by omega) (by omega) (by rw [isSecondOfFour_iff]; omega)
        (by rw [isContinuation_iff]; omega) (by rw [isContinuation_iff]; omega), hj]
    rfl

/-! ### Texts -/

theorem decodeFrom_flatMap (i : Nat) (cs : List Char) :
    decodeFrom i (cs.flatMap String.utf8EncodeChar) = .ok cs := by
  induction cs generalizing i with
  | nil => simp [decodeFrom]
  | cons c cs ih =>
    rw [List.flatMap_cons, decodeFrom_encodeChar, ih]
    rfl

/-- One more character in front of those that were found. -/
theorem append_eq_flatMap {found : Except Fault (List Char)} {c : Char} {cs : List Char}
    {front rest : Bytes} (hc : String.utf8EncodeChar c = front)
    (ih : ∀ {cs}, found = .ok cs → rest = cs.flatMap String.utf8EncodeChar)
    (h : found.map (c :: ·) = .ok cs) : front ++ rest = cs.flatMap String.utf8EncodeChar := by
  cases found with
  | error fault => simp [Except.map] at h
  | ok ds =>
    simp only [Except.map, Except.ok.injEq] at h
    rw [← h, List.flatMap_cons, hc, ← ih rfl]

theorem eq_flatMap_of_decodeFrom {i : Nat} {bytes : Bytes} {cs : List Char}
    (h : decodeFrom i bytes = .ok cs) : bytes = cs.flatMap String.utf8EncodeChar := by
  fun_induction decodeFrom i bytes generalizing cs with
  | case1 => simp_all
  | case2 i a rest ha ih =>
    rw [UInt8.lt_iff_toNat_lt] at ha
    exact append_eq_flatMap (encodeChar_join₁ ha) ih h
  | case5 i a h1 h2 h3 b rest hb ih =>
    rw [UInt8.lt_iff_toNat_lt] at h2 h3
    exact append_eq_flatMap (encodeChar_join₂ (by simpa using h2) h3 hb) ih h
  | case9 i a h1 h2 h3 h4 b hb c rest hc ih =>
    rw [UInt8.lt_iff_toNat_lt] at h3 h4
    exact append_eq_flatMap (encodeChar_join₃ (by simpa using h3) h4 hb hc) ih h
  | case15 i a h1 h2 h3 h4 h5 b hb c hc d rest hd ih =>
    rw [UInt8.lt_iff_toNat_lt] at h4 h5
    exact append_eq_flatMap (encodeChar_join₄ (by simpa using h4) h5 hb hc hd) ih h
  | _ => simp at h

/-- **Bytes are read as a text exactly when they are its bytes.** -/
theorem decode_eq_ok_iff {bytes : Bytes} {s : String} :
    decode bytes = .ok s ↔ encode s = bytes := by
  unfold decode encode
  constructor
  · intro h
    cases hd : decodeFrom 0 bytes with
    | error fault => simp [hd, Except.map] at h
    | ok cs =>
      simp only [hd, Except.map, Except.ok.injEq] at h
      rw [← h, String.toList_ofList]
      exact (eq_flatMap_of_decodeFrom hd).symm
  · rintro rfl
    rw [decodeFrom_flatMap]
    simp [Except.map]

end TagFormat.Utf8
