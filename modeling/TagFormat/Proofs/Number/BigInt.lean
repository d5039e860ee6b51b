import Mathlib.Tactic.Linarith
import Mathlib.Tactic.Ring
import TagFormat.Number.BigInt
import TagFormat.Proofs.Varint.Canonical

/-! # Two's complement of any length

Bytes spell a number in two's complement (`BigInt.value`), and a first byte can be left out exactly
if what it and the next byte are worth together is what the next one is worth at the start
(`redundant_iff`). So `minimal` keeps the number (`value_minimal`), and what it leaves is the
shortest form there is: the number does not fit into fewer bytes (`length_le_iff`), and of its length
there is no other form (`eq_of_value_eq`). Up to 16 bytes the conversions are exact. -/

namespace TagFormat.BigInt

open BigEndian (decode encode decode_cons decode_lt)

variable {a b : UInt8} {bytes other : Bytes}

/-! ### The number that bytes spell -/

/-- The number that bytes spell in two's complement, most significant byte first. -/
def value (bytes : Bytes) : Int :=
  decode bytes - if 0x80 ≤ bytes.headD 0 then 256 ^ bytes.length else 0

/-- What a byte is worth at the start. -/
def lead (b : UInt8) : Int :=
  b.toNat - if 0x80 ≤ b then 256 else 0

theorem lead_bounds (b : UInt8) : -128 ≤ lead b ∧ lead b < 128 := by
  have hb := b.toNat_lt
  unfold lead
  split_ifs with h
  · have : 128 ≤ b.toNat := UInt8.le_iff_toNat_le.mp h
    omega
  · have : ¬128 ≤ b.toNat := fun hle => h (UInt8.le_iff_toNat_le.mpr hle)
    omega

theorem value_cons (b : UInt8) (bytes : Bytes) :
    value (b :: bytes) = lead b * 256 ^ bytes.length + decode bytes := by
  unfold value lead
  rw [decode_cons, List.headD_cons, List.length_cons]
  push_cast
  split_ifs <;> ring

theorem value_cons_cons (a b : UInt8) (bytes : Bytes) :
    value (a :: b :: bytes) = (256 * lead a + b.toNat) * 256 ^ bytes.length + decode bytes := by
  rw [value_cons, decode_cons, List.length_cons]
  push_cast
  ring

/-- Bytes with the first bit set spell the numbers below zero. -/
theorem value_neg_iff (bytes : Bytes) : value bytes < 0 ↔ 0x80 ≤ bytes.headD 0 := by
  have hlt : (decode bytes : Int) < 256 ^ bytes.length := by exact_mod_cast decode_lt bytes
  unfold value
  split_ifs with h
  · exact ⟨fun _ => h, fun _ => by omega⟩
  · exact ⟨fun hneg => by omega, fun hle => absurd hle h⟩

/-- **One form of each length.** -/
theorem eq_of_value_eq (hl : bytes.length = other.length) (hv : value bytes = value other) :
    bytes = other := by
  have hsign : 0x80 ≤ bytes.headD 0 ↔ 0x80 ≤ other.headD 0 := by
    rw [← value_neg_iff, ← value_neg_iff, hv]
  have hd : decode bytes = decode other := by
    unfold value at hv
    simp only [hsign, hl] at hv
    omega
  rw [← BigEndian.encode_decode bytes, ← BigEndian.encode_decode other, hl, hd]

/-! ### Redundant bytes -/

/-- A first byte only repeats the sign of the next if both together are worth as much as the next
one is at the start. -/
theorem redundant_iff : ((a == 0 && b < 0x80) || (a == 0xFF && 0x80 ≤ b)) = true ↔
    256 * lead a + b.toNat = lead b := by
  have ha := a.toNat_lt
  have hb := b.toNat_lt
  simp only [Bool.or_eq_true, Bool.and_eq_true, beq_iff_eq, decide_eq_true_eq, lead,
    UInt8.le_iff_toNat_le, UInt8.lt_iff_toNat_lt, ← UInt8.toNat_inj, UInt8.reduceToNat]
  split_ifs <;> omega

/-- No byte at the start only repeats the sign of the next. -/
def Short (bytes : Bytes) : Prop :=
  ∀ a b rest, bytes = a :: b :: rest → 256 * lead a + b.toNat ≠ lead b

/-- **Leaving out redundant bytes** keeps the number. -/
theorem value_minimal (bytes : Bytes) : value (minimal bytes) = value bytes := by
  fun_induction minimal bytes with
  | case1 a b bytes h ih =>
    rw [ih, value_cons_cons, redundant_iff.mp h, value_cons]
  | case2 => rfl
  | case3 => rfl

theorem short_minimal (bytes : Bytes) : Short (minimal bytes) := by
  fun_induction minimal bytes with
  | case1 a b bytes h ih => exact ih
  | case2 a b bytes h =>
    rintro _ _ _ ⟨⟩ hr
    exact h (redundant_iff.mpr hr)
  | case3 bytes h => exact fun a b rest hrest => (h a b rest hrest).elim

theorem minimal_ne_nil (h : bytes ≠ []) : minimal bytes ≠ [] := by
  fun_induction minimal bytes with
  | case1 a b bytes _ ih => exact ih (List.cons_ne_nil _ _)
  | case2 => exact h
  | case3 => exact h

/-! ### The least number of bytes -/

/-- So many bytes and one more hold the number. -/
def Holds (k : Nat) (n : Int) : Prop :=
  -(128 * 256 ^ k) ≤ n ∧ n < 128 * 256 ^ k

instance (k : Nat) (n : Int) : Decidable (Holds k n) :=
  inferInstanceAs (Decidable (_ ∧ _))

theorem Holds.mono {j k : Nat} {n : Int} (h : Holds j n) (hle : j ≤ k) : Holds k n := by
  have hpow : (256 : Int) ^ j ≤ 256 ^ k := pow_le_pow_right₀ (by norm_num) hle
  unfold Holds at h ⊢
  omega

/-- What holds a product with powers of ten holds the number. -/
theorem Holds.of_mul_pow {k j : Nat} {n : Int} (h : Holds k (n * 10 ^ j)) : Holds k n := by
  have hpow : (1 : Int) ≤ 10 ^ j := one_le_pow₀ (by norm_num)
  have hpos : (0 : Int) < 256 ^ k := by positivity
  unfold Holds at h ⊢
  rcases le_total 0 n with hn | hn
  · have hle : n ≤ n * 10 ^ j := le_mul_of_one_le_right hn hpow
    omega
  · have hle : n * 10 ^ j ≤ n := mul_le_of_one_le_right hn hpow
    omega

theorem holds_value_cons (b : UInt8) (bytes : Bytes) : Holds bytes.length (value (b :: bytes)) := by
  have hlt : (decode bytes : Int) < 256 ^ bytes.length := by exact_mod_cast decode_lt bytes
  obtain ⟨hlow, hhigh⟩ := lead_bounds b
  have hmin : -128 * 256 ^ bytes.length ≤ lead b * 256 ^ bytes.length :=
    mul_le_mul_of_nonneg_right hlow (by positivity)
  have hmax : lead b * 256 ^ bytes.length ≤ 127 * 256 ^ bytes.length :=
    mul_le_mul_of_nonneg_right (by omega) (by positivity)
  unfold Holds
  rw [value_cons]
  omega

/-- A first byte that does not only repeat a sign is needed. -/
theorem not_holds_value (h : 256 * lead a + b.toNat ≠ lead b) :
    ¬Holds bytes.length (value (a :: b :: bytes)) := by
  have hlt : (decode bytes : Int) < 256 ^ bytes.length := by exact_mod_cast decode_lt bytes
  have hb := b.toNat_lt
  have hout : 128 ≤ 256 * lead a + b.toNat ∨ 256 * lead a + b.toNat ≤ -129 := by
    unfold lead at h ⊢
    simp only [UInt8.le_iff_toNat_le, UInt8.reduceToNat] at h ⊢
    split_ifs at h ⊢ <;> omega
  unfold Holds
  rw [value_cons_cons]
  generalize 256 * lead a + (b.toNat : Int) = n at hout
  rcases hout with hout | hout
  · have hmul : 128 * 256 ^ bytes.length ≤ n * 256 ^ bytes.length :=
      mul_le_mul_of_nonneg_right hout (by positivity)
    omega
  · have hmul : n * 256 ^ bytes.length ≤ -129 * 256 ^ bytes.length :=
      mul_le_mul_of_nonneg_right hout (by positivity)
    omega

/-- **A form without redundant bytes is the shortest**: so many bytes hold the number as it has. -/
theorem length_le_iff (h : Short bytes) (hne : bytes ≠ []) {k : Nat} :
    bytes.length ≤ k + 1 ↔ Holds k (value bytes) := by
  obtain ⟨a, bytes, rfl⟩ := List.exists_cons_of_ne_nil hne
  rw [List.length_cons, Nat.add_le_add_iff_right]
  constructor
  · exact (holds_value_cons a bytes).mono
  · intro hholds
    cases bytes with
    | nil => exact Nat.zero_le k
    | cons b bytes =>
      by_contra hlt
      rw [List.length_cons] at hlt
      exact not_holds_value (h a b bytes rfl) (hholds.mono (by omega))

/-! ### The byte that repeats the sign -/

/-- The byte that can be put before others and only repeats their sign. -/
def fill (bytes : Bytes) : UInt8 :=
  if 0x80 ≤ bytes.headD 0 then 0xFF else 0

theorem fill_eq_of_value_eq (h : value bytes = value other) : fill bytes = fill other := by
  unfold fill
  simp only [← value_neg_iff, h]

theorem eq_fill_iff : a = fill (b :: bytes) ↔ 256 * lead a + b.toNat = lead b := by
  rw [← redundant_iff, fill, List.headD_cons]
  by_cases h : 0x80 ≤ b
  · simp [h, UInt8.not_lt.mpr h]
  · simp [h, UInt8.not_le.mp h]

theorem value_fill_cons (h : bytes ≠ []) : value (fill bytes :: bytes) = value bytes := by
  obtain ⟨b, bytes, rfl⟩ := List.exists_cons_of_ne_nil h
  rw [value_cons_cons, eq_fill_iff.mp rfl, value_cons]

/-- **Filling up** keeps the number. -/
theorem value_replicate_append (h : bytes ≠ []) (k : Nat) :
    value (List.replicate k (fill bytes) ++ bytes) = value bytes := by
  induction k with
  | zero => rfl
  | succ k ih =>
    have hne : List.replicate k (fill bytes) ++ bytes ≠ [] := List.append_ne_nil_of_right_ne_nil _ h
    have hcons := value_fill_cons hne
    rw [fill_eq_of_value_eq ih] at hcons
    rw [List.replicate_succ, List.cons_append, hcons, ih]

/-- **What is left out** only repeats the sign. -/
theorem exists_replicate_append_minimal (bytes : Bytes) :
    ∃ k, bytes = List.replicate k (fill bytes) ++ minimal bytes := by
  fun_induction minimal bytes with
  | case1 a b bytes h ih =>
    have hr := redundant_iff.mp h
    have hfill : fill (a :: b :: bytes) = fill (b :: bytes) := by
      refine fill_eq_of_value_eq ?_
      rw [value_cons_cons, hr, value_cons]
    obtain ⟨k, hk⟩ := ih
    refine ⟨k + 1, ?_⟩
    rw [hfill, List.replicate_succ, List.cons_append, ← hk, ← eq_fill_iff.mpr hr]
  | case2 => exact ⟨0, rfl⟩
  | case3 => exact ⟨0, rfl⟩

/-! ### Up to 16 bytes -/

theorem holds_iff {n : Int} : Holds 15 n ↔ -2 ^ 127 ≤ n ∧ n < 2 ^ 127 := by
  unfold Holds
  norm_num

theorem holds_toInt (w : BitVec 128) : Holds 15 w.toInt :=
  holds_iff.mpr ⟨BitVec.le_toInt w, BitVec.toInt_lt⟩

theorem toInt_ofInt {n : Int} (h : Holds 15 n) : (BitVec.ofInt 128 n).toInt = n := by
  obtain ⟨hlow, hhigh⟩ := holds_iff.mp h
  rw [BitVec.toInt_ofInt]
  refine Int.bmod_eq_of_le ?_ ?_ <;> omega

/-- The bits of 16 bytes stand for the number that the bytes spell. -/
theorem toInt_ofNat_decode (h : bytes.length = 16) :
    (BitVec.ofNat 128 (decode bytes)).toInt = value bytes := by
  have hvalue : Holds 15 (value bytes) := by
    obtain ⟨a, bytes, rfl⟩ := List.exists_cons_of_length_eq_add_one h
    have hlen : bytes.length = 15 := Nat.succ_inj.mp h
    exact hlen ▸ holds_value_cons a bytes
  obtain ⟨hlow, hhigh⟩ := holds_iff.mp hvalue
  have hmod : (decode bytes : Int).bmod (2 ^ 128) = (value bytes).bmod (2 ^ 128) := by
    unfold value
    rw [h]
    split_ifs
    · exact (Int.sub_bmod_right _ _).symm
    · rw [Int.sub_zero]
  rw [BitVec.toInt_ofNat', hmod]
  refine Int.bmod_eq_of_le ?_ ?_ <;> omega

/-- **16 bytes hold every number of 128 bits.** -/
theorem value_encode {n : Int} (h : Holds 15 n) :
    value (encode 16 (BitVec.ofInt 128 n).toNat) = n := by
  have hlt : (BitVec.ofInt 128 n).toNat < 256 ^ 16 := (BitVec.ofInt 128 n).isLt
  rw [← toInt_ofNat_decode (BigEndian.length_encode ..), BigEndian.decode_encode,
    Nat.mod_eq_of_lt hlt, BitVec.ofNat_toNat, BitVec.setWidth_eq, toInt_ofInt h]

theorem bytes_ofBytes (h : bytes ≠ []) : (ofBytes bytes).bytes = bytes := by
  obtain ⟨b, bytes, rfl⟩ := List.exists_cons_of_ne_nil h
  rfl

theorem bytes_ofInt (n : Int) :
    (ofInt n).bytes = minimal (encode 16 (BitVec.ofInt 128 n).toNat) := by
  have hne : encode 16 (BitVec.ofInt 128 n).toNat ≠ [] := by
    rw [← List.length_pos_iff, BigEndian.length_encode]
    decide
  exact bytes_ofBytes (minimal_ne_nil hne)

theorem isNegative_iff (x : BigInt) : x.isNegative = true ↔ value x.bytes < 0 := by
  rw [value_neg_iff, isNegative, decide_eq_true_iff]

/-- **The number is told** exactly if 16 bytes hold it. -/
theorem toInt?_eq (x : BigInt) :
    x.toInt? = if Holds 15 (value x.bytes) then some (value x.bytes) else none := by
  have hne := minimal_ne_nil x.bytes_ne_nil
  have hholds := length_le_iff (short_minimal x.bytes) hne (k := 15)
  rw [value_minimal] at hholds
  unfold toInt?
  simp only
  split_ifs with hlen hv hv
  · have hfill : (if x.isNegative then 0xFF else 0) = fill (minimal x.bytes) := by
      rw [← fill_eq_of_value_eq (value_minimal x.bytes).symm]
      unfold fill isNegative
      simp only [decide_eq_true_eq]
    have hwidth : (signExtend x.isNegative 16 (minimal x.bytes)).length = 16 := by
      unfold signExtend
      rw [List.length_append, List.length_replicate]
      omega
    rw [toInt_ofNat_decode hwidth, signExtend, hfill, value_replicate_append hne, value_minimal]
  · exact absurd (hholds.mp hlen) hv
  · exact absurd (hholds.mpr hv) hlen
  · rfl

/-! ### Shortest forms -/

/-- No form of the same number is shorter than one without redundant bytes. -/
theorem Short.length_le (h : Short bytes) (hne : bytes ≠ []) (hother : other ≠ [])
    (hv : value bytes = value other) : bytes.length ≤ other.length := by
  obtain ⟨b, other, rfl⟩ := List.exists_cons_of_ne_nil hother
  rw [List.length_cons, length_le_iff h hne, hv]
  exact holds_value_cons b other

theorem Short.eq (h : Short bytes) (hne : bytes ≠ []) (h' : Short other) (hne' : other ≠ [])
    (hv : value bytes = value other) : bytes = other :=
  eq_of_value_eq (le_antisymm (h.length_le hne hne' hv) (h'.length_le hne' hne hv.symm)) hv

theorem short_ofInt (n : Int) : Short (ofInt n).bytes := by
  rw [bytes_ofInt]
  exact short_minimal _

theorem value_ofInt {n : Int} (h : Holds 15 n) : value (ofInt n).bytes = n := by
  rw [bytes_ofInt, value_minimal, value_encode h]

/-- **Numbers of 128 bits and their bytes.** Such a number takes the shortest bytes that spell it, 1
to 16 of them, and no others of that length spell it. Of bytes in any number, redundant ones
included, the number is told exactly if it is one of 128 bits, and the first bit tells its sign. So a
number is told from its own bytes, and where one is told from others, these are its own with some
more before them that only repeat the sign. -/
theorem conversions_exact :
    (∀ n : Int, -2 ^ 127 ≤ n → n < 2 ^ 127 →
      value (ofInt n).bytes = n ∧ 0 < (ofInt n).bytes.length ∧ (ofInt n).bytes.length ≤ 16 ∧
      (∀ bytes ≠ [], value bytes = n → (ofInt n).bytes.length ≤ bytes.length ∧
        (bytes.length = (ofInt n).bytes.length → bytes = (ofInt n).bytes)) ∧
      (ofInt n).toInt? = some n) ∧
    (∀ bytes ≠ [],
      (ofBytes bytes).toInt? = (if -2 ^ 127 ≤ value bytes ∧ value bytes < 2 ^ 127
        then some (value bytes) else none) ∧
      ((ofBytes bytes).isNegative = true ↔ value bytes < 0)) ∧
    ∀ (x : BigInt) (n : Int), x.toInt? = some n → Short (ofInt n).bytes ∧
      ∃ k, x.bytes = List.replicate k (if x.isNegative then 0xFF else 0) ++ (ofInt n).bytes := by
  refine ⟨fun n hlow hhigh => ?_, fun bytes hne => ?_, fun x n h => ⟨short_ofInt n, ?_⟩⟩
  · have hn : Holds 15 n := holds_iff.mpr ⟨hlow, hhigh⟩
    have hshort := short_ofInt n
    have hvalue := value_ofInt hn
    generalize ofInt n = x at hshort hvalue ⊢
    have hne := x.bytes_ne_nil
    refine ⟨hvalue, List.length_pos_iff.mpr hne, ?_, fun bytes hbytes hv => ⟨?_, fun hl => ?_⟩, ?_⟩
    · exact (length_le_iff hshort hne).mpr (hvalue.symm ▸ hn)
    · exact hshort.length_le hne hbytes (hvalue.trans hv.symm)
    · exact eq_of_value_eq hl (hv.trans hvalue.symm)
    · rw [toInt?_eq, hvalue, if_pos hn]
  · rw [toInt?_eq, isNegative_iff, bytes_ofBytes hne]
    simp only [holds_iff, and_self]
  · rw [toInt?_eq] at h
    split_ifs at h with hn
    have hv : value x.bytes = n := Option.some.inj h
    rw [hv] at hn
    have hminimal : minimal x.bytes = (ofInt n).bytes := by
      refine (short_minimal _).eq (minimal_ne_nil x.bytes_ne_nil) (short_ofInt n)
        (ofInt n).bytes_ne_nil ?_
      rw [value_minimal, hv, value_ofInt hn]
    obtain ⟨k, hk⟩ := exists_replicate_append_minimal x.bytes
    have hfill : fill x.bytes = if x.isNegative then 0xFF else 0 := by
      unfold fill isNegative
      simp only [decide_eq_true_eq]
    exact ⟨k, by rw [← hminimal, ← hfill]; exact hk⟩

/-- The least number of 128 bits, and it with a byte more; and a number that takes 17 bytes. -/
theorem conversions_exact_least :
    value (ofInt (-2 ^ 127)).bytes = -2 ^ 127 ∧ (ofInt (-2 ^ 127)).bytes.length ≤ 16 ∧
    (ofInt (-2 ^ 127)).toInt? = some (-2 ^ 127) ∧
    (∃ k, (0xFF :: 0x80 :: List.replicate 15 0 : Bytes) =
      List.replicate k 0xFF ++ (ofInt (-2 ^ 127)).bytes) ∧
    (ofBytes (0 :: 0x80 :: List.replicate 15 0)).toInt? = none := by
  obtain ⟨hvalue, -, hsize, -, hback⟩ := conversions_exact.1 (-2 ^ 127) (by decide) (by decide)
  have hlong : (ofBytes (0xFF :: 0x80 :: List.replicate 15 0)).toInt? = some (-2 ^ 127) := by
    decide
  have hnone := (conversions_exact.2.1 (0 :: 0x80 :: List.replicate 15 0) (by decide)).1
  rw [if_neg (by decide)] at hnone
  obtain ⟨-, k, hk⟩ := conversions_exact.2.2 _ _ hlong
  rw [bytes_ofBytes (by decide)] at hk
  exact ⟨hvalue, hsize, hback, ⟨k, hk⟩, hnone⟩

end TagFormat.BigInt
