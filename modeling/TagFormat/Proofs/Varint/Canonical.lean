import Mathlib.Data.List.Induction
import Mathlib.Tactic.NormNum
import Mathlib.Tactic.Ring
import TagFormat.Varint

/-! # Variable-length numbers: one encoding each

A block of bytes is the big-endian form, of its own length, of the number that it spells
(`encode_decode`), and that form is the shortest exactly when the block has one byte or does not
start with zero (`width_decode_eq_iff`). So a header and a body that `decodeBody` accepts are the
encoding of the number that comes out, and no other bytes are (`encode_eq_cons_iff`). -/

namespace TagFormat

/-! ### Big-endian blocks -/

namespace BigEndian

theorem decode_cons (b : UInt8) (bytes : Bytes) :
    decode (b :: bytes) = b.toNat * 256 ^ bytes.length + decode bytes := by
  induction bytes using List.reverseRecOn with
  | nil => simp [decode]
  | append_singleton bytes c ih =>
    rw [← List.cons_append, decode_concat, ih, decode_concat, List.length_append,
      List.length_singleton, Nat.pow_succ]
    ring_nf

theorem decode_lt (bytes : Bytes) : decode bytes < 256 ^ bytes.length := by
  induction bytes using List.reverseRecOn with
  | nil => simp
  | append_singleton bytes b ih =>
    have hb := b.toNat_lt
    rw [decode_concat, List.length_append, List.length_singleton, Nat.pow_succ]
    omega

theorem encode_decode (bytes : Bytes) : encode bytes.length (decode bytes) = bytes := by
  induction bytes using List.reverseRecOn with
  | nil => rfl
  | append_singleton bytes b ih =>
    have hb := b.toNat_lt
    have hq : (256 * decode bytes + b.toNat) / 256 = decode bytes := by omega
    have hr : UInt8.ofNat (256 * decode bytes + b.toNat) = b := by
      rw [← UInt8.toNat_inj, UInt8.toNat_ofNat']
      omega
    rw [List.length_append, List.length_singleton, decode_concat, encode, hq, hr, ih]

theorem decode_encode (width n : Nat) : decode (encode width n) = n % 256 ^ width := by
  induction width generalizing n with
  | zero => simp [encode, Nat.mod_one]
  | succ width ih =>
    rw [encode, decode_concat, ih, Nat.pow_succ', Nat.mod_mul]
    simp
    omega

/-- **A block is the form of one number.** -/
theorem encode_eq_iff {bytes : Bytes} {w n : Nat} (hn : n < 256 ^ w) :
    encode w n = bytes ↔ bytes.length = w ∧ decode bytes = n := by
  constructor
  · rintro rfl
    exact ⟨length_encode w n, by rw [decode_encode, Nat.mod_eq_of_lt hn]⟩
  · rintro ⟨rfl, rfl⟩
    exact encode_decode bytes

theorem width_pos (n : Nat) : 0 < width n := Nat.succ_pos _

theorem width_le_iff {n k : Nat} (hk : 0 < k) : width n ≤ k ↔ n < 256 ^ k := by
  have hpow : 256 ^ k = 2 ^ (8 * k) := by rw [Nat.pow_mul]
  rcases Nat.eq_zero_or_pos n with rfl | hn
  · simp [width, Nat.log2_zero]
    omega
  · rw [hpow, ← Nat.log2_lt hn.ne', width]
    omega

theorem lt_width_pow (n : Nat) : n < 256 ^ width n :=
  (width_le_iff (width_pos n)).mp le_rfl

theorem width_mono {m n : Nat} (h : m ≤ n) : width m ≤ width n :=
  (width_le_iff (width_pos n)).mpr (h.trans_lt (lt_width_pow n))

/-- A block is as short as can be exactly when it has one byte or does not start with zero. -/
theorem width_decode_eq_iff {bytes : Bytes} (h : bytes ≠ []) :
    width (decode bytes) = bytes.length ↔ bytes.length = 1 ∨ bytes.head? ≠ some 0 := by
  obtain ⟨b, rest, rfl⟩ := List.exists_cons_of_ne_nil h
  have hle : width (decode (b :: rest)) ≤ rest.length + 1 :=
    (width_le_iff (Nat.succ_pos _)).mpr (decode_lt (b :: rest))
  rcases Nat.eq_zero_or_pos rest.length with hr | hr
  · have hpos := width_pos (decode (b :: rest))
    rw [hr] at hle
    rw [List.length_cons, hr]
    exact ⟨fun _ => Or.inl rfl, fun _ => by omega⟩
  · have hlt : width (decode (b :: rest)) ≤ rest.length ↔ b = 0 := by
      rw [width_le_iff hr, decode_cons, ← UInt8.toNat_inj]
      have hd := decode_lt rest
      constructor
      · intro hb
        by_contra hne
        have : 1 * 256 ^ rest.length ≤ b.toNat * 256 ^ rest.length :=
          Nat.mul_le_mul_right _ (Nat.pos_of_ne_zero hne)
        omega
      · intro hb
        rw [hb]
        simpa using hd
    simp only [List.length_cons, List.head?_cons, ne_eq, Option.some.injEq, ← hlt]
    omega

end BigEndian

namespace Varint

open BigEndian (width)

/-! ### The shape of an encoding -/

theorem width_sub_base_le (v : UInt64) : width (v.toNat - base) ≤ 8 := by
  rw [BigEndian.width_le_iff (by decide)]
  have := v.toNat_lt
  norm_num
  omega

theorem encode_of_lt {v : UInt64} (h : v.toNat < base) : encode v = [UInt8.ofNat v.toNat] := by
  rw [encode, encodeNat, if_pos h]

theorem encode_of_le {v : UInt64} (h : base ≤ v.toNat) :
    encode v = UInt8.ofNat (base + (width (v.toNat - base) - 1)) ::
      BigEndian.encode (width (v.toNat - base)) (v.toNat - base) := by
  rw [encode, encodeNat, if_neg (by omega)]

@[simp] theorem length_encode (v : UInt64) : (encode v).length = encodedSize v := by
  rw [encodedSize, sizeOfNat]
  split_ifs with h
  · rw [encode_of_lt h]
    rfl
  · rw [encode_of_le (by omega), List.length_cons, BigEndian.length_encode]
    omega

theorem encodedSize_pos (v : UInt64) : 0 < encodedSize v := by
  rw [encodedSize, sizeOfNat]
  split_ifs <;> omega

theorem sizeOfNat_mono {m n : Nat} (h : m ≤ n) : sizeOfNat m ≤ sizeOfNat n := by
  have hwidth := BigEndian.width_mono (Nat.sub_le_sub_right h base)
  unfold sizeOfNat
  split_ifs <;> omega

theorem encode_ne_nil (v : UInt64) : encode v ≠ [] := by
  rw [ne_eq, ← List.length_eq_zero_iff, length_encode]
  exact (encodedSize_pos v).ne'

theorem bodyLength_eq_zero_iff (header : UInt8) : bodyLength header = 0 ↔ header.toNat < base := by
  unfold bodyLength base
  omega

/-! ### Bodies -/

theorem sizeOfNat_add_base (n : Nat) : sizeOfNat (n + base) = width n + 1 := by
  rw [sizeOfNat, if_neg (by omega), Nat.add_sub_cancel, Nat.add_comm]

/-- **A body is accepted** when it is the shortest form of what is left of a 64-bit number. -/
theorem decodeBody_eq_ok_iff {body : Bytes} {v : UInt64} (h : body ≠ []) :
    decodeBody body = .ok v ↔
      v.toNat = BigEndian.decode body + base ∧ width (v.toNat - base) = body.length := by
  have hv : v.toNat < UInt64.size := v.toNat_lt
  have hw := width_sub_base_le v
  unfold decodeBody
  simp only [sizeOfNat_add_base]
  split_ifs with hlength hover hmin
  · have hlong : 8 < body.length := hlength.resolve_left h
    simp only [false_iff, not_and]
    omega
  · simp only [false_iff, not_and]
    omega
  · simp only [false_iff, not_and]
    intro hn
    rw [hn, Nat.add_sub_cancel]
    omega
  · have hn : BigEndian.decode body + base < UInt64.size := Nat.lt_of_not_le hover
    have hwidth : width (BigEndian.decode body) = body.length := by omega
    rw [Except.ok.injEq, ← UInt64.toNat_inj, UInt64.toNat_ofNat', Nat.mod_eq_of_lt hn]
    constructor
    · intro hd
      exact ⟨hd.symm, by rw [← hd, Nat.add_sub_cancel, hwidth]⟩
    · rintro ⟨hd, -⟩
      exact hd.symm

/-- **The encoding of a number**: a header alone, or a header and a body of the length that the
header announces, from which the number is read back. -/
theorem encode_eq_cons_iff (v : UInt64) (header : UInt8) (body : Bytes) :
    encode v = header :: body ↔
      (bodyLength header = 0 ∧ body = [] ∧ v = header.toUInt64) ∨
      (0 < bodyLength header ∧ body.length = bodyLength header ∧ decodeBody body = .ok v) := by
  have hh := header.toNat_lt
  have hb : base = 248 := rfl
  have h0 := bodyLength_eq_zero_iff header
  by_cases hv : v.toNat < base
  · rw [encode_of_lt hv, List.cons.injEq, ← UInt8.toNat_inj, UInt8.toNat_ofNat',
      Nat.mod_eq_of_lt (by omega)]
    constructor
    · rintro ⟨he, rfl⟩
      refine Or.inl ⟨h0.mpr (by omega), rfl, ?_⟩
      rw [← UInt64.toNat_inj, UInt8.toNat_toUInt64, he]
    · rintro (⟨-, rfl, rfl⟩ | ⟨hpos, hl, hd⟩)
      · exact ⟨UInt8.toNat_toUInt64 header, rfl⟩
      · have := ((decodeBody_eq_ok_iff (List.ne_nil_of_length_pos (hl ▸ hpos))).mp hd).1
        omega
  · have hw := width_sub_base_le v
    have hpos := BigEndian.width_pos (v.toNat - base)
    have hlen : header.toNat = base + (width (v.toNat - base) - 1) ↔
        bodyLength header = width (v.toNat - base) := by
      unfold bodyLength
      omega
    rw [encode_of_le (by omega), List.cons.injEq, ← UInt8.toNat_inj, UInt8.toNat_ofNat',
      Nat.mod_eq_of_lt (by omega), BigEndian.encode_eq_iff (BigEndian.lt_width_pow _), eq_comm,
      hlen]
    constructor
    · rintro ⟨h1, h2, h3⟩
      have hne : body ≠ [] := List.ne_nil_of_length_pos (by omega)
      exact Or.inr ⟨by omega, by omega, (decodeBody_eq_ok_iff hne).mpr ⟨by omega, by omega⟩⟩
    · rintro (⟨h1, -, rfl⟩ | ⟨h1, h2, h3⟩)
      · rw [UInt8.toNat_toUInt64] at hv
        exact absurd (h0.mp h1) hv
      · obtain ⟨h4, h5⟩ := (decodeBody_eq_ok_iff (List.ne_nil_of_length_pos (by omega))).mp h3
        exact ⟨by omega, by omega, by omega⟩

theorem encode_injective {v w : UInt64} (h : encode v = encode w) : v = w := by
  obtain ⟨header, body, he⟩ := List.exists_cons_of_ne_nil (encode_ne_nil w)
  rcases (encode_eq_cons_iff v header body).mp (h.trans he) with ⟨hv0, -, hv⟩ | ⟨hv0, -, hv⟩ <;>
    rcases (encode_eq_cons_iff w header body).mp he with ⟨hw0, -, hw⟩ | ⟨hw0, -, hw⟩
  · rw [hv, hw]
  · omega
  · omega
  · rw [hv] at hw
    injection hw

end Varint

end TagFormat
