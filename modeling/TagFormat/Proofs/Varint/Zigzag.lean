import Mathlib.Tactic.Common
import TagFormat.Proofs.Varint.Canonical

/-! # Zigzag is a bijection

Bit by bit, `zigzag` moves a number up by one place and flips all of it if it is negative, and
`unzigzag` moves it down again and flips all of it if the lowest bit was set. In integers, moving up
doubles and flipping all bits of `n` gives `-n - 1`, so the numbers from zero up go to the even
numbers and those below to the odd ones (`toNat_zigzag`), and the further a number is from zero, the
greater is where it goes. `zigzag_exact` puts both views together. -/

namespace TagFormat.Varint

theorem toBitVec_zigzag (n : Int64) :
    (zigzag n).toBitVec = (n.toBitVec <<< 1) ^^^ n.toBitVec.sshiftRight 63 := rfl

theorem toBitVec_unzigzag (u : UInt64) :
    (unzigzag u).toBitVec = (u.toBitVec >>> 1) ^^^ -(u.toBitVec &&& 1#64) := rfl

/-- The number that flips all bits if the lowest bit of `u` is set. -/
theorem neg_and_one (u : BitVec 64) : -(u &&& 1#64) = if u[0] then BitVec.allOnes 64 else 0#64 := by
  have h : u &&& 1#64 = if u[0] then 1#64 else 0#64 := by
    ext i hi
    rcases Nat.eq_zero_or_pos i with rfl | hpos
    · cases h0 : u[0] <;> simp [h0]
    · have : ¬ i = 0 := by omega
      cases u[0] <;> simp [this]
  rw [h]
  cases u[0] <;> rfl

theorem getElem_zigzag (n : Int64) (i : Nat) (hi : i < 64) :
    (zigzag n).toBitVec[i] = (n.toBitVec[63] ^^ (0 < i && n.toBitVec.getLsbD (i - 1))) := by
  rw [toBitVec_zigzag, BitVec.getElem_xor, BitVec.getElem_shiftLeft, BitVec.getElem_sshiftRight,
    Bool.xor_comm]
  rcases Nat.eq_zero_or_pos i with rfl | hpos
  · simp
  · have h0 : ¬ i < 1 := by omega
    have h1 : ¬ 63 + i < 64 := by omega
    have hlt : i - 1 < 64 := by omega
    simp [h0, h1, hpos, BitVec.msb_eq_getLsbD_last, BitVec.getLsbD_eq_getElem hlt]

theorem getElem_unzigzag (u : UInt64) (i : Nat) (hi : i < 64) :
    (unzigzag u).toBitVec[i] = (u.toBitVec[0] ^^ u.toBitVec.getLsbD (i + 1)) := by
  rw [toBitVec_unzigzag, BitVec.getElem_xor, neg_and_one, BitVec.getElem_ushiftRight, Bool.xor_comm,
    Nat.add_comm]
  cases u.toBitVec[0]
  · simp
  · rw [if_pos rfl, BitVec.getElem_allOnes]

theorem unzigzag_zigzag (n : Int64) : unzigzag (zigzag n) = n := by
  rw [← Int64.toBitVec_inj]
  ext i hi
  rw [getElem_unzigzag, getElem_zigzag]
  rcases Nat.lt_or_ge (i + 1) 64 with h | h
  · rw [BitVec.getLsbD_eq_getElem h, getElem_zigzag]
    simp [BitVec.getLsbD_eq_getElem hi]
  · obtain rfl : i = 63 := by omega
    simp

theorem zigzag_unzigzag (u : UInt64) : zigzag (unzigzag u) = u := by
  rw [← UInt64.toBitVec_inj]
  ext i hi
  rw [getElem_zigzag, getElem_unzigzag]
  rcases Nat.eq_zero_or_pos i with rfl | hpos
  · simp
  · rw [BitVec.getLsbD_eq_getElem (show i - 1 < 64 by omega), getElem_unzigzag,
      Nat.sub_add_cancel hpos, BitVec.getLsbD_eq_getElem hi]
    simp [hpos]

theorem unzigzag_eq_iff {u : UInt64} {n : Int64} : n = unzigzag u ↔ u = zigzag n := by
  constructor
  · rintro rfl
    exact (zigzag_unzigzag u).symm
  · rintro rfl
    exact (unzigzag_zigzag n).symm

/-! ### The numbers that zigzag gives -/

/-- Moved down by 63 places, a number leaves its sign in every place. -/
theorem sshiftRight_sign (x : BitVec 64) :
    x.sshiftRight 63 = if x.toInt < 0 then BitVec.allOnes 64 else 0#64 := by
  have hsign : x.msb = decide (x.toInt < 0) := BitVec.msb_eq_toInt
  ext i hi
  have hmsb : (x.sshiftRight 63)[i] = x.msb := by
    rw [BitVec.getElem_sshiftRight]
    split_ifs with h
    · obtain rfl : i = 0 := by omega
      rw [BitVec.msb_eq_getLsbD_last, BitVec.getLsbD_eq_getElem (by omega)]
    · rfl
  rw [hmsb, hsign]
  split_ifs with h
  · rw [BitVec.getElem_allOnes, decide_eq_true h]
  · rw [BitVec.getElem_zero, decide_eq_false h]

/-- **Zigzag in integers**: numbers from zero up are doubled, and those below go to the odd numbers
between them. -/
theorem toNat_zigzag (n : Int64) :
    ((zigzag n).toNat : Int) = if 0 ≤ n.toInt then 2 * n.toInt else -2 * n.toInt - 1 := by
  have hbits : (zigzag n).toNat = (zigzag n).toBitVec.toNat := rfl
  have hint : n.toInt = n.toBitVec.toInt := rfl
  have hlt := n.toBitVec.isLt
  have hcond := BitVec.toInt_eq_toNat_cond n.toBitVec
  have hdouble : (n.toBitVec <<< 1).toNat = 2 * n.toBitVec.toNat % 2 ^ 64 := by
    rw [BitVec.toNat_shiftLeft, Nat.shiftLeft_eq, Nat.mul_comm, Nat.pow_one]
  rw [hbits, toBitVec_zigzag, sshiftRight_sign, hint]
  by_cases hneg : n.toBitVec.toInt < 0
  · rw [if_pos hneg, if_neg (by omega), BitVec.xor_allOnes, BitVec.toNat_not, hdouble]
    split_ifs at hcond <;> omega
  · rw [if_neg hneg, if_pos (by omega), BitVec.xor_zero, hdouble]
    split_ifs at hcond <;> omega

theorem toInt_unzigzag (u : UInt64) :
    (unzigzag u).toInt =
      if u.toNat % 2 = 0 then (u.toNat : Int) / 2 else -(((u.toNat : Int) + 1) / 2) := by
  have hzigzag := toNat_zigzag (unzigzag u)
  rw [zigzag_unzigzag] at hzigzag
  split_ifs at hzigzag ⊢ <;> omega

/-! ### Distances from zero -/

/-- Zigzag orders numbers by their distance from zero. -/
theorem toNat_zigzag_lt {n m : Int64} (h : n.toInt.natAbs < m.toInt.natAbs) :
    (zigzag n).toNat < (zigzag m).toNat := by
  have hn := toNat_zigzag n
  have hm := toNat_zigzag m
  split_ifs at hn hm <;> omega

/-- **Zigzag is a bijection, exact in integers.** A number `n` goes to `2 * n` from zero up and to
`-2 * n - 1` below, the least one to the greatest word, and nothing wraps; the way back is the
inverse from both sides; and numbers nearer to zero have no longer encodings. -/
theorem zigzag_exact :
    (∀ n : Int64,
      ((zigzag n).toNat : Int) = if 0 ≤ n.toInt then 2 * n.toInt else -2 * n.toInt - 1) ∧
    (zigzag Int64.minValue).toNat = 2 ^ 64 - 1 ∧
    (∀ u : UInt64, (unzigzag u).toInt =
      if u.toNat % 2 = 0 then (u.toNat : Int) / 2 else -(((u.toNat : Int) + 1) / 2)) ∧
    (∀ n, unzigzag (zigzag n) = n) ∧
    (∀ u, zigzag (unzigzag u) = u) ∧
    ∀ n m : Int64, n.toInt.natAbs < m.toInt.natAbs → signedSize n ≤ signedSize m :=
  ⟨toNat_zigzag, rfl, toInt_unzigzag, unzigzag_zigzag, zigzag_unzigzag,
    fun _ _ h => sizeOfNat_mono (toNat_zigzag_lt h).le⟩

/-- The greatest number and the least, which is one further from zero; and where the first length
ends. -/
theorem zigzag_exact_extremes :
    (Int64.maxValue.toInt.natAbs < Int64.minValue.toInt.natAbs ∧
      signedSize Int64.maxValue ≤ signedSize Int64.minValue) ∧
    ((-124 : Int64).toInt.natAbs < (125 : Int64).toInt.natAbs ∧
      signedSize (-124) ≤ signedSize 125) :=
  ⟨⟨by decide, zigzag_exact.2.2.2.2.2 _ _ (by decide)⟩,
    ⟨by decide, zigzag_exact.2.2.2.2.2 _ _ (by decide)⟩⟩

end TagFormat.Varint
