import Mathlib.Algebra.Field.Rat
import Mathlib.Tactic.NormNum
import Mathlib.Tactic.Ring
import TagFormat.Number.Binary

/-! # Widening is exact

`magnitude` is what an exponent and a fraction stand for by the rules of the format, and `number`
gives it the sign of the pattern. A pattern is the sum of its fields (`pattern_eq`), so they are read
off it as they were put in.

`Widens` says class by class which fields of 128 bits stand for those of 64 (`widens`). A subnormal
has a first bit `2 ^ k` and the rest `d` of its fraction; the first bit is the one that a normal
number leaves out, and `d` moves up to it. In each class the magnitude is the same
(`Widens.magnitude_eq`), and the fields of 64 bits can be told from those of 128 (`Widens.unique`). -/

namespace TagFormat.Binary

variable {f : Binary} {bits s e m e' m' : Nat} {x : UInt64}

/-! ### The number of a pattern -/

/-- What an exponent and a fraction stand for, if the exponent is not the top one. -/
def magnitude (f : Binary) (exponent fraction : Nat) : ℚ :=
  if exponent = 0 then fraction * 2 ^ (1 - f.bias - f.fractionWidth : ℤ)
  else (2 ^ f.fractionWidth + fraction : Nat) * 2 ^ (exponent - f.bias - f.fractionWidth : ℤ)

/-- What a pattern stands for, if it is finite. -/
def number (f : Binary) (bits : Nat) : ℚ :=
  (-1) ^ f.sign bits * f.magnitude (f.exponent bits) (f.fraction bits)

/-- A significand moved up by some bits stands for the same with the exponent down by as many. -/
theorem mul_two_pow_mul_zpow (a n : Nat) (i : ℤ) :
    ((a * 2 ^ n : Nat) : ℚ) * 2 ^ i = a * 2 ^ (n + i) := by
  rw [zpow_add₀ two_ne_zero, zpow_natCast]
  push_cast
  ring

/-! ### Patterns and their fields -/

theorem sign_lt (f : Binary) (bits : Nat) : f.sign bits < 2 :=
  Nat.mod_lt _ two_pos

theorem exponent_lt (f : Binary) (bits : Nat) : f.exponent bits < 2 ^ f.exponentWidth := by
  rw [exponent, Nat.one_shiftLeft]
  exact Nat.mod_lt _ (Nat.two_pow_pos _)

theorem fraction_lt (f : Binary) (bits : Nat) : f.fraction bits < 2 ^ f.fractionWidth := by
  rw [fraction, Nat.one_shiftLeft]
  exact Nat.mod_lt _ (Nat.two_pow_pos _)

/-- The pattern with the given fields. -/
def pattern (f : Binary) (sign exponent fraction : Nat) : Nat :=
  sign <<< (f.exponentWidth + f.fractionWidth) ||| exponent <<< f.fractionWidth ||| fraction

/-- Bits that start at a bound and a number below it do not overlap. -/
theorem shiftLeft_and_eq_zero {a b n : Nat} (h : b < 2 ^ n) : a <<< n &&& b = 0 := by
  refine Nat.eq_of_testBit_eq fun i => ?_
  rw [Nat.testBit_and, Nat.testBit_shiftLeft, Nat.zero_testBit]
  rcases Nat.lt_or_ge i n with hi | hi
  · rw [decide_eq_false (Nat.not_le.mpr hi), Bool.false_and, Bool.false_and]
  · rw [Nat.testBit_lt_two_pow (h.trans_le (Nat.pow_le_pow_right two_pos hi)), Bool.and_false]

section Fields

variable (he : e < 2 ^ f.exponentWidth) (hm : m < 2 ^ f.fractionWidth)
include he hm

/-- **A pattern is the sum of its fields**, each at its place. -/
theorem pattern_eq :
    f.pattern s e m = (s * 2 ^ f.exponentWidth + e) * 2 ^ f.fractionWidth + m := by
  rw [pattern, Nat.shiftLeft_add, ← Nat.shiftLeft_or_distrib, ← Nat.shiftLeft_add_eq_or_of_lt he,
    ← Nat.shiftLeft_add_eq_or_of_lt hm, Nat.shiftLeft_eq, Nat.shiftLeft_eq]

theorem fraction_pattern : f.fraction (f.pattern s e m) = m := by
  rw [fraction, pattern_eq he hm, Nat.one_shiftLeft, Nat.mul_add_mod_of_lt hm]

theorem pattern_shiftRight :
    f.pattern s e m >>> f.fractionWidth = s * 2 ^ f.exponentWidth + e := by
  rw [pattern_eq he hm, Nat.shiftRight_eq_div_pow, Nat.mul_comm,
    Nat.mul_add_div (Nat.two_pow_pos _), Nat.div_eq_of_lt hm, Nat.add_zero]

theorem exponent_pattern : f.exponent (f.pattern s e m) = e := by
  rw [exponent, pattern_shiftRight he hm, Nat.one_shiftLeft, Nat.mul_add_mod_of_lt he]

theorem sign_pattern (hs : s < 2) : f.sign (f.pattern s e m) = s := by
  rw [sign, Nat.add_comm, Nat.shiftRight_add, pattern_shiftRight he hm, Nat.shiftRight_eq_div_pow,
    Nat.mul_comm, Nat.mul_add_div (Nat.two_pow_pos _), Nat.div_eq_of_lt he, Nat.add_zero,
    Nat.mod_eq_of_lt hs]

end Fields

/-- The fields are all there is to a pattern. -/
theorem pattern_fields (h : bits < 2 ^ (f.fractionWidth + f.exponentWidth + 1)) :
    f.pattern (f.sign bits) (f.exponent bits) (f.fraction bits) = bits := by
  have hsign : bits / 2 ^ f.fractionWidth / 2 ^ f.exponentWidth < 2 := by
    rw [Nat.div_div_eq_div_mul, ← pow_add]
    exact Nat.div_lt_of_lt_mul (by rwa [← pow_succ])
  rw [pattern_eq (exponent_lt f bits) (fraction_lt f bits), sign, exponent, fraction,
    Nat.add_comm f.exponentWidth, Nat.shiftRight_add, Nat.one_shiftLeft, Nat.one_shiftLeft]
  simp only [Nat.shiftRight_eq_div_pow]
  rw [Nat.mod_eq_of_lt hsign, Nat.div_add_mod', Nat.div_add_mod']

/-! ### The classes of numbers -/

/-- Which fields of 128 bits stand for the same as fields of 64 bits. The biases are 15360 apart, and
the exponent of a subnormal is less by the zeros before its first bit. -/
inductive Widens : Nat → Nat → Nat → Nat → Prop
  | zero : Widens 0 0 0 0
  | subnormal (k d : Nat) (hk : k ≤ 51) (hd : d < 2 ^ k) :
    Widens 0 (2 ^ k + d) (15360 - (51 - k)) (d * 2 ^ (112 - k))
  | normal (e m : Nat) (hpos : 0 < e) (he : e < 2047) (hm : m < 2 ^ 52) :
    Widens e m (e + 15360) (m * 2 ^ 60)
  | top (m : Nat) (hm : m < 2 ^ 52) : Widens 2047 m 32767 (m * 2 ^ 60)

/-- What is below the first bit stays below the bound that the first bit is moved to. -/
theorem mul_two_pow_sub_lt {d k n : Nat} (hd : d < 2 ^ k) (hk : k ≤ n) : d * 2 ^ (n - k) < 2 ^ n := by
  rw [← pow_mul_pow_sub 2 hk]
  exact Nat.mul_lt_mul_of_pos_right hd (Nat.two_pow_pos _)

/-- The first bit of a subnormal leaves the fraction, and the rest stays in it. -/
theorem fraction_shiftLeft {k d : Nat} (hk : k ≤ 52) (hd : d < 2 ^ k) :
    double.fraction ((2 ^ k + d) <<< (52 - k)) = d * 2 ^ (52 - k) := by
  have hwidth : 1 <<< double.fractionWidth = 2 ^ 52 := Nat.one_shiftLeft 52
  have hmoved : (2 ^ k + d) * 2 ^ (52 - k) = 1 * 2 ^ 52 + d * 2 ^ (52 - k) := by
    rw [add_mul, pow_mul_pow_sub 2 hk, one_mul]
  rw [fraction, hwidth, Nat.shiftLeft_eq, hmoved, Nat.mul_add_mod_of_lt (mul_two_pow_sub_lt hd hk)]

/-- **The fields are those of the same class.** -/
theorem widens (bits : Nat) :
    Widens (double.exponent bits) (double.fraction bits) (widened bits).1 (widened bits).2 := by
  have he : double.exponent bits < 2048 := exponent_lt double bits
  have hm : double.fraction bits < 2 ^ 52 := fraction_lt double bits
  unfold widened
  generalize double.exponent bits = e at he ⊢
  generalize double.fraction bits = m at hm ⊢
  split <;> simp only
  · split_ifs with hzero
    · subst hzero
      exact .zero
    · have hlow := Nat.log2_self_le hzero
      have hhigh : m < 2 ^ (m.log2 + 1) := Nat.lt_log2_self
      have hk : m.log2 ≤ 51 := Nat.le_of_lt_succ ((Nat.log2_lt hzero).mpr hm)
      generalize m.log2 = k at hlow hhigh hk
      obtain ⟨d, rfl⟩ := Nat.exists_eq_add_of_le hlow
      have hd : d < 2 ^ k := by
        rw [pow_succ] at hhigh
        omega
      have hshift : 51 - k + 1 = 52 - k := by omega
      have hplace : 52 - k + 60 = 112 - k := by omega
      rw [hshift, fraction_shiftLeft (Nat.le_succ_of_le hk) hd, Nat.shiftLeft_eq, mul_assoc, ← pow_add, hplace]
      exact .subnormal k d hk hd
  next _ hpos =>
    rw [Nat.shiftLeft_eq]
    split_ifs with htop
    · subst htop
      exact .top m hm
    · exact .normal e m (Nat.pos_of_ne_zero hpos) (lt_of_le_of_ne (Nat.le_of_lt_succ he) htop) hm

namespace Widens

/-- **The same number.** -/
theorem magnitude_eq (h : Widens e m e' m') (he : e ≠ 2047) :
    quad.magnitude e' m' = double.magnitude e m := by
  have hdouble : (double.bias : ℤ) = 1023 ∧ double.fractionWidth = 52 := ⟨rfl, rfl⟩
  have hquad : (quad.bias : ℤ) = 16383 ∧ quad.fractionWidth = 112 := ⟨rfl, rfl⟩
  rw [magnitude, magnitude, hdouble.1, hdouble.2, hquad.1, hquad.2]
  cases h with
  | zero => norm_num
  | subnormal k d hk hd =>
    have hmoved : 2 ^ 112 + d * 2 ^ (112 - k) = (2 ^ k + d) * 2 ^ (112 - k) := by
      rw [add_mul, pow_mul_pow_sub 2 (by omega)]
    have hplace : ((112 - k : Nat) : ℤ) + ((15360 - (51 - k) : Nat) - 16383 - (112 : Nat)) =
        1 - 1023 - (52 : Nat) := by
      omega
    rw [if_neg (by omega), if_pos rfl, hmoved, mul_two_pow_mul_zpow, hplace]
  | normal _ _ hpos he hm =>
    have hmoved : 2 ^ 112 + m * 2 ^ 60 = (2 ^ 52 + m) * 2 ^ 60 := by ring
    have hplace : ((60 : Nat) : ℤ) + ((e + 15360 : Nat) - 16383 - (112 : Nat)) =
        e - 1023 - (52 : Nat) := by
      omega
    rw [if_neg (by omega), if_neg (by omega), hmoved, mul_two_pow_mul_zpow, hplace]
  | top => exact absurd rfl he

theorem exponent_lt (h : Widens e m e' m') : e' < 2 ^ 15 := by
  cases h <;> omega

theorem fraction_lt (h : Widens e m e' m') : m' < 2 ^ 112 := by
  cases h with
  | zero => exact Nat.two_pow_pos _
  | subnormal k d hk hd => exact mul_two_pow_sub_lt hd (by omega)
  | normal _ _ _ _ hm => omega
  | top _ hm => omega

theorem ne_top (h : Widens e m e' m') (he : e ≠ 2047) : e' ≠ 32767 := by
  cases h <;> omega

theorem of_top (h : Widens e m e' m') (he : e = 2047) : e' = 32767 ∧ m' = m * 2 ^ 60 := by
  cases h <;> omega

/-- Only zero has the exponent of subnormals. -/
theorem of_exponent_zero (h : Widens e m e' m') (he : e' = 0) : e = 0 ∧ m = 0 := by
  cases h <;> omega

/-- **The fields can be told from the wider ones.** -/
theorem unique {e₁ m₁ e₂ m₂ : Nat} (h₁ : Widens e₁ m₁ e m) (h₂ : Widens e₂ m₂ e' m')
    (he : e = e') (hm : m = m') : e₁ = e₂ ∧ m₁ = m₂ := by
  -- the wider exponents of two classes are never the same
  cases h₁ with
  | zero => cases h₂ <;> omega
  | subnormal k d hk hd =>
    cases h₂ with
    | subnormal l c hl hc =>
      obtain rfl : k = l := by omega
      rw [Nat.eq_of_mul_eq_mul_right (Nat.two_pow_pos _) hm]
      exact ⟨rfl, rfl⟩
    | _ => omega
  | normal => cases h₂ <;> omega
  | top => cases h₂ <;> omega

end Widens

/-! ### The wider pattern -/

theorem toNat_widen (x : UInt64) : (widen x).toNat =
    quad.pattern (double.sign x.toNat) (widened x.toNat).1 (widened x.toNat).2 := by
  have hw := widens x.toNat
  have hs := sign_lt double x.toNat
  unfold widen
  generalize widened x.toNat = fields at hw ⊢
  obtain ⟨e, m⟩ := fields
  have he : e < 2 ^ quad.exponentWidth := hw.exponent_lt
  have hm : m < 2 ^ quad.fractionWidth := hw.fraction_lt
  have hlt : quad.pattern (double.sign x.toNat) e m < 2 ^ 128 := by
    rw [pattern_eq he hm]
    simp only [quad] at he hm ⊢
    omega
  rw [BitVec.toNat_ofNat]
  exact Nat.mod_eq_of_lt hlt

theorem sign_widen (x : UInt64) : quad.sign (widen x).toNat = double.sign x.toNat := by
  rw [toNat_widen]
  exact sign_pattern (widens x.toNat).exponent_lt (widens x.toNat).fraction_lt (sign_lt ..)

theorem exponent_widen (x : UInt64) : quad.exponent (widen x).toNat = (widened x.toNat).1 := by
  rw [toNat_widen]
  exact exponent_pattern (widens x.toNat).exponent_lt (widens x.toNat).fraction_lt

theorem fraction_widen (x : UInt64) : quad.fraction (widen x).toNat = (widened x.toNat).2 := by
  rw [toNat_widen]
  exact fraction_pattern (widens x.toNat).exponent_lt (widens x.toNat).fraction_lt

theorem number_widen (h : double.exponent x.toNat ≠ double.topExponent) :
    quad.number (widen x).toNat = double.number x.toNat := by
  rw [number, number, sign_widen, exponent_widen, fraction_widen,
    (widens x.toNat).magnitude_eq h]

theorem widen_injective : Function.Injective widen := by
  intro x y h
  have hs : double.sign x.toNat = double.sign y.toNat := by rw [← sign_widen, h, sign_widen]
  have he : (widened x.toNat).1 = (widened y.toNat).1 := by
    rw [← exponent_widen, h, exponent_widen]
  have hm : (widened x.toNat).2 = (widened y.toNat).2 := by
    rw [← fraction_widen, h, fraction_widen]
  obtain ⟨he, hm⟩ := (widens x.toNat).unique (widens y.toNat) he hm
  have hfields (z : UInt64) : double.pattern (double.sign z.toNat) (double.exponent z.toNat)
      (double.fraction z.toNat) = z.toNat := pattern_fields z.toNat_lt
  rw [← UInt64.toNat_inj, ← hfields x, ← hfields y, hs, he, hm]

/-- **Widening is exact.** The sign stays. A finite pattern becomes a finite one of the same number,
normal unless the number is zero. An infinity becomes an infinity, and a NaN a NaN whose fraction
starts with that of the old one. No two patterns become one. The three fields that are put together
have no bit in common and none beyond the 128, so the pattern is their sum. -/
theorem widen_exact :
    (∀ x : UInt64,
      quad.sign (widen x).toNat = double.sign x.toNat ∧
      (double.exponent x.toNat ≠ double.topExponent →
        quad.exponent (widen x).toNat ≠ quad.topExponent ∧
        quad.number (widen x).toNat = double.number x.toNat ∧
        (double.number x.toNat ≠ 0 → quad.exponent (widen x).toNat ≠ 0)) ∧
      (double.exponent x.toNat = double.topExponent ∧ double.fraction x.toNat = 0 →
        quad.exponent (widen x).toNat = quad.topExponent ∧ quad.fraction (widen x).toNat = 0) ∧
      (double.isNaN x.toNat = true → quad.isNaN (widen x).toNat = true ∧
        quad.fraction (widen x).toNat = double.fraction x.toNat <<< 60)) ∧
    Function.Injective widen ∧
    ∀ x : UInt64,
      let sign := double.sign x.toNat <<< 127
      let exponent := (widened x.toNat).1 <<< 112
      let fraction := (widened x.toNat).2
      sign &&& exponent = 0 ∧ sign &&& fraction = 0 ∧ exponent &&& fraction = 0 ∧
      (widen x).toNat = sign + exponent + fraction := by
  refine ⟨fun x => ⟨sign_widen x, fun h => ⟨?_, number_widen h, fun hne hzero => hne ?_⟩, ?_, ?_⟩,
    widen_injective, fun x => ?_⟩
  · rw [exponent_widen]
    exact (widens x.toNat).ne_top h
  · rw [exponent_widen] at hzero
    obtain ⟨he, hm⟩ := (widens x.toNat).of_exponent_zero hzero
    rw [number, magnitude, if_pos he, hm, Nat.cast_zero, zero_mul, mul_zero]
  · rintro ⟨he, hm⟩
    obtain ⟨htop, hmoved⟩ := (widens x.toNat).of_top he
    rw [exponent_widen, fraction_widen, hmoved, hm, Nat.zero_mul]
    exact ⟨htop, rfl⟩
  · intro h
    simp only [isNaN, Bool.and_eq_true, beq_iff_eq, bne_iff_ne] at h ⊢
    obtain ⟨htop, hmoved⟩ := (widens x.toNat).of_top h.1
    rw [exponent_widen, fraction_widen, hmoved, Nat.shiftLeft_eq]
    exact ⟨⟨htop, by omega⟩, rfl⟩
  · have he := (widens x.toNat).exponent_lt
    have hm := (widens x.toNat).fraction_lt
    have hexponent : (widened x.toNat).1 <<< 112 < 2 ^ 127 := by
      rw [Nat.shiftLeft_eq]
      omega
    refine ⟨shiftLeft_and_eq_zero hexponent, shiftLeft_and_eq_zero ?_, shiftLeft_and_eq_zero hm, ?_⟩
    · omega
    · have hsum : quad.pattern (double.sign x.toNat) (widened x.toNat).1 (widened x.toNat).2 =
          (double.sign x.toNat * 2 ^ 15 + (widened x.toNat).1) * 2 ^ 112 + (widened x.toNat).2 :=
        pattern_eq he hm
      rw [toNat_widen, hsum, Nat.shiftLeft_eq, Nat.shiftLeft_eq]
      omega

/-- The zero and the greatest subnormal below it, an infinity and a NaN. -/
theorem widen_exact_classes :
    quad.sign (widen 0x8000000000000000).toNat = 1 ∧
    quad.number (widen 0x8000000000000001).toNat = -2 ^ (-1074 : ℤ) ∧
    quad.exponent (widen 0x8000000000000001).toNat ≠ 0 ∧
    quad.fraction (widen 0xFFF0000000000000).toNat = 0 ∧
    quad.fraction (widen 0x7FF0000000000001).toNat = 1 <<< 60 := by
  have hnumber : double.number (0x8000000000000001 : UInt64).toNat = -2 ^ (-1074 : ℤ) := by
    have hsign : double.sign (0x8000000000000001 : UInt64).toNat = 1 := by decide
    have hexponent : double.exponent (0x8000000000000001 : UInt64).toNat = 0 := by decide
    have hfraction : double.fraction (0x8000000000000001 : UInt64).toNat = 1 := by decide
    have hplace : (1 - double.bias - double.fractionWidth : ℤ) = -1074 := rfl
    rw [number, magnitude, hsign, hexponent, hfraction, if_pos rfl, hplace]
    norm_num
  obtain ⟨hclasses, -, -⟩ := widen_exact
  obtain ⟨-, hsame, hnormal⟩ := (hclasses 0x8000000000000001).2.1 (by decide)
  have hne : double.number (0x8000000000000001 : UInt64).toNat ≠ 0 := by
    rw [hnumber]
    exact neg_ne_zero.mpr (zpow_ne_zero _ two_ne_zero)
  exact ⟨(hclasses 0x8000000000000000).1, hsame.trans hnumber, hnormal hne,
    ((hclasses 0xFFF0000000000000).2.2.1 (by decide)).2,
    ((hclasses 0x7FF0000000000001).2.2.2 (by decide)).2⟩

end TagFormat.Binary
