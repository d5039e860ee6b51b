import Mathlib.Algebra.Order.Field.Rat
import TagFormat.Number.Decimal
import TagFormat.Proofs.Number.BigInt

/-! # Decimals without loss

Raising the scale to zero multiplies the mantissa by ten as often as the scale is below zero. The
products only grow, so if the last of them fits into 128 bits, all do, and the loop on words comes
to the product in integers or stops (`raise?_eq_some_iff`). A scale below -38 is given up at once,
since ten to the 39th alone is too much. So there is a decimal exactly where the parts are in range,
and it is the same number (`convert_exact`). The same conversion, with a note of each word that is
multiplied (`traced`), comes to the same result; the words are the exact products so far, 38 of them
at most (`exists_traced_eq`). -/

namespace TagFormat

open BigInt (Holds holds_iff holds_toInt toInt?_eq toInt_ofInt value_ofInt)

variable {D : Type}

/-! ### What is known of a make -/

/-- The number that a decimal is. -/
def Decimals.value (make : Decimals D) (d : D) : ℚ :=
  (make.mantissa d).toInt / 10 ^ (make.scale d).toNat

/-- What is documented of a make: parts make a decimal exactly if the mantissa takes no more than 96
bits and no more than 28 digits stand after the point, the decimal tells these parts again, those
that any decimal tells are in range, and zero is zero. -/
structure Decimals.Documented (make : Decimals D) : Prop where
  isSome_ofParts? : ∀ mantissa scale, (make.ofParts? mantissa scale).isSome ↔
    mantissa.toInt.natAbs < 2 ^ 96 ∧ scale.toNat ≤ 28
  parts : ∀ mantissa scale d, make.ofParts? mantissa scale = some d →
    make.mantissa d = mantissa ∧ make.scale d = scale
  range : ∀ d, (make.mantissa d).toInt.natAbs < 2 ^ 96 ∧ (make.scale d).toNat ≤ 28
  mantissa_zero : make.mantissa make.zero = 0

namespace BigDecimal

/-! ### Raising the scale -/

section Raising

variable {m r : BitVec 128} {s t : Int32}

/-- The loop that stops where 128 bits do not hold the product. -/
def raise? : BitVec 128 → Int32 → Option (BitVec 128 × Int32) :=
  raiseWith timesTen?

theorem raise?_of_neg (h : s < 0) :
    raise? m s = (timesTen? m).bind fun m' => raise? m' (s + 1) := by
  rw [raise?, raiseWith, if_pos h]
  rfl

theorem raise?_of_not_neg (h : ¬s < 0) : raise? m s = some (m, s) := by
  rw [raise?, raiseWith, if_neg h]
  rfl

theorem timesTen?_eq_some_iff : timesTen? m = some r ↔ r.toInt = m.toInt * 10 := by
  have hten : (10 : BitVec 128).toInt = 10 := rfl
  unfold timesTen?
  split_ifs with hover
  · rw [BitVec.smulOverflow, hten, Bool.or_eq_true, decide_eq_true_iff, decide_eq_true_iff] at hover
    have hheld := holds_iff.mp (holds_toInt r)
    refine iff_of_false (by simp) fun hr => ?_
    rw [hr] at hheld
    omega
  · have hmul : (m * 10).toInt = m.toInt * 10 := BitVec.toInt_mul_of_not_smulOverflow hover
    rw [Option.some.injEq, ← hmul, BitVec.toInt_inj, eq_comm]

/-- One factor of ten fewer is left for the next scale. -/
theorem mul_pow_of_neg (h : s < 0) (n : Int) :
    n * 10 ^ (-s.toInt).toNat = n * 10 * 10 ^ (-(s + 1).toInt).toNat := by
  have hneg : s.toInt < 0 := Int32.lt_iff_toInt_lt.mp h
  have hrounds : (-s.toInt).toNat = (-(s + 1).toInt).toNat + 1 := by
    rw [toInt_add_one h]
    omega
  rw [hrounds, pow_succ', mul_assoc]

/-- **The loop comes to the product in integers**, or stops if 128 bits do not hold it. -/
theorem raise?_eq_some_iff : raise? m s = some (r, t) ↔
    r.toInt = m.toInt * 10 ^ (-s.toInt).toNat ∧ t.toInt = max s.toInt 0 := by
  induction m, s using raiseWith.induct with
  | case1 m s hs ih =>
    have hneg : s.toInt < 0 := Int32.lt_iff_toInt_lt.mp hs
    have hmax : max (s + 1).toInt 0 = max s.toInt 0 := by
      rw [toInt_add_one hs]
      omega
    rw [raise?_of_neg hs, Option.bind_eq_some_iff, mul_pow_of_neg hs, ← hmax]
    constructor
    · rintro ⟨m', hm', hr⟩
      rw [← timesTen?_eq_some_iff.mp hm']
      exact (ih m').mp hr
    · rintro ⟨hr, ht⟩
      -- a word holds the last product, and so one holds the first
      have hlast := holds_toInt r
      rw [hr] at hlast
      have hfirst := toInt_ofInt hlast.of_mul_pow
      rw [← hfirst] at hr
      exact ⟨_, timesTen?_eq_some_iff.mpr hfirst, (ih _).mpr ⟨hr, ht⟩⟩
  | case2 m s hs =>
    have hle : 0 ≤ s.toInt := Int32.le_iff_toInt_le.mp (Int32.not_lt.mp hs)
    have hrounds : (-s.toInt).toNat = 0 := by omega
    rw [raise?_of_not_neg hs, Option.some.injEq, Prod.mk.injEq, hrounds, pow_zero, mul_one,
      max_eq_left hle, BitVec.toInt_inj, Int32.toInt_inj, eq_comm, eq_comm (a := s)]

/-- Where 128 bits hold the product, the loop comes to it. -/
theorem exists_raise?_eq_some (h : Holds 15 (m.toInt * 10 ^ (-s.toInt).toNat)) :
    ∃ t, raise? m s = some (.ofInt 128 (m.toInt * 10 ^ (-s.toInt).toNat), t) ∧
      t.toInt = max s.toInt 0 := by
  obtain ⟨t, ht⟩ : ∃ t : Int32, t.toInt = max s.toInt 0 := by
    rcases le_total 0 s.toInt with hs | hs
    · exact ⟨s, (max_eq_left hs).symm⟩
    · exact ⟨0, (max_eq_right hs).symm⟩
  exact ⟨t, raise?_eq_some_iff.mpr ⟨toInt_ofInt h, ht⟩, ht⟩

theorem toNat_toUInt32 {k : Int} (h : t.toInt = max k 0) : (t.toUInt32.toNat : Int) = max k 0 := by
  have hpos : 0 ≤ t.toInt := h ▸ le_max_right k 0
  rw [Int32.toNat_toUInt32_of_le (Int32.le_iff_toInt_le.mpr hpos), ← h]
  exact Int.toNat_of_nonneg hpos

/-- A number other than zero, times ten to the 39th, is more than 128 bits hold. -/
theorem not_holds_mul_pow {n : Int} (hn : n ≠ 0) (j : Nat) : ¬Holds 15 (n * 10 ^ (39 + j)) := by
  intro h
  rw [pow_add, ← mul_assoc] at h
  obtain ⟨hlow, hhigh⟩ := holds_iff.mp h.of_mul_pow
  omega

/-- **What is given up at once** would not come out of the loop either. -/
theorem raise?_of_lt {m : BitVec 128} {s : Int32} (hm : m.toInt ≠ 0) (hs : s < -38) :
    raise? m s = none := by
  have hlow : s.toInt < -38 := Int32.lt_iff_toInt_lt.mp hs
  obtain ⟨j, hj⟩ : ∃ j, (-s.toInt).toNat = 39 + j := ⟨(-s.toInt).toNat - 39, by omega⟩
  rw [Option.eq_none_iff_forall_not_mem]
  rintro ⟨r, t⟩ hr
  have hlast := holds_toInt r
  rw [(raise?_eq_some_iff.mp hr).1, hj] at hlast
  exact not_holds_mul_pow hm j hlast

end Raising

/-! ### The whole conversion -/

section Converting

variable {make : Decimals D} {x : BigDecimal} {u : Int} (hx : BigInt.value x.unscaled.bytes = u)

include hx

theorem convert?_of_not_holds (h : ¬Holds 15 u) : x.convert? make = none := by
  rw [convert?, convertWith, toInt?_eq, hx, if_neg h]
  rfl

theorem convert?_of_zero (hu : u = 0) (hk : x.scale < 0) : x.convert? make = some make.zero := by
  have hholds : Holds 15 u := by
    rw [hu]
    decide
  rw [convert?, convertWith, toInt?_eq, hx, if_pos hholds]
  exact if_pos ⟨hu, hk⟩

/-- Unless the number is zero or takes more than 128 bits, the loop decides. -/
theorem convert?_of_holds (h : Holds 15 u) (hu : ¬(u = 0 ∧ x.scale < 0)) :
    x.convert? make = (raise? (.ofInt 128 u) x.scale).bind
      fun (raised, scale) => make.ofParts? raised scale.toUInt32 := by
  rw [convert?, convertWith, toInt?_eq, hx, if_pos h]
  change (if u = 0 ∧ x.scale < 0 then some make.zero else if x.scale < -38 then none else _) = _
  rw [if_neg hu]
  split_ifs with hlow
  · have hneg : x.scale < 0 := Int32.lt_trans hlow (by decide)
    have hne : (BitVec.ofInt 128 u).toInt ≠ 0 := by
      rw [toInt_ofInt h]
      exact fun hzero => hu ⟨hzero, hneg⟩
    rw [raise?_of_lt hne hlow, Option.bind_none]
  · rfl

/-- **The parts of a decimal that comes out**: the product, and the scale raised to zero. -/
theorem exists_parts (h : make.Documented) {d : D} (hholds : Holds 15 u)
    (hu : ¬(u = 0 ∧ x.scale < 0)) (hd : x.convert? make = some d) :
    (make.mantissa d).toInt = u * 10 ^ (-x.scale.toInt).toNat ∧
      ((make.scale d).toNat : Int) = max x.scale.toInt 0 := by
  rw [convert?_of_holds hx hholds hu] at hd
  obtain ⟨⟨r, t⟩, hraise, hparts⟩ := Option.bind_eq_some_iff.mp hd
  obtain ⟨hr, ht⟩ := raise?_eq_some_iff.mp hraise
  rw [toInt_ofInt hholds] at hr
  obtain ⟨hm, hs⟩ := h.parts _ _ _ hparts
  rw [hm, hs]
  exact ⟨hr, toNat_toUInt32 ht⟩

theorem isSome_convert?_of_holds (h : make.Documented) (hholds : Holds 15 u)
    (hu : ¬(u = 0 ∧ x.scale < 0)) : (x.convert? make).isSome ↔
      (u * 10 ^ (-x.scale.toInt).toNat).natAbs < 2 ^ 96 ∧ x.scale.toInt ≤ 28 := by
  constructor
  · intro hsome
    obtain ⟨d, hd⟩ := Option.isSome_iff_exists.mp hsome
    obtain ⟨hm, hs⟩ := exists_parts hx h hholds hu hd
    obtain ⟨hlt, hle⟩ := h.range d
    rw [hm] at hlt
    exact ⟨hlt, by omega⟩
  · rintro ⟨hlt, hle⟩
    have hproduct : Holds 15 (u * 10 ^ (-x.scale.toInt).toNat) := holds_iff.mpr (by omega)
    rw [← toInt_ofInt hholds] at hlt hproduct
    obtain ⟨t, hraise, ht⟩ := exists_raise?_eq_some hproduct
    have hscale := toNat_toUInt32 ht
    rw [convert?_of_holds hx hholds hu, hraise, Option.bind_some, h.isSome_ofParts?,
      toInt_ofInt hproduct]
    exact ⟨hlt, by omega⟩

/-- **There is a decimal** exactly if the number is zero, or if it takes no more than 96 bits once
its scale is raised to zero, and no more than 28 digits stand after the point. -/
theorem isSome_convert?_iff (h : make.Documented) : (x.convert? make).isSome ↔ Holds 15 u ∧
    (u = 0 ∧ x.scale.toInt < 0 ∨
      x.scale.toInt < 0 ∧ u.natAbs * 10 ^ (-x.scale.toInt).toNat < 2 ^ 96 ∨
      0 ≤ x.scale.toInt ∧ x.scale.toInt ≤ 28 ∧ u.natAbs < 2 ^ 96) := by
  have hneg : x.scale < 0 ↔ x.scale.toInt < 0 := Int32.lt_iff_toInt_lt
  by_cases hholds : Holds 15 u
  · by_cases hzero : u = 0 ∧ x.scale < 0
    · rw [convert?_of_zero hx hzero.1 hzero.2]
      exact iff_of_true rfl ⟨hholds, .inl ⟨hzero.1, hneg.mp hzero.2⟩⟩
    · have hten : (10 : Int).natAbs = 10 := rfl
      rw [isSome_convert?_of_holds hx h hholds hzero, Int.natAbs_mul, Int.natAbs_pow, hten,
        and_iff_right hholds]
      rw [hneg] at hzero
      rcases lt_or_ge x.scale.toInt 0 with hlt | hge
      · constructor
        · exact fun hfit => .inr (.inl ⟨hlt, hfit.1⟩)
        · rintro (hboth | ⟨-, hfit⟩ | ⟨hge, -⟩)
          · exact absurd hboth hzero
          · exact ⟨hfit, by omega⟩
          · omega
      · have hrounds : (-x.scale.toInt).toNat = 0 := by omega
        rw [hrounds, pow_zero, mul_one]
        omega
  · rw [convert?_of_not_holds hx hholds]
    exact iff_of_false (by simp) (fun hand => hholds hand.1)

/-- **No digit is lost.** -/
theorem value_of_convert? (h : make.Documented) {d : D} (hd : x.convert? make = some d) :
    make.value d = u * 10 ^ (-x.scale.toInt) := by
  by_cases hholds : Holds 15 u
  · by_cases hzero : u = 0 ∧ x.scale < 0
    · rw [convert?_of_zero hx hzero.1 hzero.2] at hd
      obtain rfl := Option.some.inj hd
      rw [Decimals.value, h.mantissa_zero, hzero.1]
      simp
    · obtain ⟨hm, hs⟩ := exists_parts hx h hholds hzero hd
      rw [Decimals.value, hm]
      rcases le_total 0 x.scale.toInt with hk | hk
      · obtain ⟨j, hj⟩ := Int.eq_ofNat_of_zero_le hk
        have hrounds : (-x.scale.toInt).toNat = 0 := by omega
        have hscale : (make.scale d).toNat = j := by omega
        rw [hrounds, hscale, hj, pow_zero, mul_one, zpow_neg, zpow_natCast, div_eq_mul_inv]
      · obtain ⟨j, hj⟩ := Int.eq_ofNat_of_zero_le (Int.neg_nonneg.mpr hk)
        have hscale : (make.scale d).toNat = 0 := by omega
        rw [hscale, hj, Int.toNat_natCast, pow_zero, div_one, zpow_natCast]
        push_cast
        rfl
  · rw [convert?_of_not_holds hx hholds] at hd
    cases hd

end Converting

/-! ### The rounds of the loop -/

/-- A run that notes words, of which some may have been noted before. -/
abbrev Noting : Type → Type :=
  OptionT (StateM (List (BitVec 128)))

/-- Ten times the number, if 128 bits hold the product, with a note that it was multiplied. -/
def timesTenNoted (mantissa : BitVec 128) : Noting (BitVec 128) := do
  modify (· ++ [mantissa])
  OptionT.mk (pure (timesTen? mantissa))

/-- The conversion with the words that its rounds multiply. -/
def traced (make : Decimals D) (x : BigDecimal) : List (BitVec 128) × Option D :=
  ((x.convertWith (fun found => OptionT.mk (pure found)) timesTenNoted make).run.run []).swap

/-- The words are a number times one, ten, a hundred and so on, without loss, and no more of them than
`most`. -/
structure Products (n : Int) (most : Nat) (words : List (BitVec 128)) : Prop where
  length_le : words.length ≤ most
  toInt_eq : ∀ i w, words[i]? = some w → w.toInt = n * 10 ^ i

theorem products_nil (n : Int) (most : Nat) : Products n most [] :=
  ⟨Nat.zero_le most, fun _ _ h => absurd h (by simp)⟩

theorem Products.cons {m : BitVec 128} {most : Nat} {words : List (BitVec 128)}
    (h : Products (m.toInt * 10) most words) : Products m.toInt (most + 1) (m :: words) where
  length_le := Nat.succ_le_succ h.length_le
  toInt_eq i w hw := by
    cases i with
    | zero =>
      obtain rfl : m = w := Option.some.inj hw
      rw [pow_zero, mul_one]
    | succ i => rw [h.toInt_eq i w hw, pow_succ', mul_assoc]

/-- **The loop notes the products so far**, no more of them than the scale is below zero, and comes
to the same result. -/
theorem run_raiseWith (m : BitVec 128) (s : Int32) (noted : List (BitVec 128)) :
    ∃ words, (raiseWith timesTenNoted m s).run.run noted = (raise? m s, noted ++ words) ∧
      Products m.toInt (-s.toInt).toNat words := by
  induction m, s using raiseWith.induct generalizing noted with
  | case1 m s hs ih =>
    have hneg : s.toInt < 0 := Int32.lt_iff_toInt_lt.mp hs
    have hrounds : (-s.toInt).toNat = (-(s + 1).toInt).toNat + 1 := by
      rw [toInt_add_one hs]
      omega
    have hstep : (raiseWith timesTenNoted m s).run.run noted =
        match timesTen? m with
        | none => (none, noted ++ [m])
        | some m' => (raiseWith timesTenNoted m' (s + 1)).run.run (noted ++ [m]) := by
      have htimes : (timesTenNoted m).run.run noted = (timesTen? m, noted ++ [m]) := rfl
      rw [raiseWith, if_pos hs, OptionT.run_bind, Option.elimM, StateT.run_bind, htimes]
      cases timesTen? m <;> rfl
    rw [hstep, raise?_of_neg hs, hrounds]
    cases hm : timesTen? m with
    | none => exact ⟨[m], rfl, (products_nil _ _).cons⟩
    | some m' =>
      obtain ⟨words, hrun, hwords⟩ := ih m' (noted ++ [m])
      rw [timesTen?_eq_some_iff.mp hm] at hwords
      refine ⟨m :: words, ?_, hwords.cons⟩
      simp only [hrun, Option.bind_some, List.append_assoc, List.singleton_append]
  | case2 m s hs =>
    rw [raiseWith, if_neg hs, raise?_of_not_neg hs]
    refine ⟨[], ?_, products_nil _ _⟩
    rw [List.append_nil]
    rfl

/-- **The conversion notes the products so far**, 38 of them at most, and comes to the same result. -/
theorem exists_traced_eq (make : Decimals D) (x : BigDecimal) :
    ∃ words, x.traced make = (words, x.convert? make) ∧
      Products (BigInt.value x.unscaled.bytes) 38 words := by
  unfold traced convert? convertWith
  rw [toInt?_eq]
  by_cases hholds : Holds 15 (BigInt.value x.unscaled.bytes)
  · rw [if_pos hholds]
    simp only [OptionT.run_bind, Option.elimM, OptionT.run_mk, pure_bind, Option.elim_some, id_eq,
      Option.bind_eq_bind, Option.bind_some]
    split_ifs with hzero hlow
    · exact ⟨[], rfl, products_nil _ _⟩
    · exact ⟨[], rfl, products_nil _ _⟩
    · have hscale : -38 ≤ x.scale.toInt := Int32.le_iff_toInt_le.mp (Int32.not_lt.mp hlow)
      obtain ⟨words, hrun, hwords⟩ :=
        run_raiseWith (.ofInt 128 (BigInt.value x.unscaled.bytes)) x.scale []
      rw [toInt_ofInt hholds] at hwords
      refine ⟨words, ?_, hwords.length_le.trans (by omega), hwords.toInt_eq⟩
      rw [OptionT.run_bind, Option.elimM, StateT.run_bind, hrun]
      change _ = (words, (raise? _ x.scale).bind _)
      cases raise? (.ofInt 128 (BigInt.value x.unscaled.bytes)) x.scale <;> rfl
  · rw [if_neg hholds]
    exact ⟨[], rfl, products_nil _ _⟩

/-! ### Back again -/

theorem toInt_toInt32 {s : UInt32} (h : s.toNat ≤ 28) : s.toInt32.toInt = s.toNat :=
  BitVec.toInt_eq_toNat_of_lt (x := s.toBitVec) (by
    change 2 * s.toNat < 2 ^ 32
    omega)

/-- A number with the parts of a decimal comes to a decimal with these parts. -/
theorem exists_convert?_eq_some {make : Decimals D} (h : make.Documented) {x : BigDecimal} {d : D}
    (hx : BigInt.value x.unscaled.bytes = (make.mantissa d).toInt)
    (hscale : x.scale.toInt = (make.scale d).toNat) : ∃ e, x.convert? make = some e ∧
      make.mantissa e = make.mantissa d ∧ make.scale e = make.scale d := by
  obtain ⟨hlt, hle⟩ := h.range d
  have hholds := holds_toInt (make.mantissa d)
  have hrounds : (-x.scale.toInt).toNat = 0 := by omega
  have hpos : ¬((make.mantissa d).toInt = 0 ∧ x.scale < 0) := by
    rw [Int32.lt_iff_toInt_lt, hscale]
    exact fun hzero => Int.not_lt.mpr (Int.natCast_nonneg _) hzero.2
  have hsome := isSome_convert?_of_holds hx h hholds hpos
  rw [hrounds, pow_zero, mul_one] at hsome
  obtain ⟨e, he⟩ := Option.isSome_iff_exists.mp (hsome.mpr ⟨hlt, by omega⟩)
  obtain ⟨hm, hs⟩ := exists_parts hx h hholds hpos he
  rw [hrounds, pow_zero, mul_one] at hm
  exact ⟨e, he, BitVec.toInt_inj.mp hm, UInt32.toNat_inj.mp (by omega)⟩

/-- **A decimal comes back with its parts.** -/
theorem exists_convert?_ofMake {make : Decimals D} (h : make.Documented) (d : D) :
    ∃ e, (ofMake make d).convert? make = some e ∧
      make.mantissa e = make.mantissa d ∧ make.scale e = make.scale d := by
  refine exists_convert?_eq_some h ?_ ?_
  · rw [unscaled_ofMake, value_ofInt (holds_toInt _)]
  · rw [scale_ofMake, toInt_toInt32 (h.range d).2]

end BigDecimal

/-! ### The decimals here -/

namespace Decimal

theorem toInt_mantissa_make (d : Decimal) : (make.mantissa d).toInt = d.mantissa := by
  have hlt : d.mantissa.natAbs < 2 ^ 96 := d.mantissa_lt
  exact toInt_ofInt (holds_iff.mpr (by omega))

theorem toNat_scale_make (d : Decimal) : (make.scale d).toNat = d.scale := by
  have hle := d.scale_le
  refine UInt32.toNat_ofNat_of_lt' ?_
  change d.scale < 2 ^ 32
  omega

theorem documented_make : make.Documented where
  isSome_ofParts? mantissa scale := by
    change (ofParts? mantissa.toInt scale.toNat).isSome ↔ _
    unfold ofParts?
    split_ifs with hparts
    · exact iff_of_true rfl hparts
    · exact iff_of_false (by simp) hparts
  parts mantissa scale d h := by
    change ofParts? mantissa.toInt scale.toNat = some d at h
    unfold ofParts? at h
    split_ifs at h
    obtain rfl := Option.some.inj h
    exact ⟨BitVec.ofInt_toInt, UInt32.ofNat_toNat⟩
  range d := by
    rw [toInt_mantissa_make, toNat_scale_make]
    exact ⟨d.mantissa_lt, d.scale_le⟩
  mantissa_zero := rfl

end Decimal

namespace BigDecimal

open Decimal (documented_make toInt_mantissa_make toNat_scale_make)

/-- The parts tell one of the decimals here from all others. -/
theorem toDecimal?_ofDecimal (d : Decimal) : (ofDecimal d).toDecimal? = some d := by
  obtain ⟨e, he, hm, hs⟩ := exists_convert?_ofMake documented_make d
  have hmantissa : e.mantissa = d.mantissa := by
    rw [← toInt_mantissa_make, hm, toInt_mantissa_make]
  have hscale : e.scale = d.scale := by rw [← toNat_scale_make, hs, toNat_scale_make]
  rw [toDecimal?, ofDecimal, he, Decimal.ext hmantissa hscale]

/-- **Conversion to decimals loses nothing and gives up only where it must**, for decimals of any
make. A number of any length and scale comes to the decimal that is exactly the same number. It does
so exactly if it is a number of 128 bits and either zero with a scale below zero, or within 96 bits
once the scale is raised to zero, or within 96 bits with at most 28 digits after the point. However
far below zero the scale is, the loop that multiplies runs at most 38 times, and each word that it
multiplies is the exact product so far. A decimal that is turned into a number of this kind comes
back with its mantissa and its scale, and one of those here comes back as it is. -/
theorem convert_exact {make : Decimals D} (h : make.Documented) :
    (∀ x : BigDecimal,
      let u := BigInt.value x.unscaled.bytes
      let k := x.scale.toInt
      (∀ d, x.convert? make = some d → make.value d = u * 10 ^ (-k)) ∧
      ((x.convert? make).isSome ↔ (-2 ^ 127 ≤ u ∧ u < 2 ^ 127) ∧
        (u = 0 ∧ k < 0 ∨ k < 0 ∧ u.natAbs * 10 ^ (-k).toNat < 2 ^ 96 ∨
          0 ≤ k ∧ k ≤ 28 ∧ u.natAbs < 2 ^ 96)) ∧
      (x.traced make).2 = x.convert? make ∧
      (x.traced make).1.length ≤ 38 ∧
      ∀ i w, (x.traced make).1[i]? = some w → w.toInt = u * 10 ^ i) ∧
    (∀ d, ∃ e, (ofMake make d).convert? make = some e ∧
      make.mantissa e = make.mantissa d ∧ make.scale e = make.scale d) ∧
    ∀ d : Decimal, (ofDecimal d).toDecimal? = some d := by
  refine ⟨fun x => ⟨fun d hd => value_of_convert? rfl h hd, ?_, ?_⟩,
    exists_convert?_ofMake h, toDecimal?_ofDecimal⟩
  · rw [isSome_convert?_iff rfl h, holds_iff]
  · obtain ⟨words, htraced, hwords⟩ := exists_traced_eq make x
    rw [htraced]
    exact ⟨rfl, hwords.length_le, hwords.toInt_eq⟩

/-- Minus five and eight with 28 zeros: 96 bits hold the first and not the second. -/
theorem convert_exact_edges :
    let five : BigDecimal := ⟨.ofBytes [0xFF, 0xFF, 0xFB], -28⟩
    let eight : BigDecimal := ⟨.ofBytes [8], -28⟩
    Decimal.make.Documented ∧
    (∃ d, five.toDecimal? = some d ∧ Decimal.make.value d = -5 * 10 ^ (28 : Int)) ∧
    eight.toDecimal? = none := by
  intro five eight
  obtain ⟨hvalue, hfive, -⟩ := (convert_exact documented_make).1 five
  obtain ⟨-, height, -⟩ := (convert_exact documented_make).1 eight
  obtain ⟨d, hd⟩ := Option.isSome_iff_exists.mp (hfive.mpr (by decide))
  refine ⟨documented_make, ⟨d, hd, ?_⟩, ?_⟩
  · have hu : BigInt.value five.unscaled.bytes = -5 := by decide
    have hk : five.scale.toInt = -28 := by decide
    rw [hvalue d hd, hu, hk]
    norm_num
  · exact Option.not_isSome_iff_eq_none.mp (fun hsome => absurd (height.mp hsome) (by decide))

end BigDecimal

end TagFormat
