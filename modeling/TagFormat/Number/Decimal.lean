import TagFormat.Number.BigInt

/-!
# Decimal numbers

A `Decimal` is a mantissa of at most 96 bits with up to 28 digits after the point. A `BigDecimal`
is an integer of any length with any power of ten; it is turned into a `Decimal` where that can be
done without losing a digit. Nothing in this hangs on how the decimals are made, so it is done for
decimals of any make (`Decimals`), of which those here are one. Nor does it hang on what is done
along with each multiplication (`BigDecimal.convertWith`).
-/

namespace TagFormat

/-- The number `mantissa / 10 ^ scale`. -/
@[ext] structure Decimal where
  mantissa : Int
  /-- The number of digits after the point. -/
  scale : Nat
  mantissa_lt : mantissa.natAbs < 1 <<< 96
  scale_le : scale ≤ 28
deriving DecidableEq

namespace Decimal

/-- The decimal with the given parts, if they are in range. -/
def ofParts? (mantissa : Int) (scale : Nat) : Option Decimal :=
  if h : mantissa.natAbs < 1 <<< 96 ∧ scale ≤ 28 then some ⟨mantissa, scale, h.1, h.2⟩ else none

/-- Zero without digits after the point. -/
def zero : Decimal :=
  ⟨0, 0, by decide, by decide⟩

/-- The number with exactly `scale` digits after the point. -/
def text (d : Decimal) : String :=
  let digits := Nat.toDigits 10 d.mantissa.natAbs
  -- at least one digit stands before the point
  let padded := List.replicate (d.scale + 1 - digits.length) '0' ++ digits
  let whole := padded.take (padded.length - d.scale)
  let part := padded.drop (padded.length - d.scale)
  String.ofList ((if d.mantissa < 0 then ['-'] else []) ++ whole ++
    (if d.scale = 0 then [] else '.' :: part))

end Decimal

/-- Decimals of some make: how one is put together, and what it tells of its parts. -/
structure Decimals (D : Type) where
  /-- The number `mantissa / 10 ^ scale`, if there is one of this make. -/
  ofParts? : (mantissa : BitVec 128) → (scale : UInt32) → Option D
  zero : D
  mantissa : D → BitVec 128
  scale : D → UInt32

/-- The decimals above as a make. -/
def Decimal.make : Decimals Decimal where
  ofParts? mantissa scale := ofParts? mantissa.toInt scale.toNat
  zero := zero
  mantissa d := .ofInt 128 d.mantissa
  scale d := .ofNat d.scale

/-- The number `unscaled / 10 ^ scale`. -/
structure BigDecimal where
  unscaled : BigInt
  scale : Int32
deriving DecidableEq

namespace BigDecimal

/-- The number of bytes: those of the integer, and four for the scale. -/
def size (d : BigDecimal) : Nat :=
  d.unscaled.size + 4

/-- A scale below zero can go up by one. -/
theorem toInt_add_one {scale : Int32} (h : scale < 0) : (scale + 1).toInt = scale.toInt + 1 := by
  have hneg : scale.toInt < 0 := Int32.lt_iff_toInt_lt.mp h
  have hle := Int32.le_toInt scale
  have hone : (1 : Int32).toInt = 1 := rfl
  rw [Int32.toInt_add, hone]
  refine Int.bmod_eq_of_le ?_ ?_ <;> omega

variable {M : Type → Type} [Monad M] {D : Type}

/-- Multiplies by ten until the scale is no longer below zero, each time as `timesTen` does. -/
def raiseWith (timesTen : BitVec 128 → M (BitVec 128)) (mantissa : BitVec 128) (scale : Int32) :
    M (BitVec 128 × Int32) :=
  if scale < 0 then do raiseWith timesTen (← timesTen mantissa) (scale + 1)
  else return (mantissa, scale)
termination_by (-scale.toInt).toNat
decreasing_by
  have hneg : scale.toInt < 0 := Int32.lt_iff_toInt_lt.mp ‹scale < 0›
  rw [toInt_add_one ‹scale < 0›]
  omega

/-- The same number as a decimal of a make, where `lift` says what it is to have a result or none. A
zero keeps its digits after the point and drops those before it. -/
def convertWith (lift : {α : Type} → Option α → M α) (timesTen : BitVec 128 → M (BitVec 128))
    (make : Decimals D) (x : BigDecimal) : M D := do
  let mantissa ← lift x.unscaled.toInt?
  if mantissa = 0 ∧ x.scale < 0 then return make.zero
  -- ten to the 39th alone is more than 128 bits hold
  if x.scale < -38 then lift none
  else
    let (raised, scale) ← raiseWith timesTen (.ofInt 128 mantissa) x.scale
    lift (make.ofParts? raised scale.toUInt32)

/-- Ten times the number, if 128 bits hold the product. -/
def timesTen? (mantissa : BitVec 128) : Option (BitVec 128) :=
  if mantissa.smulOverflow 10 then none else some (mantissa * 10)

/-- The same number as a decimal of a make, if there is one. -/
def convert? (make : Decimals D) (x : BigDecimal) : Option D :=
  x.convertWith id timesTen? make

/-- The number that a decimal of a make is, in the shortest form of its mantissa. -/
def ofMake (make : Decimals D) (d : D) : BigDecimal where
  unscaled := .ofInt (make.mantissa d).toInt
  scale := (make.scale d).toInt32

@[simp] theorem unscaled_ofMake (make : Decimals D) (d : D) :
    (ofMake make d).unscaled = .ofInt (make.mantissa d).toInt := by
  rw [ofMake]

@[simp] theorem scale_ofMake (make : Decimals D) (d : D) :
    (ofMake make d).scale = (make.scale d).toInt32 := by
  rw [ofMake]

/-- The same number as a `Decimal`, if there is one. -/
def toDecimal? (x : BigDecimal) : Option Decimal :=
  x.convert? Decimal.make

/-- The same number, in the shortest form of its mantissa. -/
def ofDecimal (d : Decimal) : BigDecimal :=
  ofMake Decimal.make d

end BigDecimal

end TagFormat
