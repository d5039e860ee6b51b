/-!
# Binary floating-point numbers

Floating-point numbers as bit patterns: a sign, an exponent and a fraction. `Binary.equal` is
numeric equality, under which a NaN differs from itself and the two zeros are equal. `widen` turns
a 64-bit pattern into the 128-bit pattern of the same number.
-/

namespace TagFormat

/-- The widths of the fields of a binary format. -/
structure Binary where
  exponentWidth : Nat
  fractionWidth : Nat
deriving DecidableEq

namespace Binary

/-- The format of 32 bits. -/
def single : Binary := ⟨8, 23⟩

/-- The format of 64 bits. -/
def double : Binary := ⟨11, 52⟩

/-- The format of 128 bits. -/
def quad : Binary := ⟨15, 112⟩

/-- The sign bit of a pattern. -/
def sign (f : Binary) (bits : Nat) : Nat :=
  (bits >>> (f.exponentWidth + f.fractionWidth)) % 2

/-- The exponent field of a pattern. -/
def exponent (f : Binary) (bits : Nat) : Nat :=
  (bits >>> f.fractionWidth) % (1 <<< f.exponentWidth)

/-- The fraction field of a pattern. -/
def fraction (f : Binary) (bits : Nat) : Nat :=
  bits % (1 <<< f.fractionWidth)

/-- The exponent field of infinities and NaNs. -/
def topExponent (f : Binary) : Nat :=
  (1 <<< f.exponentWidth) - 1

/-- The exponent field of the numbers from one up to two. -/
def bias (f : Binary) : Nat :=
  (1 <<< (f.exponentWidth - 1)) - 1

/-- Whether the pattern is no number. -/
def isNaN (f : Binary) (bits : Nat) : Bool :=
  f.exponent bits == f.topExponent && f.fraction bits != 0

/-- Whether the pattern is a zero of either sign. -/
def isZero (f : Binary) (bits : Nat) : Bool :=
  f.exponent bits == 0 && f.fraction bits == 0

/-- Whether two patterns are the same number. -/
def equal (f : Binary) (a b : Nat) : Bool :=
  !f.isNaN a && !f.isNaN b && (a == b || f.isZero a && f.isZero b)

/-- The exponent and the fraction that stand for a 64-bit pattern among 128-bit patterns. A subnormal
becomes normal: its fraction moves up until its first bit leaves it, and the exponent goes down by
as much. -/
def widened (bits : Nat) : Nat × Nat :=
  let fraction := double.fraction bits
  let rebias := quad.bias - double.bias
  let (exponent, fraction) :=
    match double.exponent bits with
    | 0 =>
      if fraction = 0 then (0, 0)
      else
        let shift := 51 - fraction.log2
        (rebias - shift, double.fraction (fraction <<< (shift + 1)))
    | exponent =>
      if exponent = double.topExponent then (quad.topExponent, fraction)
      else (exponent + rebias, fraction)
  (exponent, fraction <<< 60)

/-- The 128-bit pattern of the number with the given 64-bit pattern. -/
def widen (bits : UInt64) : BitVec 128 :=
  let (exponent, fraction) := widened bits.toNat
  BitVec.ofNat 128 (double.sign bits.toNat <<< 127 ||| exponent <<< 112 ||| fraction)

example : widen 0x3FF8000000000000 = 0x3FFF8000000000000000000000000000 := by decide

example : widen 1 = 0x3BCD0000000000000000000000000000 := by decide

end Binary

end TagFormat
