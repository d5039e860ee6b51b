import TagFormat.BigEndian

/-!
# Integers of any length

A `BigInt` is a block of bytes read as a two's-complement number, most significant byte first. The
bytes are kept as they are, so one number has many forms: leading bytes that only repeat the sign
are redundant, and `minimal` drops them.
-/

namespace TagFormat

/-- An integer in two's complement, of one byte or more. -/
@[ext] structure BigInt where
  bytes : Bytes
  bytes_ne_nil : bytes ≠ []
deriving DecidableEq

namespace BigInt

/-- The integer in the given bytes; no bytes stand for zero. -/
def ofBytes : Bytes → BigInt
  | [] => ⟨[0], by simp⟩
  | b :: bytes => ⟨b :: bytes, by simp⟩

instance : Inhabited BigInt := ⟨ofBytes []⟩

/-- Whether the first bit is set. -/
def isNegative (n : BigInt) : Bool :=
  0x80 ≤ n.bytes.headD 0

/-- The number of bytes. -/
def size (n : BigInt) : Nat :=
  n.bytes.length

/-- The bytes without those that only repeat the sign bit of the next. -/
def minimal : Bytes → Bytes
  | a :: b :: bytes =>
    if (a == 0 && b < 0x80) || (a == 0xFF && 0x80 ≤ b) then minimal (b :: bytes)
    else a :: b :: bytes
  | bytes => bytes

/-- The bytes filled up with the sign to `width` bytes. -/
def signExtend (negative : Bool) (width : Nat) (bytes : Bytes) : Bytes :=
  List.replicate (width - bytes.length) (if negative then 0xFF else 0) ++ bytes

/-- The number, if 16 bytes hold it. -/
def toInt? (n : BigInt) : Option Int :=
  let bytes := minimal n.bytes
  if bytes.length ≤ 16 then
    some (BitVec.ofNat 128 (BigEndian.decode (signExtend n.isNegative 16 bytes))).toInt
  else none

/-- The shortest form of a number of up to 16 bytes. -/
def ofInt (n : Int) : BigInt :=
  ofBytes (minimal (BigEndian.encode 16 (BitVec.ofInt 128 n).toNat))

example : (ofInt (-129)).bytes = [0xFF, 0x7F] := by decide

example : (ofBytes [0xFF, 0xFF, 0x7F]).toInt? = some (-129) := by decide

end BigInt

end TagFormat
