/-!
# Big-endian numbers

A number of a fixed width is written as that many bytes, most significant byte first. `encode`
takes the width and drops what does not fit into it; `decode` reads any number of bytes.
-/

namespace TagFormat

/-- A block of bytes. -/
abbrev Bytes := List UInt8

namespace BigEndian

/-- The lowest `width` bytes of `n`, most significant first. -/
def encode : (width : Nat) → (n : Nat) → Bytes
  | 0, _ => []
  | width + 1, n => encode width (n / 256) ++ [UInt8.ofNat n]

/-- The number that the bytes spell. -/
def decode (bytes : Bytes) : Nat :=
  bytes.foldl (fun n b => 256 * n + b.toNat) 0

/-- The fewest bytes that hold `n`, at least one. -/
def width (n : Nat) : Nat :=
  n.log2 / 8 + 1

@[simp] theorem length_encode (width n : Nat) : (encode width n).length = width := by
  induction width generalizing n with
  | zero => rfl
  | succ width ih => simp [encode, ih]

@[simp] theorem decode_nil : decode [] = 0 := rfl

@[simp] theorem decode_concat (bytes : Bytes) (b : UInt8) :
    decode (bytes ++ [b]) = 256 * decode bytes + b.toNat := by
  simp [decode]

end BigEndian

end TagFormat
