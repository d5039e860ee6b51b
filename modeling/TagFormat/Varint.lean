import TagFormat.BigEndian
import TagFormat.Error

/-!
# Variable-length numbers

A number below `0xF8` is one byte. A larger one is a header, which tells the length of a body, and
the body: the number less `0xF8`, big-endian, in as few bytes as hold it, one to eight. So each
64-bit number has exactly one encoding, of one to nine bytes. Signed numbers take the same form
through `zigzag`, which alternates between the signs so that small magnitudes stay short.
-/

namespace TagFormat.Varint

/-- The least number that takes more than one byte, and the header of the shortest body. -/
def base : Nat := 0xF8

/-- The length of the encoding of `n`. -/
def sizeOfNat (n : Nat) : Nat :=
  if n < base then 1 else 1 + BigEndian.width (n - base)

/-- The encoding of `n`. -/
def encodeNat (n : Nat) : Bytes :=
  if n < base then [UInt8.ofNat n]
  else
    let width := BigEndian.width (n - base)
    UInt8.ofNat (base + (width - 1)) :: BigEndian.encode width (n - base)

/-- The length of the encoding of a number. -/
def encodedSize (v : UInt64) : Nat :=
  sizeOfNat v.toNat

/-- The encoding of a number. -/
def encode (v : UInt64) : Bytes :=
  encodeNat v.toNat

/-- The length of the body that a header announces; a number of one byte has none. -/
def bodyLength (header : UInt8) : Nat :=
  header.toNat + 1 - base

/-- The length of the encoding that starts with `header`. -/
def sizeOfHeader (header : UInt8) : Nat :=
  1 + bodyLength header

/-- The number that a body of one to eight bytes spells. It is refused if it takes more than 64
bits, or if its encoding has another length than this body. -/
def decodeBody (body : Bytes) : Except TagError UInt64 :=
  let n := BigEndian.decode body + base
  if body = [] ∨ 8 < body.length then
    .error (.invalidVarint body.length "body must be 1 to 8 bytes long")
  else if UInt64.size ≤ n then .error (.varintOverflow "u64")
  else if sizeOfNat n ≠ body.length + 1 then
    .error (.invalidVarint body.length "non-minimal encoding")
  else .ok (UInt64.ofNat n)

/-- The number at the start of the bytes, and the length of its encoding. -/
def decode : Bytes → Except TagError (UInt64 × Nat)
  | [] => .error (.unexpectedEnd 1 0)
  | header :: rest =>
    let length := bodyLength header
    if rest.length < length then .error (.unexpectedEnd (1 + length) (1 + rest.length))
    else if length = 0 then .ok (header.toUInt64, 1)
    else (decodeBody (rest.take length)).map (·, 1 + length)

/-! ### Encoding over bytes that are there -/

/-- The length of the longest encodings. -/
def maxSize : Nat := 9

/-- Copies `part` over the bytes of `out` from `place` on. -/
def overlay (part : Bytes) (place : Nat) (out : Bytes) : Bytes :=
  out.take place ++ part ++ out.drop (place + part.length)

/-- Writes an encoding of `size` bytes over `out`, which has as many. The body is cut out of the
number in its full width. -/
def overwrite (v : UInt64) (size : Nat) (out : Bytes) : Bytes :=
  if size = 1 then overlay [v.toUInt8] 0 out
  else
    let header := UInt8.ofNat base + UInt8.ofNat (size - 2)
    let body := BigEndian.encode 8 (v - UInt64.ofNat base).toNat
    overlay (body.drop (body.length - (size - 1))) 1 (overlay [header] 0 out)

/-- Writes the encoding over the start of `buffer`, which stays as it is if it is too short. -/
def encodeInto (v : UInt64) (buffer : Bytes) : Except TagError Nat × Bytes :=
  let size := encodedSize v
  if buffer.length < size then (.error (.shortWrite size 0), buffer)
  else (.ok size, overwrite v size (buffer.take size) ++ buffer.drop size)

/-- The encoding at the start of a block that is long enough for any, and its length. -/
def encodeBlock (v : UInt64) : Bytes × Nat :=
  let size := encodedSize v
  let block := List.replicate maxSize 0
  (overwrite v size (block.take size) ++ block.drop size, size)

/-- The encoding, cut out of the block. -/
def toBytes (v : UInt64) : Bytes :=
  let (block, size) := encodeBlock v
  block.take size

/-! ### Signed numbers -/

/-- Even numbers stand for the numbers from zero up, odd ones for those from minus one down. -/
def zigzag (n : Int64) : UInt64 :=
  ((n <<< 1) ^^^ (n >>> 63)).toUInt64

/-- The number that `zigzag` maps to `u`. -/
def unzigzag (u : UInt64) : Int64 :=
  (u >>> 1).toInt64 ^^^ -(u &&& 1).toInt64

/-- The length of the encoding of a signed number. -/
def signedSize (n : Int64) : Nat :=
  encodedSize (zigzag n)

/-- The encoding of a signed number. -/
def encodeSigned (n : Int64) : Bytes :=
  encode (zigzag n)

/-- Writes the encoding of a signed number over the start of `buffer`. -/
def encodeSignedInto (n : Int64) (buffer : Bytes) : Except TagError Nat × Bytes :=
  encodeInto (zigzag n) buffer

/-- The signed number at the start of the bytes, and the length of its encoding. -/
def decodeSigned (bytes : Bytes) : Except TagError (Int64 × Nat) :=
  (decode bytes).map fun (u, size) => (unzigzag u, size)

example : zigzag (-1) = 1 ∧ zigzag 1 = 2 ∧ zigzag Int64.minValue = 0xFFFFFFFFFFFFFFFF := by decide

/-! ### Narrow types -/

/-- An integer type, of which the name and the range count. -/
inductive IntType where
  | u8
  | u16
  | u32
  | u64
  | usize
  | i8
  | i16
  | i32
  | i64
deriving DecidableEq, Repr

/-- The name of an integer type. -/
def IntType.name : IntType → String
  | u8 => "u8"
  | u16 => "u16"
  | u32 => "u32"
  | u64 => "u64"
  | usize => "usize"
  | i8 => "i8"
  | i16 => "i16"
  | i32 => "i32"
  | i64 => "i64"

/-- The number of values from zero up that an integer type holds. -/
def IntType.bound : IntType → Nat
  | u8 => UInt8.size
  | u16 => UInt16.size
  | u32 => UInt32.size
  | u64 | usize => UInt64.size
  | i8 => UInt8.size / 2
  | i16 => UInt16.size / 2
  | i32 => UInt32.size / 2
  | i64 => UInt64.size / 2

/-- The same number as a value of a narrower type. -/
def narrow (target : IntType) (v : UInt64) : Except TagError UInt64 :=
  if v.toNat < target.bound then .ok v else .error (.varintOverflow target.name)

end TagFormat.Varint
