import TagFormat.Input.Reading
import TagFormat.Output.Writing
import TagFormat.Text.Utf8
import TagFormat.Varint

/-!
# Scalars

The typed items that streams are made of: integers of a fixed width, most significant byte first
and signed ones in two's complement, floating-point numbers as their bit patterns, variable-length
numbers, blocks of bytes and text. A kind says how an item is to be read; for blocks and text it
holds the length.
-/

namespace TagFormat

/-- The types of items. -/
inductive Scalar.Kind where
  | uint8
  | int8
  | uint16
  | int16
  | uint32
  | int32
  | uint64
  | int64
  | float32
  | float64
  | varint
  | signedVarint
  | block (length : Nat)
  | text (length : Nat)
deriving DecidableEq, Repr

/-- An item. -/
inductive Scalar where
  | uint8 (n : UInt8)
  | int8 (n : Int8)
  | uint16 (n : UInt16)
  | int16 (n : Int16)
  | uint32 (n : UInt32)
  | int32 (n : Int32)
  | uint64 (n : UInt64)
  | int64 (n : Int64)
  | float32 (bits : UInt32)
  | float64 (bits : UInt64)
  | varint (n : UInt64)
  | signedVarint (n : Int64)
  | block (bytes : Bytes)
  | text (s : String)
deriving DecidableEq, Repr

namespace Scalar

/-- The kind with which an item is read back. -/
def kind : Scalar → Kind
  | uint8 _ => .uint8
  | int8 _ => .int8
  | uint16 _ => .uint16
  | int16 _ => .int16
  | uint32 _ => .uint32
  | int32 _ => .int32
  | uint64 _ => .uint64
  | int64 _ => .int64
  | float32 _ => .float32
  | float64 _ => .float64
  | varint _ => .varint
  | signedVarint _ => .signedVarint
  | block bytes => .block bytes.length
  | text s => .text (Utf8.encode s).length

/-- The bytes of an item. -/
def encode : Scalar → Bytes
  | uint8 n => [n]
  | int8 n => [n.toUInt8]
  | uint16 n => BigEndian.encode 2 n.toNat
  | int16 n => BigEndian.encode 2 n.toUInt16.toNat
  | uint32 n => BigEndian.encode 4 n.toNat
  | int32 n => BigEndian.encode 4 n.toUInt32.toNat
  | uint64 n => BigEndian.encode 8 n.toNat
  | int64 n => BigEndian.encode 8 n.toUInt64.toNat
  | float32 bits => BigEndian.encode 4 bits.toNat
  | float64 bits => BigEndian.encode 8 bits.toNat
  | varint n => Varint.encode n
  | signedVarint n => Varint.encodeSigned n
  | block bytes => bytes
  | text s => Utf8.encode s

end Scalar

/-! ### Reading items -/

namespace Reading

/-- A variable-length number. A body that breaks off is reported with the header counted in. -/
def varint : Reading UInt64 :=
  byte.bind fun header =>
    match Varint.bodyLength header with
    | 0 => .done header.toUInt64
    | length => .take 1 length fun body => ofExcept (Varint.decodeBody body)

/-- A signed variable-length number. -/
def signedVarint : Reading Int64 :=
  varint.bind fun u => .done (Varint.unzigzag u)

/-- A variable-length number and the length of its encoding. -/
def sizedVarint : Reading (UInt64 × Nat) :=
  byte.bind fun header =>
    let size := Varint.sizeOfHeader header
    if size = 1 then .done (header.toUInt64, 1)
    else .take 1 (size - 1) fun body => ofExcept ((Varint.decodeBody body).map (·, size))

/-- A signed variable-length number and the length of its encoding. -/
def sizedSignedVarint : Reading (Int64 × Nat) :=
  sizedVarint.bind fun (u, size) => .done (Varint.unzigzag u, size)

/-- A variable-length number that has to fit into a narrower type. -/
def varintAs (target : Varint.IntType) : Reading UInt64 :=
  varint.bind fun v => ofExcept (Varint.narrow target v)

/-- Text of `length` bytes, all of which are read before they are looked at. -/
def text (length : Nat) : Reading String :=
  (block length).bind fun bytes =>
    match Utf8.decode bytes with
    | .ok s => .done s
    | .error fault => .fail (.format (.badUtf8 fault.reason))

/-- A number of 16 bits. -/
def uint16 : Reading UInt16 := (number 2).bind fun n => .done (UInt16.ofNat n)

/-- A number of 32 bits. -/
def uint32 : Reading UInt32 := (number 4).bind fun n => .done (UInt32.ofNat n)

/-- A number of 64 bits. -/
def uint64 : Reading UInt64 := (number 8).bind fun n => .done (UInt64.ofNat n)

/-- A signed number of 32 bits. -/
def int32 : Reading Int32 := uint32.bind fun n => .done n.toInt32

end Reading

/-! ### Numbers on their own -/

namespace Varint

/-- Writes the encoding of a number to a sink and tells its length. -/
def writeTo (v : UInt64) (s : Sink) : Except TagError Nat × Sink :=
  let (block, size) := encodeBlock v
  let (outcome, s) := (Writing.block (block.take size)).run s
  (outcome.map fun _ => size, s)

/-- Writes the encoding of a signed number to a sink and tells its length. -/
def writeSignedTo (n : Int64) (s : Sink) : Except TagError Nat × Sink :=
  writeTo (zigzag n) s

end Varint

/-! ### Items of a kind -/

/-- The program that reads an item of a kind. -/
def Scalar.Kind.read : Scalar.Kind → Reading Scalar
  | .uint8 => do return .uint8 (← Reading.byte)
  | .int8 => do return .int8 (← Reading.byte).toInt8
  | .uint16 => do return .uint16 (← Reading.uint16)
  | .int16 => do return .int16 (← Reading.uint16).toInt16
  | .uint32 => do return .uint32 (← Reading.uint32)
  | .int32 => do return .int32 (← Reading.int32)
  | .uint64 => do return .uint64 (← Reading.uint64)
  | .int64 => do return .int64 (← Reading.uint64).toInt64
  | .float32 => do return .float32 (← Reading.uint32)
  | .float64 => do return .float64 (← Reading.uint64)
  | .varint => do return .varint (← Reading.varint)
  | .signedVarint => do return .signedVarint (← Reading.signedVarint)
  | .block length => do return .block (← Reading.block length)
  | .text length => do return .text (← Reading.text length)

end TagFormat
