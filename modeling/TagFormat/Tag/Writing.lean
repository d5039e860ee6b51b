import TagFormat.Tag.Size

/-!
# Writing tags

A tag is written as its header and its payload. A tag whose header would not tell the end of its
payload is refused before anything of it is written, and an empty slot is refused where its value
would stand.
-/

namespace TagFormat

/-- A number of 16 bits. -/
def Writing.uint16 (n : UInt16) : Writing :=
  .block (BigEndian.encode 2 n.toNat)

/-- A signed number of 32 bits. -/
def Writing.int32 (n : Int32) : Writing :=
  .block (BigEndian.encode 4 n.toUInt32.toNat)

/-- Nothing but the error that the slot `what` is empty. -/
def Writing.missing (what : String) : Writing :=
  .fail (.format (.missingValue what))

/-- Numbers with a count before them. -/
def Varint.listWriting (ns : List UInt64) : Writing where
  pieces := encode (UInt64.ofNat ns.length) :: ns.map encode

/-- Text in a tag of its own. -/
def Tag.stringWriting (s : String) : Writing :=
  let bytes := Utf8.encode s
  Header.writing Standard.string.id (UInt64.ofNat bytes.length) ++ .block bytes

/-- The body of a point. -/
def Point.writing (p : Point) : Writing where
  pieces := [Varint.encode p.x, Varint.encode p.y]

/-- A place on the globe. -/
def Coordinates.writing (c : Coordinates) : Writing :=
  .int32 c.lat ++ .int32 c.lon

/-- Why a payload of `size` bytes cannot stand under the id. -/
def Header.fault? (id : UInt64) (size : Nat) : Option TagError :=
  match Id.sizing id with
  | .fixed expected =>
    if expected = size then none
    else some (.format (.implicitSizeMismatch id.toNat expected size))
  | .unassigned => some (.unsupportedId id.toNat)
  | .selfDelimited | .explicit => none

/-- Writes a payload that says it has `size` bytes under an id. -/
def Header.framing (id : UInt64) (size : Nat) (payload : Writing) : Writing :=
  match fault? id size with
  | some error => .fail error
  | none => writing id (UInt64.ofNat size) ++ payload

mutual

/-- Writes a payload. -/
def Payload.writing : Payload → Writing
  | .null => {}
  | .bool b => .block [if b then 1 else 0]
  | .uint8 n => .block (Scalar.uint8 n).encode
  | .int8 n => .block (Scalar.int8 n).encode
  | .uint16 n => .block (Scalar.uint16 n).encode
  | .int16 n => .block (Scalar.int16 n).encode
  | .uint32 n => .block (Scalar.uint32 n).encode
  | .int32 n => .block (Scalar.int32 n).encode
  | .uint64 n => .block (Scalar.uint64 n).encode
  | .int64 n => .block (Scalar.int64 n).encode
  | .varint n => .block (Scalar.varint n).encode
  | .signedVarint n => .block (Scalar.signedVarint n).encode
  | .float32 bits => .block (Scalar.float32 bits).encode
  | .float64 bits => .block (Scalar.float64 bits).encode
  | .float128 bits => .block (BigEndian.encode 16 bits.toNat)
  | .bytes bytes => .block bytes
  | .string s => .block (Utf8.encode s)
  | .bigInt n => .block n.bytes
  | .bigDecimal d => .block d.unscaled.bytes ++ .int32 d.scale
  | .varintArray ns => Varint.listWriting ns
  | .oid o => Varint.listWriting o.arcs
  | .tagArray tags => .block (Varint.encode (UInt64.ofNat tags.length)) ++ Tag.writings tags
  | .tagSequence tags => Tag.writings tags
  | .range r => .block (Varint.encode r.start) ++ .uint16 r.count
  | .version v => .int32 v.major ++ .int32 v.minor ++ .int32 v.patch ++ .int32 v.build
  | .dictionary ⟨⟨slots⟩, _, count⟩ =>
    .block (Varint.encode (UInt64.ofNat count)) ++ Tag.entryWritings slots
  | .stringDictionary m =>
    .block (Varint.encode (UInt64.ofNat m.size)) ++
      (m.toList.map fun e => Tag.stringWriting e.1 ++ Tag.stringWriting e.2).foldr (· ++ ·) {}
  | .point v => .uint16 Point.currentVersion ++ v.inner.writing
  | .document ⟨_, t⟩ => .uint16 Payload.documentVersion ++ t.writing
  | .coordinates slot =>
    match slot.value with
    | none => .missing Slot.coordinatesName
    | some c => c.writing
  | .fixed _ slot =>
    match slot.value with
    | none => .missing Slot.fixedName
    | some bytes => .block bytes
  | .text slot =>
    match slot.value with
    | none => .missing Slot.textName
    | some s => .block (Utf8.encode s)
  | .nested ⟨_, none⟩ => .missing Slot.nestedName
  | .nested ⟨_, some t⟩ => t.writing
termination_by structural p => p

/-- Writes a tag. -/
def Tag.writing : Tag → Writing
  | .mk id p => Header.framing id p.valueSize p.writing
termination_by structural t => t

/-- Writes tags one after another. -/
def Tag.writings : List Tag → Writing
  | [] => {}
  | t :: ts => t.writing ++ Tag.writings ts
termination_by structural ts => ts

/-- Writes the entries of a dictionary, each key as a tag before its value. -/
def Tag.entryWritings : List (Option (String × Tag)) → Writing
  | [] => {}
  | none :: slots => Tag.entryWritings slots
  | some (key, t) :: slots => Tag.stringWriting key ++ t.writing ++ Tag.entryWritings slots
termination_by structural slots => slots

end

namespace Tag

/-- The bytes of a tag. -/
def toBytes (t : Tag) : Except TagError Bytes :=
  t.writing.toBytes

/-- Writes a tag to a sink and tells how many bytes the sink took. -/
def writeTo (t : Tag) (s : Sink) : Except TagError Nat × Sink :=
  t.writing.writeTo s

end Tag

end TagFormat
