import TagFormat.Tag.Codec

/-!
# Reading payloads

The payload of each kind, read from the bytes that its header declares. Kinds of one size check the
declared size first; the others read in a frame of that size, or take all of it as it is. A payload
may also be read over one that is there already.
-/

namespace TagFormat

namespace Reading

variable {α : Type}

/-- Reads an item of which the only size is `size`. -/
def ofSize (what : String) (size : Nat) (declared : Declared) (item : Reading α) : Reading α :=
  (ofExcept (declared.require what size)).bind fun _ => item

/-- Reads in a frame of the declared size, which is at least `minimum`. -/
def framed (what : String) (minimum : Nat) (declared : Declared) (body : Nat → Reading α) :
    Reading α :=
  (ofExcept (declared.atLeast what minimum)).bind fun size => exactly what size (body size)

/-- Reads an item that finds its own end; where a size is declared, it has to take all of it. -/
def delimited (what : String) (declared : Declared) (item : Reading α) : Reading α :=
  match declared with
  | .selfDelimited => item
  | .exact size => exactly what size item

/-- Reads items with a count before them. Each takes a byte at least, so a count that the frame
cannot hold is refused before the first. -/
def counted (what : String) (declared : Declared) (item : Reading α) : Reading (List α) :=
  framed what 1 declared fun _ => do
    let count ← varint
    ensureFits what count.toNat
    item.times count.toNat

/-- Reads `count` entries and adds them to `m`. A key that is there already is refused after its
value has been read. -/
def entriesInto (what : String) (key : Reading String) (value : Reading α) :
    (count : Nat) → InsertionMap String α → Reading (InsertionMap String α)
  | 0, m => .done m
  | count + 1, m => do
    let k ← key
    let v ← value
    if m.contains k then .fail (.format (.duplicateKey what k))
    else entriesInto what key value count (m.insert k v)

/-- Reads a dictionary. -/
def entries (what : String) (declared : Declared) (key : Reading String) (value : Reading α) :
    Reading (InsertionMap String α) :=
  framed what 1 declared fun _ => do
    let count ← varint
    ensureFits what count.toNat
    entriesInto what key value count.toNat ∅

end Reading

open Reading in
/-- Reads the payload of a standard type. -/
def Standard.read (inner : Inner) (declared : Declared) : Standard → Reading Payload
  | null => ofSize "null" 0 declared (pure .null)
  | bool => do return .bool ((← ofSize "bool" 1 declared byte) != 0)
  | uint8 => do return .uint8 (← ofSize "UInt8" 1 declared byte)
  | int8 => do return .int8 (← ofSize "Int8" 1 declared byte).toInt8
  | uint16 => do return .uint16 (← ofSize "UInt16" 2 declared Reading.uint16)
  | int16 => do return .int16 (← ofSize "Int16" 2 declared Reading.uint16).toInt16
  | uint32 => do return .uint32 (← ofSize "UInt32" 4 declared Reading.uint32)
  | int32 => do return .int32 (← ofSize "Int32" 4 declared Reading.int32)
  | uint64 => do return .uint64 (← ofSize "UInt64" 8 declared Reading.uint64)
  | int64 => do return .int64 (← ofSize "Int64" 8 declared Reading.uint64).toInt64
  | varint => do return .varint (← delimited "varint" declared Reading.varint)
  | signedVarint => do
    return .signedVarint (← delimited "signed varint" declared Reading.signedVarint)
  | float32 => do return .float32 (← ofSize "Float32" 4 declared Reading.uint32)
  | float64 => do return .float64 (← ofSize "Float64" 8 declared Reading.uint64)
  | float128 => do return .float128 (.ofNat 128 (← ofSize "float128" 16 declared (number 16)))
  | bytes => do return .bytes (← block (← ofExcept (declared.bytes "bytes")))
  | string => do return .string (← text (← ofExcept (declared.bytes "string")))
  | bigInt => do
    -- one byte at least, so `ofBytes` takes the bytes as they are
    return .bigInt (.ofBytes (← block (← ofExcept (declared.atLeast "big integer" 1))))
  | bigDecimal => framed "big decimal" 5 declared fun size => do
    let unscaled ← block (size - 4)
    return .bigDecimal ⟨.ofBytes unscaled, ← Reading.int32⟩
  | varintArray => do return .varintArray (← counted "varint array" declared Reading.varint)
  | oid => do return .oid ⟨← counted "oid" declared Reading.varint⟩
  | tagArray => do return .tagArray (← counted "tag array" declared inner.tag)
  | tagSequence => do
    return .tagSequence (← framed "tag sequence" 0 declared (untilEnd inner.tag))
  | range => framed "range" 3 declared fun _ => do
    let start ← Reading.varint
    return .range ⟨start, ← Reading.uint16⟩
  | version => ofSize "version" 16 declared do
    return .version ⟨← Reading.int32, ← Reading.int32, ← Reading.int32, ← Reading.int32⟩
  | dictionary => do
    return .dictionary (← entries "dictionary" declared inner.string inner.tag)
  | stringDictionary => do
    return .stringDictionary (← entries "string dictionary" declared inner.string inner.string)

/-- Reads the payload of a kind. -/
def Kind.read (inner : Inner) (declared : Declared) : Kind → Reading Payload
  | standard type => type.read inner declared
  | point => do return .point (← Body.point.readVersioned inner declared)
  | document => do return .document (← Body.document.readVersioned inner declared)
  | coordinates id => do
    return .coordinates ⟨id, some (← Codec.coordinates.readValue inner declared)⟩
  | fixed width id => do
    return .fixed width ⟨id, some (← (Codec.fixed width).readValue inner declared)⟩
  | text id => do return .text ⟨id, some (← Codec.text.readValue inner declared)⟩
  | nested id => do return .nested ⟨id, some (← Codec.nested.readValue inner declared)⟩

/-- Reads a payload over another of its kind. A versioned value is changed part by part, and of a
slot only the value; a payload of a standard type is replaced as a whole. -/
def Payload.readOver (inner : Inner) (declared : Declared) : Payload → Reading Payload
  | point v => do return .point (← Body.point.readVersionedOver inner declared v)
  | document v => do return .document (← Body.document.readVersionedOver inner declared v)
  | coordinates slot => do
    return .coordinates { slot with value := ← Codec.coordinates.readValue inner declared }
  | fixed width slot => do
    return .fixed width { slot with value := ← (Codec.fixed width).readValue inner declared }
  | text slot => do return .text { slot with value := ← Codec.text.readValue inner declared }
  | nested slot => do return .nested { slot with value := ← Codec.nested.readValue inner declared }
  | p => p.kind.read inner declared

end TagFormat
