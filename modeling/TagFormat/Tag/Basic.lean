import TagFormat.InsertionMap
import TagFormat.Tag.Values

/-!
# Tags

A tag is an id with a payload, and payloads may hold further tags. Any id may go with any payload;
whether the two match is for readers and writers to say. The kind of a payload is what can be told
of it without its value.
-/

namespace TagFormat

mutual

/-- What a tag holds. -/
inductive Payload where
  | null
  | bool (b : Bool)
  | uint8 (n : UInt8)
  | int8 (n : Int8)
  | uint16 (n : UInt16)
  | int16 (n : Int16)
  | uint32 (n : UInt32)
  | int32 (n : Int32)
  | uint64 (n : UInt64)
  | int64 (n : Int64)
  | varint (n : UInt64)
  | signedVarint (n : Int64)
  | float32 (bits : UInt32)
  | float64 (bits : UInt64)
  | float128 (bits : BitVec 128)
  | bytes (bytes : Bytes)
  | string (s : String)
  | bigInt (n : BigInt)
  | bigDecimal (d : BigDecimal)
  | varintArray (ns : List UInt64)
  | oid (o : ObjectId)
  /-- Tags with a count before them. -/
  | tagArray (tags : List Tag)
  /-- Tags up to the end of the payload. -/
  | tagSequence (tags : List Tag)
  | range (r : NumberRange)
  | version (v : VersionNumber)
  | dictionary (m : InsertionMap String Tag)
  | stringDictionary (m : InsertionMap String String)
  | point (v : Versioned Point)
  | document (v : Versioned Tag)
  | coordinates (slot : Slot Coordinates)
  /-- A block of which readers expect `width` bytes. -/
  | fixed (width : Nat) (slot : Slot Bytes)
  | text (slot : Slot String)
  | nested (slot : Slot Tag)

/-- A payload under an id. -/
inductive Tag where
  | mk (id : UInt64) (payload : Payload)

end

/-- The types of payloads. That of a slot includes the slot's own id. -/
inductive Kind where
  | standard (type : Standard)
  | point
  | document
  | coordinates (id : ExplicitId)
  | fixed (width : Nat) (id : ExplicitId)
  | text (id : ExplicitId)
  | nested (id : ExplicitId)
deriving DecidableEq

namespace Tag

/-- The id of a tag. -/
def id : Tag → UInt64
  | mk id _ => id

/-- The payload of a tag. -/
def payload : Tag → Payload
  | mk _ payload => payload

/-- The tag without a value. -/
def null : Tag :=
  mk 0 .null

instance : Inhabited Tag := ⟨null⟩

@[simp] theorem id_mk (id : UInt64) (payload : Payload) : (mk id payload).id = id := rfl

@[simp] theorem payload_mk (id : UInt64) (payload : Payload) :
    (mk id payload).payload = payload := rfl

/-- Whether the id is that of the tag without a value. -/
def isNull (t : Tag) : Bool :=
  t.id == Standard.null.id

/-- Text under the standard id. -/
def ofString (s : String) : Tag :=
  mk Standard.string.id (.string s)

end Tag

namespace Payload

/-- The type of a payload. -/
def kind : Payload → Kind
  | null => .standard .null
  | bool _ => .standard .bool
  | uint8 _ => .standard .uint8
  | int8 _ => .standard .int8
  | uint16 _ => .standard .uint16
  | int16 _ => .standard .int16
  | uint32 _ => .standard .uint32
  | int32 _ => .standard .int32
  | uint64 _ => .standard .uint64
  | int64 _ => .standard .int64
  | varint _ => .standard .varint
  | signedVarint _ => .standard .signedVarint
  | float32 _ => .standard .float32
  | float64 _ => .standard .float64
  | float128 _ => .standard .float128
  | bytes _ => .standard .bytes
  | string _ => .standard .string
  | bigInt _ => .standard .bigInt
  | bigDecimal _ => .standard .bigDecimal
  | varintArray _ => .standard .varintArray
  | oid _ => .standard .oid
  | tagArray _ => .standard .tagArray
  | tagSequence _ => .standard .tagSequence
  | range _ => .standard .range
  | version _ => .standard .version
  | dictionary _ => .standard .dictionary
  | stringDictionary _ => .standard .stringDictionary
  | point _ => .point
  | document _ => .document
  | coordinates slot => .coordinates slot.id
  | fixed width slot => .fixed width slot.id
  | text slot => .text slot.id
  | nested slot => .nested slot.id

end Payload

/-- The version in which points are written. -/
def Point.currentVersion : UInt16 := 2

/-- The version in which documents are written. -/
def Payload.documentVersion : UInt16 := 7

/-- The payload with which a tag of a standard type starts out. -/
def Standard.initial : Standard → Payload
  | null => .null
  | bool => .bool false
  | uint8 => .uint8 0
  | int8 => .int8 0
  | uint16 => .uint16 0
  | int16 => .int16 0
  | uint32 => .uint32 0
  | int32 => .int32 0
  | uint64 => .uint64 0
  | int64 => .int64 0
  | varint => .varint 0
  | float32 => .float32 0
  | float64 => .float64 0
  | float128 => .float128 0
  | signedVarint => .signedVarint 0
  | bytes => .bytes []
  | string => .string ""
  | bigInt => .bigInt default
  | bigDecimal => .bigDecimal ⟨default, 0⟩
  | varintArray => .varintArray []
  | tagArray => .tagArray []
  | tagSequence => .tagSequence []
  | range => .range default
  | version => .version default
  | oid => .oid default
  | dictionary => .dictionary ∅
  | stringDictionary => .stringDictionary ∅

/-- The payload with which a tag of a type starts out; slots are empty. -/
def Kind.initial : Kind → Payload
  | standard type => type.initial
  | point => .point ⟨Point.currentVersion, default⟩
  | document => .document ⟨Payload.documentVersion, .null⟩
  | coordinates id => .coordinates ⟨id, none⟩
  | fixed width id => .fixed width ⟨id, none⟩
  | text id => .text ⟨id, none⟩
  | nested id => .nested ⟨id, none⟩

theorem Kind.kind_initial (k : Kind) : k.initial.kind = k := by
  cases k with
  | standard type => cases type <;> rfl
  | _ => rfl

end TagFormat
