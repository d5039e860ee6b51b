import TagFormat.Tag.Writing

/-!
# Codecs and versioned bodies

A codec writes the value of a slot and reads it back; a body does the same for a value whose form
has changed from version to version. Both are handed the programs that read tags one level further
down. A codec makes a new value, but a body is read over the value that is there, of which it might
keep something. Both read in a frame of the declared size, so however they behave, a value that they
read takes exactly that many bytes.
-/

namespace TagFormat

/-- The programs that read what stands one level further down. -/
structure Inner where
  tag : Reading Tag
  /-- Text in a tag of its own. -/
  string : Reading String

/-- How values of a type are written into a slot and read from it. -/
structure Codec (α : Type) where
  /-- The name under which errors report the slot. -/
  name : String
  size : α → Nat
  writing : α → Writing
  read : Inner → Declared → Reading α

/-- How values of a type are written after their version and read in any version. -/
structure Body (α : Type) where
  /-- The version in which values are written. -/
  current : UInt16
  /-- The value over which a body is read where there is no other. -/
  initial : α
  supports : UInt16 → Bool
  size : α → Nat
  writing : α → Writing
  /-- Reads a body of some version over a value. -/
  readOver : UInt16 → Inner → α → Reading α

variable {α : Type}

namespace Codec

/-- Reads the value of a slot, which takes exactly the declared size. -/
def readValue (c : Codec α) (inner : Inner) (declared : Declared) : Reading α := do
  let size ← Reading.ofExcept (declared.bytes c.name)
  Reading.exactly c.name size (c.read inner (.exact size))

/-- The size of the value in a slot; an empty slot has none. -/
def valueSize (c : Codec α) (slot : Slot α) : Nat :=
  (slot.value.map c.size).getD 0

/-- Writes the value in a slot. -/
def valueWriting (c : Codec α) (slot : Slot α) : Writing :=
  match slot.value with
  | none => .missing c.name
  | some a => c.writing a

/-- Two signed numbers. -/
def coordinates : Codec Coordinates where
  name := Slot.coordinatesName
  size _ := 8
  writing := Coordinates.writing
  read _ declared := do
    Reading.ofExcept (declared.require Slot.coordinatesName 8)
    return ⟨← Reading.int32, ← Reading.int32⟩

/-- A block, of which `width` bytes are read whatever size is declared. -/
def fixed (width : Nat) : Codec Bytes where
  name := Slot.fixedName
  size := List.length
  writing := .block
  read _ _ := Reading.block width

/-- Text. -/
def text : Codec String where
  name := Slot.textName
  size s := (Utf8.encode s).length
  writing s := .block (Utf8.encode s)
  read _ declared := do
    Reading.text (← Reading.ofExcept (declared.bytes Slot.textName))

/-- A tag. -/
def nested : Codec Tag where
  name := Slot.nestedName
  size := Tag.size
  writing := Tag.writing
  read inner _ := inner.tag

end Codec

namespace Body

/-- The name under which errors report versioned payloads. -/
def what : String := "versioned payload"

/-- Points. The first version had no second coordinate. -/
def point : Body Point where
  current := Point.currentVersion
  initial := default
  supports version := version == 1 || version == 2
  size := Point.size
  writing := Point.writing
  readOver version _ p := do
    let p := { p with x := ← Reading.varint }
    if version < 2 then return { p with y := 0 }
    return { p with y := ← Reading.varint }

/-- Documents, which hold one tag. -/
def document : Body Tag where
  current := Payload.documentVersion
  initial := .null
  supports version := version == Payload.documentVersion
  size := Tag.size
  writing := Tag.writing
  readOver _ inner _ := inner.tag

/-- The value in the version in which it would be written. -/
def upToDate (b : Body α) (a : α) : Versioned α :=
  ⟨b.current, a⟩

/-- Reads a body of some version where there is no value yet. -/
def read (b : Body α) (version : UInt16) (inner : Inner) : Reading α :=
  b.readOver version inner b.initial

/-- Reads a version and the body of that version over a value, in exactly the declared size. -/
def readVersionedOver (b : Body α) (inner : Inner) (declared : Declared) (v : Versioned α) :
    Reading (Versioned α) := do
  let size ← Reading.ofExcept (declared.atLeast what 2)
  Reading.exactly what size do
    let version ← Reading.uint16
    if b.supports version then
      let inner ← b.readOver version inner v.inner
      return { v with inner, version }
    else .fail (.format (.unsupportedVersion what version.toNat))

/-- Reads a version and the body of that version where there is no value yet. -/
def readVersioned (b : Body α) (inner : Inner) (declared : Declared) : Reading (Versioned α) :=
  b.readVersionedOver inner declared (b.upToDate b.initial)

theorem readVersioned_eq (b : Body α) (inner : Inner) (declared : Declared) :
    b.readVersioned inner declared = (do
      let size ← Reading.ofExcept (declared.atLeast what 2)
      Reading.exactly what size do
        let version ← Reading.uint16
        if b.supports version then return ⟨version, ← b.read version inner⟩
        else .fail (.format (.unsupportedVersion what version.toNat))) := rfl

/-- The size of a value with its version. -/
def versionedSize (b : Body α) (v : Versioned α) : Nat :=
  2 + b.size v.inner

/-- Writes a value in the current version, whatever version it was read from. -/
def versionedWriting (b : Body α) (v : Versioned α) : Writing :=
  .uint16 b.current ++ b.writing v.inner

end Body

end TagFormat
