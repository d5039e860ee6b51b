import TagFormat.Registry.Reading
import TagFormat.Text.Quoted

/-!
# Slots as tags

A slot can be written and read as a tag by itself, with its codec at hand and no kind registered.
A batch is a run of such tags under one id; where values may be missing, a tag without a value
stands for each that is. A batch empties the slot first, and values are read through it.
-/

namespace TagFormat

variable {α : Type}

namespace Slot

/-- An empty slot. -/
def empty (id : ExplicitId) : Slot α where
  id := id
  value := none

/-- The slot without its value. -/
def clear (slot : Slot α) : Slot α :=
  { slot with value := none }

/-- The slot with another value. -/
def set (slot : Slot α) (a : α) : Slot α :=
  { slot with value := some a }

/-- The value in the slot, which is taken out of it. -/
def take (slot : Slot α) : Option α × Slot α :=
  (slot.value, slot.clear)

/-- An empty slot of some kind registered for an id, which becomes the slot's own. -/
def register (r : Registry) (id : UInt64) (kind : ExplicitId → Kind) : Except Refusal Registry :=
  if Id.isReserved id then .error (.reserved id)
  else do r.registerDefault id (kind (← ExplicitId.of id))

/-- A description of a slot. -/
def text (codec : String) (value : α → String) (slot : Slot α) : String :=
  let held :=
    match slot.value with
    | none => "None"
    | some a => "Some(" ++ value a ++ ")"
  "WrappedTag \x7b codec: " ++ Text.Quoted.encode codec ++ ", id: " ++ toString slot.id.val ++
    ", slot: " ++ held ++ " \x7d"

end Slot

/-- A description of a place on the globe. -/
def Coordinates.text (c : Coordinates) : String :=
  "Coord \x7b lat: " ++ toString c.lat.toInt ++ ", lon: " ++ toString c.lon.toInt ++ " \x7d"

/-- A description of a block of bytes. -/
def Slot.blockText (bytes : Bytes) : String :=
  "[" ++ ", ".intercalate (bytes.map fun b => toString b.toNat) ++ "]"

namespace Codec

/-- The size of a value in a tag of its own. -/
def tagSize (c : Codec α) (id : ExplicitId) (a : α) : Nat :=
  Header.size id.val (UInt64.ofNat (c.size a)) + c.size a

/-- Writes a value in a tag of its own. -/
def tagWriting (c : Codec α) (id : ExplicitId) (a : α) : Writing :=
  Header.writing id.val (UInt64.ofNat (c.size a)) ++ c.writing a

/-- Writes a value in a tag of its own and counts the bytes. -/
def writeValue (c : Codec α) (id : ExplicitId) (a : α) (s : Sink) : Except TagError Nat × Sink :=
  let (outcome, s) := (c.tagWriting id a).run s
  (outcome.map fun _ => c.tagSize id a, s)

/-- Writes the value of a slot in a tag of its own and counts the bytes. -/
def writeTag (c : Codec α) (slot : Slot α) (s : Sink) : Except TagError Nat × Sink :=
  match slot.value with
  | none => (.error (.format (.missingValue c.name)), s)
  | some a => c.writeValue slot.id a s

/-- Reads what follows the id of a tag that holds a value. -/
def readBody (c : Codec α) (r : Registry) (id : ExplicitId) : Reading α := do
  let declared ← Header.readSize id.val r.settings.maxTagSize
  c.readValue (r.inner r.levels) declared

/-- Reads a value in a tag of its own. -/
def readTag (c : Codec α) (r : Registry) (slot : Slot α) : Reading (Slot α) := do
  Registry.expectId slot.id.val
  return slot.set (← c.readBody r slot.id)

/-- Reads a value in a tag of its own into the slot, which stays as it was if that fails. -/
def fill (c : Codec α) (r : Registry) (slot : Slot α) (s : Source) :
    Except TagError Unit × Slot α × Source :=
  match (c.readTag r slot).run [] s with
  | (.ok slot, s) => (.ok (), slot, s)
  | (.error error, s) => (.error error, slot, s)

/-! ### Batches -/

/-- The size of a value that may be missing. -/
def elementSize (c : Codec α) (id : ExplicitId) : Option α → Nat
  | none => Varint.encodedSize Standard.null.id
  | some a => c.tagSize id a

/-- Writes a value that may be missing and counts the bytes. -/
def writeElement (c : Codec α) (id : ExplicitId) : Option α → Sink → Except TagError Nat × Sink
  | none, s => (Writing.block (Varint.encode Standard.null.id)).writeTo s
  | some a, s => c.writeValue id a s

/-- Reads a value that may be missing. -/
def readElement (c : Codec α) (r : Registry) (id : ExplicitId) : Reading (Option α) := do
  let found ← Reading.varint
  if found = Standard.null.id then return none
  else if found = id.val then return some (← c.readBody r id)
  else .fail (.unexpectedId id.val.toNat found.toNat)

/-- The size of a batch in which values may be missing. -/
def sparseBatchSize (c : Codec α) (id : ExplicitId) (values : List (Option α)) : Nat :=
  totalSize (values.map (c.elementSize id))

/-- The size of a batch. -/
def batchSize (c : Codec α) (id : ExplicitId) (values : List α) : Nat :=
  totalSize (values.map (c.tagSize id))

/-- Writes elements one after another and adds up what each of them counts, after `written` bytes. -/
def writeEach {β : Type} (write : β → Sink → Except TagError Nat × Sink) :
    (elements : List β) → (written : Nat) → Sink → Except TagError Nat × Sink
  | [], written, s => (.ok written, s)
  | b :: elements, written, s =>
    match write b s with
    | (.ok n, s) => writeEach write elements (written + n) s
    | (.error error, s) => (.error error, s)

/-- Reads `count` values, each of them through the slot, after the values `read`, the last one
first. -/
def readEach (c : Codec α) (r : Registry) :
    (count : Nat) → (read : List α) → Slot α → Source → Except TagError (List α) × Slot α × Source
  | 0, read, slot, s => (.ok read.reverse, slot, s)
  | count + 1, read, slot, s =>
    match c.fill r slot s with
    | (.ok _, slot, s) => readEach c r count (slot.take.1.toList ++ read) slot.take.2 s
    | (.error error, slot, s) => (.error error, slot, s)

/-- Empties the slot, writes a batch, and counts the bytes. -/
def writeBatch (c : Codec α) (slot : Slot α) (values : List α) (s : Sink) :
    Except TagError Nat × Slot α × Sink :=
  let slot := slot.clear
  let (outcome, s) := writeEach (c.writeValue slot.id) values 0 s
  (outcome, slot, s)

/-- Empties the slot, writes a batch in which values may be missing, and counts the bytes. -/
def writeSparseBatch (c : Codec α) (slot : Slot α) (values : List (Option α)) (s : Sink) :
    Except TagError Nat × Slot α × Sink :=
  let slot := slot.clear
  let (outcome, s) := writeEach (c.writeElement slot.id) values 0 s
  (outcome, slot, s)

/-- Empties the slot and reads a batch of `count` values through it. -/
def readBatch (c : Codec α) (r : Registry) (slot : Slot α) (count : Nat) (s : Source) :
    Except TagError (List α) × Slot α × Source :=
  c.readEach r count [] slot.clear s

/-- Empties the slot and reads a batch of `count` values that may be missing. -/
def readSparseBatch (c : Codec α) (r : Registry) (slot : Slot α) (count : Nat) (s : Source) :
    Except TagError (List (Option α)) × Slot α × Source :=
  let slot := slot.clear
  let (outcome, s) := ((c.readElement r slot.id).times count).run [] s
  (outcome, slot, s)

end Codec

end TagFormat
