import TagFormat.Registry.Basic

/-!
# Reading tags

A tag is read in this order: its id, the kind that the registry has for the id, its size, and its
payload. Each level of nesting uses up one of the levels that the settings grant, and a tag that
has none left is refused before a byte of it is read.
-/

namespace TagFormat

namespace Registry

/-- Refuses a tag that is nested too deep. -/
def refuseDepth {α : Type} (r : Registry) : Reading α :=
  .fail (.format (.tooDeep r.settings.maxDepth.toNat))

/-- Reads what follows the id of a tag: the size, and a payload of the given kind. -/
def readBody (r : Registry) (inner : Inner) (id : UInt64) (kind : Kind) : Reading Tag := do
  let declared ← Header.readSize id r.settings.maxTagSize
  return .mk id (← kind.read inner declared)

/-- Reads the id of a tag, which has to be `expected`. -/
def expectId (expected : UInt64) : Reading Unit := do
  let id ← Reading.varint
  if id = expected then return else .fail (.unexpectedId expected.toNat id.toNat)

/-- Reads text in a tag of its own, with `depth` levels left. -/
def readString (r : Registry) : (depth : Nat) → Reading String
  | 0 => r.refuseDepth
  | _ + 1 => do
    expectId Standard.string.id
    let declared ← Header.readSize Standard.string.id r.settings.maxTagSize
    Reading.text (← Reading.ofExcept (declared.bytes "string"))

/-- Reads a tag with `depth` levels left. -/
def readTag (r : Registry) : (depth : Nat) → Reading Tag
  | 0 => r.refuseDepth
  | depth + 1 => do
    let id ← Reading.varint
    let kind ← Reading.ofExcept (r.kindOf id)
    r.readBody ⟨r.readTag depth, r.readString depth⟩ id kind

/-- The programs that read tags with `depth` levels left. -/
def inner (r : Registry) (depth : Nat) : Inner where
  tag := r.readTag depth
  string := r.readString depth

/-- The number of levels that the settings grant. -/
def levels (r : Registry) : Nat :=
  r.settings.maxDepth.toNat

/-- Reads a tag. -/
def read (r : Registry) : Reading Tag :=
  r.readTag r.levels

/-- Reads a tag over `target`, of which it has to have the id. The payload is read as one of the
kind that is there, whatever the registry has for the id. -/
def readInto (r : Registry) (target : Tag) : Reading Tag :=
  match r.levels with
  | 0 => r.refuseDepth
  | depth + 1 => do
    expectId target.id
    let declared ← Header.readSize target.id r.settings.maxTagSize
    return .mk target.id (← target.payload.readOver (r.inner depth) declared)

/-- Passes over a tag and tells its size. Neither the kind nor the payload of the tag matters. -/
def skip (r : Registry) : Reading Nat := do
  let id ← Reading.varint
  match ← Header.readSize id r.settings.maxTagSize with
  | .selfDelimited => do
    let n ← Reading.varint
    return Header.size id 0 + Varint.encodedSize n
  | .exact size => do
    let _ ← Reading.block size
    return Header.size id (UInt64.ofNat size) + size

/-- The result of a program over all of the bytes. -/
def parseWith {α : Type} (p : Reading α) (bytes : Bytes) : Except TagError α :=
  match p.run [] (.ofBytes bytes) with
  | (.error error, _) => .error error
  | (.ok a, s) =>
    if s.rest.isEmpty then .ok a
    else .error (.format (.trailingBytes "tag buffer" s.rest.length))

/-- The tag that the bytes spell, all of them. -/
def parse (r : Registry) (bytes : Bytes) : Except TagError Tag :=
  parseWith r.read bytes

/-- The tag that the bytes spell, all of them, read over `target`. -/
def parseInto (r : Registry) (target : Tag) (bytes : Bytes) : Except TagError Tag :=
  parseWith (r.readInto target) bytes

end Registry

end TagFormat
