import TagFormat.Scalar.Basic
import TagFormat.Tag.Id

/-!
# Headers

A header is the id of a tag and, unless the id implies it, the size of the payload.
-/

namespace TagFormat

/-- The size of a payload as its header gives it. -/
inductive Declared where
  | exact (size : Nat)
  | selfDelimited
deriving DecidableEq, Repr

namespace Declared

/-- The size in bytes, which the payload `what` needs to know. -/
def bytes (what : String) : Declared → Except TagError Nat
  | exact size => .ok size
  | selfDelimited => .error (.format (.sizeRequired what))

/-- Checks that the size is the only one that `what` may have. -/
def require (what : String) (expected : Nat) (declared : Declared) : Except TagError Unit := do
  let size ← declared.bytes what
  if size = expected then .ok () else .error (.format (.sizeMismatch what expected size))

/-- The size in bytes, which is at least the least size of `what`. -/
def atLeast (what : String) (minimum : Nat) (declared : Declared) : Except TagError Nat := do
  let size ← declared.bytes what
  if size < minimum then .error (.format (.tooShort what minimum size)) else .ok size

end Declared

namespace Header

/-- The number of bytes of the header of a payload of `size` bytes. -/
def size (id size : UInt64) : Nat :=
  if Id.isImplicit id then Varint.encodedSize id
  else Varint.encodedSize id + Varint.encodedSize size

/-- The header of a payload of `size` bytes. -/
def writing (id size : UInt64) : Writing :=
  if Id.isImplicit id then .block (Varint.encode id)
  else { pieces := [Varint.encode id, Varint.encode size] }

/-- Reads what follows the id in a header. A written size must not exceed `limit`. -/
def readSize (id limit : UInt64) : Reading Declared :=
  match Id.sizing id with
  | .fixed size => .done (.exact size)
  | .selfDelimited => .done .selfDelimited
  | .unassigned => .fail (.unsupportedId id.toNat)
  | .explicit => Reading.varint.bind fun size =>
    if limit < size then .fail (.tooLarge size.toNat limit.toNat) else .done (.exact size.toNat)

/-! ### Headers on their own -/

/-- Writes a header to a sink and tells its length. -/
def writeTo (id size : UInt64) (s : Sink) : Except TagError Nat × Sink :=
  match Varint.writeTo id s with
  | (.error error, s) => (.error error, s)
  | (.ok written, s) =>
    if Id.isImplicit id then (.ok written, s)
    else
      let (outcome, s) := Varint.writeTo size s
      (outcome.map (written + ·), s)

/-- Reads what follows the id in a header, and tells its length. -/
def sizedReadSize (id limit : UInt64) : Reading (Declared × Nat) :=
  match Id.sizing id with
  | .fixed size => .done (.exact size, 0)
  | .selfDelimited => .done (.selfDelimited, 0)
  | .unassigned => .fail (.unsupportedId id.toNat)
  | .explicit => Reading.sizedVarint.bind fun (size, length) =>
    if limit < size then .fail (.tooLarge size.toNat limit.toNat)
    else .done (.exact size.toNat, length)

/-- Reads a header, and tells its length. -/
def sizedRead (limit : UInt64) : Reading (UInt64 × Declared × Nat) :=
  Reading.sizedVarint.bind fun (id, length) =>
    (sizedReadSize id limit).bind fun (declared, more) => .done (id, declared, length + more)

end Header

end TagFormat
