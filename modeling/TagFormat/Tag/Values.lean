import TagFormat.Number.Decimal
import TagFormat.Tag.Id
import TagFormat.Text.Utf8

/-!
# Small values

The values of the payloads that are neither numbers nor containers, and the two shapes that lend a
payload to values of any type: a versioned body, and a slot that may be empty.
-/

namespace TagFormat

/-- The numbers `start`, `start + 1`, … of which there are `count`. -/
structure NumberRange where
  start : UInt64
  count : UInt16
deriving DecidableEq, Inhabited

namespace NumberRange

/-- The number after the last one, or the greatest number if there is none after it. -/
def stop (r : NumberRange) : UInt64 :=
  UInt64.ofNat (min (r.start.toNat + r.count.toNat) (UInt64.size - 1))

instance : Membership UInt64 NumberRange where
  mem r n := r.start ≤ n ∧ n - r.start < r.count.toUInt64

instance (n : UInt64) (r : NumberRange) : Decidable (n ∈ r) :=
  inferInstanceAs (Decidable (r.start ≤ n ∧ n - r.start < r.count.toUInt64))

def isEmpty (r : NumberRange) : Bool :=
  r.count == 0

end NumberRange

/-- A version of four parts. -/
structure VersionNumber where
  major : Int32
  minor : Int32
  patch : Int32
  build : Int32
deriving DecidableEq, Inhabited

namespace VersionNumber

/-- The parts, the most significant first. -/
def parts (v : VersionNumber) : List Int :=
  [v.major.toInt, v.minor.toInt, v.patch.toInt, v.build.toInt]

/-- The parts between points. -/
def text (v : VersionNumber) : String :=
  ".".intercalate (v.parts.map toString)

/-- Versions are ordered by the first part in which they differ. -/
def order (v w : VersionNumber) : Ordering :=
  List.compareLex compare v.parts w.parts

end VersionNumber

/-- An object identifier: numbers that lead down a tree. -/
structure ObjectId where
  arcs : List UInt64
deriving DecidableEq, Inhabited

namespace ObjectId

/-- The numbers between points. -/
def text (o : ObjectId) : String :=
  ".".intercalate (o.arcs.map fun n => toString n.toNat)

/-- Object identifiers are ordered by the first number in which they differ; a start of another
comes before it. -/
def order (o p : ObjectId) : Ordering :=
  List.compareLex compare o.arcs p.arcs

end ObjectId

/-- Texts are ordered by their UTF-8 bytes. -/
def Utf8.order (s t : String) : Ordering :=
  List.compareLex compare (Utf8.encode s) (Utf8.encode t)

/-- A value and the version of the body that it was read from. -/
structure Versioned (α : Type) where
  version : UInt16
  inner : α
deriving DecidableEq

/-- A place for a value that is written under an id of its own. -/
structure Slot (α : Type) where
  id : ExplicitId
  value : Option α
deriving DecidableEq

/-- The name of slots for places on the globe. -/
def Slot.coordinatesName : String := "coord"

/-- The name of slots for blocks of known length. -/
def Slot.fixedName : String := "fixed read"

/-- The name of slots for text. -/
def Slot.textName : String := "text"

/-- The name of slots for tags. -/
def Slot.nestedName : String := "nested"

/-- A point in the plane. -/
structure Point where
  x : UInt64
  y : UInt64
deriving DecidableEq, Inhabited

/-- A place on the globe. -/
structure Coordinates where
  lat : Int32
  lon : Int32
deriving DecidableEq, Inhabited

end TagFormat
