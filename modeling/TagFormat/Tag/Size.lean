import TagFormat.Tag.Basic
import TagFormat.Tag.Header

/-!
# Sizes of tags

The number of bytes that a payload takes, and that a tag takes with its header. Sizes are computed
without writing anything, since the header comes before the payload.
-/

namespace TagFormat

/-- The size of things one after another. -/
def totalSize (sizes : List Nat) : Nat :=
  sizes.foldr (· + ·) 0

/-- The size of numbers with a count before them. -/
def Varint.listSize (ns : List UInt64) : Nat :=
  encodedSize (UInt64.ofNat ns.length) + totalSize (ns.map encodedSize)

/-- The size of a tag that holds text. -/
def Tag.stringSize (s : String) : Nat :=
  let size := (Utf8.encode s).length
  Header.size Standard.string.id (UInt64.ofNat size) + size

/-- The size of the body of a point. -/
def Point.size (p : Point) : Nat :=
  Varint.encodedSize p.x + Varint.encodedSize p.y

mutual

/-- The size of a payload. -/
def Payload.valueSize : Payload → Nat
  | .null => 0
  | .bool _ | .uint8 _ | .int8 _ => 1
  | .uint16 _ | .int16 _ => 2
  | .uint32 _ | .int32 _ | .float32 _ => 4
  | .uint64 _ | .int64 _ | .float64 _ => 8
  | .varint n => Varint.encodedSize n
  | .signedVarint n => Varint.signedSize n
  | .float128 _ => 16
  | .bytes bytes => bytes.length
  | .string s => (Utf8.encode s).length
  | .bigInt n => n.size
  | .bigDecimal d => d.size
  | .varintArray ns => Varint.listSize ns
  | .oid o => Varint.listSize o.arcs
  | .tagArray tags => Varint.encodedSize (UInt64.ofNat tags.length) + Tag.sizes tags
  | .tagSequence tags => Tag.sizes tags
  | .range r => Varint.encodedSize r.start + 2
  | .version _ => 16
  | .dictionary ⟨⟨slots⟩, _, count⟩ =>
    Varint.encodedSize (UInt64.ofNat count) + Tag.entrySizes slots
  | .stringDictionary m =>
    Varint.encodedSize (UInt64.ofNat m.size) +
      totalSize (m.toList.map fun e => Tag.stringSize e.1 + Tag.stringSize e.2)
  | .point v => 2 + v.inner.size
  | .document ⟨_, t⟩ => 2 + t.size
  | .coordinates slot => if slot.value.isSome then 8 else 0
  | .fixed _ slot => (slot.value.map List.length).getD 0
  | .text slot => (slot.value.map fun s => (Utf8.encode s).length).getD 0
  | .nested ⟨_, none⟩ => 0
  | .nested ⟨_, some t⟩ => t.size
termination_by structural p => p

/-- The size of a tag. -/
def Tag.size : Tag → Nat
  | .mk id p => Header.size id (UInt64.ofNat p.valueSize) + p.valueSize
termination_by structural t => t

/-- The size of tags one after another. -/
def Tag.sizes : List Tag → Nat
  | [] => 0
  | t :: ts => t.size + Tag.sizes ts
termination_by structural ts => ts

/-- The size of the entries of a dictionary, keys included. -/
def Tag.entrySizes : List (Option (String × Tag)) → Nat
  | [] => 0
  | none :: slots => Tag.entrySizes slots
  | some (key, t) :: slots => Tag.stringSize key + t.size + Tag.entrySizes slots
termination_by structural slots => slots

end

namespace Tag

/-- The size of the payload of a tag. -/
def valueSize (t : Tag) : Nat :=
  t.payload.valueSize

/-- The size of the header of a tag. -/
def headerSize (t : Tag) : Nat :=
  Header.size t.id (UInt64.ofNat t.valueSize)

theorem size_eq (t : Tag) : t.size = t.headerSize + t.valueSize := by
  cases t
  simp only [size, headerSize, valueSize, id_mk, payload_mk]

theorem sizes_eq (ts : List Tag) : sizes ts = totalSize (ts.map size) := by
  induction ts with
  | nil => rw [sizes, List.map_nil, totalSize, List.foldr_nil]
  | cons t ts ih => rw [sizes, ih, List.map_cons, totalSize, totalSize, List.foldr_cons]

end Tag

end TagFormat
