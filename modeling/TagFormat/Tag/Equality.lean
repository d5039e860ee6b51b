import TagFormat.Number.Binary
import TagFormat.Tag.Basic

/-!
# Equality of tags

Two tags are equal when their ids are, and their payloads are of one type and equal as values:
floating-point numbers as numbers, so that a NaN differs from itself, 128-bit ones as bits, and
dictionaries by their entries in order.
-/

namespace TagFormat

mutual

/-- Whether two payloads are of one type and equal. -/
def Payload.equal : Payload → Payload → Bool
  | .null, .null => true
  | .bool a, .bool b => a == b
  | .uint8 m, .uint8 n => m == n
  | .int8 m, .int8 n => m == n
  | .uint16 m, .uint16 n => m == n
  | .int16 m, .int16 n => m == n
  | .uint32 m, .uint32 n => m == n
  | .int32 m, .int32 n => m == n
  | .uint64 m, .uint64 n => m == n
  | .int64 m, .int64 n => m == n
  | .varint m, .varint n => m == n
  | .signedVarint m, .signedVarint n => m == n
  | .float32 a, .float32 b => Binary.single.equal a.toNat b.toNat
  | .float64 a, .float64 b => Binary.double.equal a.toNat b.toNat
  | .float128 a, .float128 b => a == b
  | .bytes a, .bytes b => a == b
  | .string s, .string t => s == t
  | .bigInt m, .bigInt n => m == n
  | .bigDecimal d, .bigDecimal e => d == e
  | .varintArray ms, .varintArray ns => ms == ns
  | .oid o, .oid p => o == p
  | .tagArray ts, .tagArray us => Tag.equalAll ts us
  | .tagSequence ts, .tagSequence us => Tag.equalAll ts us
  | .range r, .range s => r == s
  | .version v, .version w => v == w
  | .dictionary ⟨⟨slots⟩, _, count⟩, .dictionary n =>
    count == n.size && Tag.equalEntries slots n.toList
  | .stringDictionary m, .stringDictionary n => m == n
  | .point v, .point w => v == w
  | .document ⟨v, t⟩, .document ⟨w, u⟩ => v == w && t.equal u
  | .coordinates s, .coordinates t => s == t
  | .fixed m s, .fixed n t => m == n && s == t
  | .text s, .text t => s == t
  | .nested ⟨i, none⟩, .nested ⟨j, none⟩ => i == j
  | .nested ⟨i, some t⟩, .nested ⟨j, some u⟩ => i == j && t.equal u
  | _, _ => false
termination_by structural p => p

/-- Whether two tags have one id and equal payloads. -/
def Tag.equal : Tag → Tag → Bool
  | .mk i p, .mk j q => i == j && p.equal q
termination_by structural t => t

/-- Whether two lists of tags are equal tag by tag. -/
def Tag.equalAll : List Tag → List Tag → Bool
  | [], [] => true
  | t :: ts, u :: us => t.equal u && Tag.equalAll ts us
  | _, _ => false
termination_by structural ts => ts

/-- Whether slots hold the given entries, in order. -/
def Tag.equalEntries : List (Option (String × Tag)) → List (String × Tag) → Bool
  | [], [] => true
  | none :: slots, entries => Tag.equalEntries slots entries
  | some (k, t) :: slots, (l, u) :: entries =>
    k == l && t.equal u && Tag.equalEntries slots entries
  | _, _ => false
termination_by structural slots => slots

end

instance : BEq Payload := ⟨Payload.equal⟩

instance : BEq Tag := ⟨Tag.equal⟩

end TagFormat
