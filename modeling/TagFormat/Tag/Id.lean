import TagFormat.Error

/-!
# Tag ids

Ids below 16 are implicit: they imply the size of their payload, which is then not written. Ids
below 32 are reserved for the standard payload types, and those from 32 on are free.
-/

namespace TagFormat

/-- How the end of a payload is found. -/
inductive Sizing where
  /-- The size is written before the payload. -/
  | explicit
  | fixed (size : Nat)
  /-- The payload finds its own end. -/
  | selfDelimited
  /-- No payload may have the id. -/
  | unassigned
deriving DecidableEq, Repr

/-- The standard payload types. -/
inductive Standard where
  | null
  | bool
  | uint8
  | int8
  | uint16
  | int16
  | uint32
  | int32
  | uint64
  | int64
  | varint
  | float32
  | float64
  | float128
  | signedVarint
  | bytes
  | string
  | bigInt
  | bigDecimal
  | varintArray
  | tagArray
  | tagSequence
  | range
  | version
  | oid
  | dictionary
  | stringDictionary
deriving DecidableEq, Repr

namespace Id

/-- Whether the id implies the size of its payload. -/
def isImplicit (id : UInt64) : Bool :=
  id < 16

/-- Whether the id is set aside for the standard payload types. -/
def isReserved (id : UInt64) : Bool :=
  id < 32

/-- How the end of a payload with the id is found. -/
def sizing (id : UInt64) : Sizing :=
  match id.toNat with
  | 0 => .fixed 0
  | 1 | 2 | 3 => .fixed 1
  | 4 | 5 => .fixed 2
  | 6 | 7 | 11 => .fixed 4
  | 8 | 9 | 12 => .fixed 8
  | 13 => .fixed 16
  | 10 | 14 => .selfDelimited
  | 15 => .unassigned
  | _ => .explicit

theorem sizing_eq_explicit_iff (id : UInt64) : sizing id = .explicit ↔ isImplicit id = false := by
  have h : isImplicit id = false ↔ 16 ≤ id.toNat := by
    simp [isImplicit, UInt64.le_iff_toNat_le]
  rw [h]
  unfold sizing
  split <;> first | (simp; omega) | (simp_all; omega)

end Id

namespace Standard

/-- The id of a standard payload type. -/
def id : Standard → UInt64
  | null => 0
  | bool => 1
  | uint8 => 2
  | int8 => 3
  | uint16 => 4
  | int16 => 5
  | uint32 => 6
  | int32 => 7
  | uint64 => 8
  | int64 => 9
  | varint => 10
  | float32 => 11
  | float64 => 12
  | float128 => 13
  | signedVarint => 14
  | bytes => 16
  | string => 17
  | bigInt => 18
  | bigDecimal => 19
  | varintArray => 20
  | tagArray => 21
  | tagSequence => 22
  | range => 23
  | version => 24
  | oid => 25
  | dictionary => 30
  | stringDictionary => 31

/-- The standard payload types, by ascending id. -/
def all : List Standard :=
  [null, bool, uint8, int8, uint16, int16, uint32, int32, uint64, int64, varint, float32, float64,
    float128, signedVarint, bytes, string, bigInt, bigDecimal, varintArray, tagArray, tagSequence,
    range, version, oid, dictionary, stringDictionary]

/-- The standard payload type with the given id. -/
def ofId? (id : UInt64) : Option Standard :=
  all.find? fun standard => standard.id == id

theorem ofId?_id (standard : Standard) : ofId? standard.id = some standard := by
  cases standard <;> decide

end Standard

/-! ### Ids that calls insist on -/

/-- An id with a written size. -/
structure ExplicitId where
  val : UInt64
  le_val : 16 ≤ val
deriving DecidableEq

/-- The refusal to use an id where it may not stand. -/
inductive Refusal where
  /-- Only the standard payload types have ids below 32. -/
  | reserved (id : UInt64)
  /-- The value of a slot needs a written size. -/
  | implicit (id : UInt64)
deriving DecidableEq, Repr

/-- The refusal in words. -/
def Refusal.message : Refusal → String
  | reserved id => s!"tag id {id} is reserved for the standard catalogue"
  | implicit id => s!"wrapped tag id {id} must be explicit"

/-- The id as one with a written size, if it is one. -/
def ExplicitId.of (id : UInt64) : Except Refusal ExplicitId :=
  if h : 16 ≤ id then .ok ⟨id, h⟩ else .error (.implicit id)

end TagFormat
