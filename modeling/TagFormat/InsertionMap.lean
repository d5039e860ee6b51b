import Std.Data.TreeMap

/-!
# Maps in insertion order

A map that lists its entries in the order in which their keys first came in. Entries stand in
slots, an index tells the slot of each key, and the entries are counted. Removing an entry leaves an
empty slot behind, a tombstone, so that no other entry moves; `compact` drops the tombstones.
-/

namespace TagFormat

/-- A map from `K` to `V` in insertion order. -/
structure InsertionMap (K V : Type) [Ord K] where
  slots : Array (Option (K × V)) := #[]
  /-- The slot of each key. -/
  index : Std.TreeMap K Nat := ∅
  /-- The number of entries. -/
  size : Nat := 0

namespace InsertionMap

variable {K V : Type} [Ord K]

instance : EmptyCollection (InsertionMap K V) := ⟨{}⟩

instance : Inhabited (InsertionMap K V) := ⟨∅⟩

/-- The entries that slots hold, in order. -/
def entries (slots : List (Option (K × V))) : List (K × V) :=
  slots.filterMap id

/-- The entries in order. -/
def toList (m : InsertionMap K V) : List (K × V) :=
  entries m.slots.toList

def isEmpty (m : InsertionMap K V) : Bool :=
  m.size == 0

def keys (m : InsertionMap K V) : List K :=
  m.toList.map Prod.fst

def values (m : InsertionMap K V) : List V :=
  m.toList.map Prod.snd

/-- The number of slots, empty ones included. -/
def slotCount (m : InsertionMap K V) : Nat :=
  m.slots.size

/-- The number of empty slots. -/
def tombstones (m : InsertionMap K V) : Nat :=
  m.slotCount - m.size

def contains (m : InsertionMap K V) (k : K) : Bool :=
  m.index.contains k

/-- The slot of a key, and the value in it. -/
def find? (m : InsertionMap K V) (k : K) : Option (Nat × K × V) :=
  match m.index[k]? with
  | none => none
  | some i =>
    match m.slots[i]? with
    | some (some (key, v)) => some (i, key, v)
    | _ => none

/-- The value of a key. -/
def get? (m : InsertionMap K V) (k : K) : Option V :=
  (m.find? k).map fun found => found.2.2

/-- Sets the value of a key. A key that is there keeps its place, another comes last. -/
def insert (m : InsertionMap K V) (k : K) (v : V) : InsertionMap K V :=
  match m.find? k with
  | some (i, key, _) => { m with slots := m.slots.setIfInBounds i (some (key, v)) }
  | none =>
    { slots := m.slots.push (some (k, v)), index := m.index.insert k m.slots.size
      size := m.size + 1 }

/-- Removes a key and leaves its slot empty. -/
def erase (m : InsertionMap K V) (k : K) : InsertionMap K V :=
  match m.find? k with
  | some (i, _, _) =>
    { slots := m.slots.setIfInBounds i none, index := m.index.erase k, size := m.size - 1 }
  | none => { m with index := m.index.erase k }

/-- Sets the value of a key and tells the one it had. -/
def getThenInsert? (m : InsertionMap K V) (k : K) (v : V) : Option V × InsertionMap K V :=
  (m.get? k, m.insert k v)

/-- Removes a key and tells the value it had. -/
def getThenErase? (m : InsertionMap K V) (k : K) : Option V × InsertionMap K V :=
  (m.get? k, m.erase k)

/-- Changes the value of a key, if it is there, and tells the new one. -/
def modify? (m : InsertionMap K V) (k : K) (f : V → V) : Option V × InsertionMap K V :=
  match m.find? k with
  | some (i, key, v) =>
    (some (f v), { m with slots := m.slots.setIfInBounds i (some (key, f v)) })
  | none => (none, m)

/-- Sets the values of several keys, one after another. -/
def insertMany (m : InsertionMap K V) (l : List (K × V)) : InsertionMap K V :=
  l.foldl (fun m e => m.insert e.1 e.2) m

/-- The map that comes from setting the values of several keys, one after another. -/
def ofList (l : List (K × V)) : InsertionMap K V :=
  (∅ : InsertionMap K V).insertMany l

/-- Drops the tombstones, if there are any. -/
def compact (m : InsertionMap K V) : InsertionMap K V :=
  if m.tombstones = 0 then m
  else
    let live := m.toList
    { slots := (live.map some).toArray
      index := live.zipIdx.foldl (fun index e => index.insert e.1.1 e.2) ∅
      size := m.size }

/-- Two maps are equal when they list the same entries, whatever their tombstones. -/
def beq [BEq K] [BEq V] (m n : InsertionMap K V) : Bool :=
  m.size == n.size && m.toList == n.toList

instance [BEq K] [BEq V] : BEq (InsertionMap K V) := ⟨beq⟩

/-- The entries in braces. -/
def text (key : K → String) (value : V → String) (m : InsertionMap K V) : String :=
  "\x7b" ++ ", ".intercalate (m.toList.map fun e => key e.1 ++ ": " ++ value e.2) ++ "\x7d"

/-! ### Cursors -/

/-- A place in the course of listing the entries. -/
structure Cursor (K V : Type) where
  /-- The slots still to be visited. -/
  rest : List (Option (K × V))
  /-- The number of entries still to come. -/
  left : Nat

/-- The place before the first entry. -/
def cursor (m : InsertionMap K V) : Cursor K V where
  rest := m.slots.toList
  left := m.size

/-- The next entry and the place behind it. -/
def Cursor.next? (c : Cursor K V) : Option ((K × V) × Cursor K V) :=
  go c.rest
where
  /-- Passes over empty slots. -/
  go : List (Option (K × V)) → Option ((K × V) × Cursor K V)
    | [] => none
    | none :: rest => go rest
    | some e :: rest => some (e, { rest, left := c.left - 1 })

/-- The next `n` entries, or as many as there are, and the place behind them. -/
def Cursor.take : (n : Nat) → Cursor K V → List (K × V) × Cursor K V
  | 0, c => ([], c)
  | n + 1, c =>
    match c.next? with
    | none => ([], c)
    | some (e, c) =>
      let (es, c) := c.take n
      (e :: es, c)

end InsertionMap

end TagFormat
