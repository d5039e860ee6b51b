import Mathlib.Data.List.Forall2
import TagFormat.Proofs.Tag.Size

/-! # The form of a tag on the wire

The bytes of a tag are fixed but for those of truth values, where any byte but zero stands for
`true`. The form of a tag is the list of its `cells`, each of which admits one byte or, for a truth
value, some; a versioned payload has the form of the version that it was read in. A tag that can be
written, and is in the current version all through, is written in its form, with one for `true`
(`Tag.bytes_writing`). -/

namespace TagFormat

/-! ### Cells -/

/-- What a byte on the wire has to be. -/
inductive Cell where
  | exact (b : UInt8)
  /-- Zero for `false`, any other byte for `true`. -/
  | truth (b : Bool)
deriving DecidableEq

namespace Cell

/-- The bytes that may stand in a cell. -/
def Admits : Cell → UInt8 → Prop
  | exact b, c => c = b
  | truth b, c => (c != 0) = b

/-- The byte that is written into a cell. -/
def byte : Cell → UInt8
  | exact b => b
  | truth b => if b then 1 else 0

/-- The cells of bytes that are fixed. -/
def exacts (bytes : Bytes) : List Cell :=
  bytes.map exact

/-- The bytes are such as the cells admit, one for each. -/
def Spells (cells : List Cell) (c : Bytes) : Prop :=
  List.Forall₂ Admits cells c

theorem admits_byte (cell : Cell) : cell.Admits cell.byte := by
  cases cell with
  | exact b => rfl
  | truth b => cases b <;> rfl

/-- Where a cell admits two bytes, it is one of a truth value, and neither byte is zero. -/
theorem Admits.eq_or {cell : Cell} {b c : UInt8} (hb : cell.Admits b) (hc : cell.Admits c) :
    b = c ∨ cell = truth true ∧ b ≠ 0 ∧ c ≠ 0 := by
  cases cell with
  | exact d => exact .inl (Eq.trans hb (Eq.symm hc))
  | truth v =>
    cases v with
    | false => exact .inl ((bne_eq_false_iff_eq.mp hb).trans (bne_eq_false_iff_eq.mp hc).symm)
    | true => exact .inr ⟨rfl, bne_iff_ne.mp hb, bne_iff_ne.mp hc⟩

@[simp] theorem exacts_nil : exacts [] = [] := rfl

@[simp] theorem length_exacts (b : Bytes) : (exacts b).length = b.length :=
  List.length_map _

theorem exacts_append (a b : Bytes) : exacts (a ++ b) = exacts a ++ exacts b :=
  List.map_append

@[simp] theorem map_byte_exacts (b : Bytes) : (exacts b).map byte = b := by
  rw [exacts, List.map_map]
  exact List.map_id b

theorem map_byte_flatMap {α : Type} {f : α → List Cell} {g : α → Bytes} : ∀ {l : List α},
    (∀ e ∈ l, g e = (f e).map byte) → l.flatMap g = (l.flatMap f).map byte
  | [], _ => rfl
  | e :: l, h => by
    obtain ⟨he, hl⟩ := List.forall_mem_cons.mp h
    rw [List.flatMap_cons, List.flatMap_cons, List.map_append, he, map_byte_flatMap hl]

theorem spells_map_byte (cells : List Cell) : Spells cells (cells.map byte) :=
  List.forall₂_map_right_iff.mpr (List.forall₂_same.mpr fun cell _ => admits_byte cell)

theorem Spells.length_eq {cells : List Cell} {c : Bytes} (h : Spells cells c) :
    cells.length = c.length :=
  List.Forall₂.length_eq h

@[simp] theorem spells_nil {c : Bytes} : Spells [] c ↔ c = [] :=
  List.forall₂_nil_left_iff

@[simp] theorem spells_exacts : ∀ {b c : Bytes}, Spells (exacts b) c ↔ c = b
  | [], c => spells_nil
  | b :: bs, c => by
    rw [exacts, List.map_cons, Spells, List.forall₂_cons_left_iff]
    constructor
    · rintro ⟨_, cs, rfl, hs, rfl⟩
      rw [spells_exacts.mp hs]
    · rintro rfl
      exact ⟨b, bs, rfl, spells_exacts.mpr rfl, rfl⟩

theorem spells_truth {v : Bool} {c : Bytes} : Spells [truth v] c ↔ ∃ b, c = [b] ∧ (b != 0) = v := by
  rw [Spells, List.forall₂_cons_left_iff]
  constructor
  · rintro ⟨b, cs, hb, hs, rfl⟩
    rw [List.forall₂_nil_left_iff.mp hs]
    exact ⟨b, rfl, hb⟩
  · rintro ⟨b, rfl, hb⟩
    exact ⟨b, [], hb, List.Forall₂.nil, rfl⟩

theorem spells_append {x y : List Cell} {c : Bytes} :
    Spells (x ++ y) c ↔ ∃ c₁ c₂, c = c₁ ++ c₂ ∧ Spells x c₁ ∧ Spells y c₂ := by
  constructor
  · intro h
    refine ⟨c.take x.length, c.drop x.length, (List.take_append_drop _ _).symm, ?_, ?_⟩
    · have := List.forall₂_take x.length h
      rwa [List.take_left] at this
    · have := List.forall₂_drop x.length h
      rwa [List.drop_left] at this
  · rintro ⟨c₁, c₂, rfl, h₁, h₂⟩
    exact List.rel_append h₁ h₂

/-- Bytes that are fixed in a form stand in all its spellings. -/
theorem Spells.infix {cells : List Cell} {b c : Bytes} (h : Spells cells c)
    (hb : exacts b <:+: cells) : b <:+: c := by
  obtain ⟨x, y, rfl⟩ := hb
  obtain ⟨_, c₃, rfl, h₁₂, -⟩ := spells_append.mp h
  obtain ⟨c₁, c₂, rfl, -, h₂⟩ := spells_append.mp h₁₂
  obtain rfl := spells_exacts.mp h₂
  exact ⟨c₁, c₃, rfl⟩

/-- Two spellings of one form differ only where a cell is one of a truth value. -/
theorem Spells.getElem_eq_or {cells : List Cell} {a b : Bytes} (ha : Spells cells a)
    (hb : Spells cells b) {i : Nat} (h₁ : i < a.length) (h₂ : i < b.length) :
    a[i] = b[i] ∨ cells[i]? = some (truth true) ∧ a[i] ≠ 0 ∧ b[i] ≠ 0 := by
  have hi : i < cells.length := by rw [ha.length_eq]; exact h₁
  have h := (ha.get hi h₁).eq_or (hb.get hi h₂)
  rw [List.getElem?_eq_getElem hi]
  simpa using h

end Cell

open Cell Writing

/-! ### The form of tags -/

/-- The bytes of a header. -/
def Header.bytes (id : UInt64) (size : Nat) : Bytes :=
  (writing id (UInt64.ofNat size)).bytes

/-- The bytes of text in a tag of its own. -/
def Tag.stringBytes (s : String) : Bytes :=
  (stringWriting s).bytes

mutual

/-- The form of a payload. -/
def Payload.cells : Payload → List Cell
  | .bool b => [.truth b]
  | .tagArray tags => exacts (Varint.encode (UInt64.ofNat tags.length)) ++ Tag.allCells tags
  | .tagSequence tags => Tag.allCells tags
  | .dictionary ⟨⟨slots⟩, _, count⟩ =>
    exacts (Varint.encode (UInt64.ofNat count)) ++ Tag.entryCells slots
  | .point v =>
    -- points of the first version have no second coordinate
    exacts (BigEndian.encode 2 v.version.toNat ++ Varint.encode v.inner.x ++
      if v.version < 2 then [] else Varint.encode v.inner.y)
  | .document ⟨version, t⟩ => exacts (BigEndian.encode 2 version.toNat) ++ t.cells
  | .nested ⟨_, some t⟩ => t.cells
  | p => exacts p.writing.bytes
termination_by structural p => p

/-- The form of a tag. -/
def Tag.cells : Tag → List Cell
  | .mk id p => exacts (Header.bytes id p.cells.length) ++ p.cells
termination_by structural t => t

/-- The form of tags one after another. -/
def Tag.allCells : List Tag → List Cell
  | [] => []
  | t :: tags => t.cells ++ Tag.allCells tags
termination_by structural tags => tags

/-- The form of the entries of a dictionary. -/
def Tag.entryCells : List (Option (String × Tag)) → List Cell
  | [] => []
  | none :: slots => Tag.entryCells slots
  | some (key, t) :: slots => exacts (Tag.stringBytes key) ++ t.cells ++ Tag.entryCells slots
termination_by structural slots => slots

end

attribute [local simp] Payload.cells Tag.cells Tag.allCells Tag.entryCells

theorem Tag.failure_stringWriting (s : String) : (stringWriting s).failure = none := by
  rw [stringWriting, Writing.failure_append_eq_none, Header.writing]
  split_ifs <;> exact ⟨rfl, rfl⟩

namespace Tag

theorem cells_mk (id : UInt64) (p : Payload) :
    (mk id p).cells = exacts (Header.bytes id p.cells.length) ++ p.cells := by
  rw [cells]

theorem allCells_eq (tags : List Tag) : allCells tags = tags.flatMap cells := by
  induction tags with
  | nil => simp
  | cons t tags ih => simp [ih]

theorem entryCells_eq (slots : List (Option (String × Tag))) : entryCells slots =
    (InsertionMap.entries slots).flatMap fun e => exacts (stringBytes e.1) ++ e.2.cells := by
  induction slots with
  | nil => simp
  | cons slot slots ih => rcases slot with _ | ⟨key, t⟩ <;> simp [ih]

end Tag

namespace Payload

theorem cells_tagArray (tags : List Tag) : (tagArray tags).cells =
    exacts (Varint.encode (UInt64.ofNat tags.length)) ++ tags.flatMap Tag.cells := by
  rw [cells, Tag.allCells_eq]

theorem cells_tagSequence (tags : List Tag) :
    (tagSequence tags).cells = tags.flatMap Tag.cells := by
  rw [cells, Tag.allCells_eq]

theorem cells_dictionary (m : InsertionMap String Tag) : (dictionary m).cells =
    exacts (Varint.encode (UInt64.ofNat m.size)) ++
      m.toList.flatMap fun e => exacts (Tag.stringBytes e.1) ++ e.2.cells := by
  obtain ⟨⟨slots⟩, index, count⟩ := m
  rw [cells, Tag.entryCells_eq]
  rfl

theorem cells_stringDictionary (m : InsertionMap String String) : (stringDictionary m).cells =
    exacts (Varint.encode (UInt64.ofNat m.size)) ++
      m.toList.flatMap fun e => exacts (Tag.stringBytes e.1) ++ exacts (Tag.stringBytes e.2) := by
  change exacts (stringDictionary m).writing.bytes = _
  have hf : ∀ e ∈ m.toList, (Tag.stringWriting e.1 ++ Tag.stringWriting e.2).failure = none :=
    fun e _ => failure_append_eq_none.mpr
      ⟨Tag.failure_stringWriting e.1, Tag.failure_stringWriting e.2⟩
  rw [writing_stringDictionary, bytes_append rfl, bytes_block, bytes_concat hf, exacts_append]
  congr 1
  rw [exacts, List.map_flatMap]
  refine List.flatMap_congr fun e _ => ?_
  rw [bytes_append (Tag.failure_stringWriting e.1), List.map_append]
  rfl

theorem cells_document (v : Versioned Tag) :
    (document v).cells = exacts (BigEndian.encode 2 v.version.toNat) ++ v.inner.cells := by
  obtain ⟨version, t⟩ := v
  rw [cells]

end Payload

/-! ### What is written -/

/-- The payload is a versioned one of the version in which it is written, or not versioned. -/
def Payload.IsCurrent : Payload → Prop
  | .point v => v.version = Point.currentVersion
  | .document v => v.version = documentVersion
  | _ => True

theorem Point.bytes_writing (p : Point) :
    p.writing.bytes = Varint.encode p.x ++ Varint.encode p.y := by
  rw [writing, Writing.bytes]
  simp

theorem Payload.bytes_writing {p : Payload} (hp : p.IsCurrent) (hf : p.writing.failure = none)
    (h : ∀ u ∈ p.children, u.writing.failure = none → u.writing.bytes = u.cells.map byte) :
    p.writing.bytes = p.cells.map byte := by
  cases p with
  | bool b => cases b <;> rfl
  | tagArray tags =>
    rw [writing, Tag.writings_eq] at hf ⊢
    obtain ⟨h₁, h₂⟩ := failure_append_eq_none.mp hf
    rw [failure_concat_eq_none] at h₂
    rw [bytes_append h₁, bytes_block, bytes_concat h₂, cells_tagArray, List.map_append,
      map_byte_exacts, map_byte_flatMap fun u (hu : u ∈ tags) => h u hu (h₂ u hu)]
  | tagSequence tags =>
    rw [writing, Tag.writings_eq] at hf ⊢
    rw [failure_concat_eq_none] at hf
    rw [bytes_concat hf, cells_tagSequence,
      map_byte_flatMap fun u (hu : u ∈ tags) => h u hu (hf u hu)]
  | dictionary m =>
    rw [writing_dictionary] at hf ⊢
    obtain ⟨h₁, h₂⟩ := failure_append_eq_none.mp hf
    rw [failure_concat_eq_none] at h₂
    rw [bytes_append h₁, bytes_block, bytes_concat h₂, cells_dictionary, List.map_append,
      map_byte_exacts, map_byte_flatMap fun e he => ?_]
    obtain ⟨hk, hv⟩ := failure_append_eq_none.mp (h₂ e he)
    rw [bytes_append hk, List.map_append, map_byte_exacts, h e.2 (List.mem_map_of_mem he) hv]
    rfl
  | point v =>
    have hv : ¬v.version < 2 := by
      rw [show v.version = 2 from hp]
      decide
    rw [writing, bytes_append (by rfl), Point.bytes_writing, cells, map_byte_exacts, if_neg hv,
      List.append_assoc, show v.version = Point.currentVersion from hp, Writing.uint16,
      bytes_block]
  | document v =>
    have hv : v.version = documentVersion := hp
    rw [writing] at hf ⊢
    obtain ⟨h₁, h₂⟩ := failure_append_eq_none.mp hf
    rw [bytes_append h₁, h v.inner (List.mem_singleton_self _) h₂, cells_document, List.map_append,
      map_byte_exacts, hv, Writing.uint16, bytes_block]
  | nested slot =>
    obtain ⟨id, _ | t⟩ := slot
    · cases hf
    · rw [writing] at hf ⊢
      rw [cells]
      exact h t (List.mem_singleton_self _) hf
  | _ => exact (map_byte_exacts _).symm

theorem Tag.failure_writing_eq_none {t : Tag} : t.writing.failure = none ↔
    Header.fault? t.id t.valueSize = none ∧ t.payload.writing.failure = none := by
  obtain ⟨id, p⟩ := t
  rw [writing_mk, Header.framing, valueSize, id_mk, payload_mk]
  cases Header.fault? id p.valueSize with
  | some error => simp
  | none =>
    rw [failure_append_eq_none, Header.writing]
    split_ifs <;> simp

/-- **What is written** has the form of the tag, if the tag is current all through. -/
theorem Tag.bytes_writing : ∀ t : Tag, (∀ u : Tag, u.Inside t → u.payload.IsCurrent) →
    t.writing.failure = none → t.writing.bytes = t.cells.map byte := by
  refine Tag.induction fun t ih hc hf => ?_
  obtain ⟨hp, hc⟩ := Tag.forall_inside_iff.mp hc
  have hb := Payload.bytes_writing hp (failure_writing_eq_none.mp hf).2
    fun u hu => ih u hu (hc u hu)
  have hl := (Tag.frames hf).payload_length
  rw [(Tag.frames hf).eq, hb]
  rw [hb, List.length_map] at hl
  obtain ⟨id, p⟩ := t
  rw [cells_mk, List.map_append, map_byte_exacts, Header.bytes, payload_mk, id_mk, ← hl]
  rfl

/-- **A tag has as many cells as it has bytes**, if it is current all through. -/
theorem Tag.length_cells {t : Tag} (hc : ∀ u : Tag, u.Inside t → u.payload.IsCurrent)
    (hf : t.writing.failure = none) : t.cells.length = t.size := by
  rw [← t.fills hf, t.bytes_writing hc hf, List.length_map]

end TagFormat
