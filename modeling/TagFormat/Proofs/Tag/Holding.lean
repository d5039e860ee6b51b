import TagFormat.Proofs.InsertionMap.Mapped
import TagFormat.Proofs.Output.Writing
import TagFormat.Proofs.Tag.Nesting
import TagFormat.Proofs.Varint.Canonical
import TagFormat.Tag.Codec

/-! # Payloads that hold tags

Arrays, sequences, dictionaries, documents and slots for tags may as well hold other things in the
place of tags (`Holding`). To be written, of each such thing no more need be known than how many
bytes it says it has and how it is written (`Written`); of tags it is what the payload says and
writes (`Holding.written_payload`). If the things have as many bytes as they say, so has what holds
them (`Holding.honest`), and they are written as parts of it (`Holding.within_of_mem`). -/

namespace TagFormat

open Writing

attribute [local simp] Payload.valueSize Tag.size Tag.sizes Tag.entrySizes
attribute [local simp] Payload.writing Tag.writing Tag.writings Tag.entryWritings

/-! ### Lists of tags and entries -/

theorem totalSize_eq_sum (sizes : List Nat) : totalSize sizes = sizes.sum := rfl

namespace Tag

theorem entrySizes_eq (slots : List (Option (String × Tag))) : entrySizes slots =
    ((InsertionMap.entries slots).map fun e => stringSize e.1 + e.2.size).sum := by
  induction slots with
  | nil => simp
  | cons slot slots ih => rcases slot with _ | ⟨key, t⟩ <;> simp [ih]

theorem writings_eq (tags : List Tag) : writings tags = concat (tags.map writing) := by
  induction tags with
  | nil => simp
  | cons t tags ih => simp [ih]

theorem entryWritings_eq (slots : List (Option (String × Tag))) : entryWritings slots =
    concat ((InsertionMap.entries slots).map fun e => stringWriting e.1 ++ e.2.writing) := by
  induction slots with
  | nil => simp
  | cons slot slots ih => rcases slot with _ | ⟨key, t⟩ <;> simp [ih]

theorem writing_mk (id : UInt64) (p : Payload) :
    (mk id p).writing = Header.framing id p.valueSize p.writing := by
  rw [writing]

end Tag

namespace Payload

theorem valueSize_dictionary (m : InsertionMap String Tag) : (dictionary m).valueSize =
    Varint.encodedSize (UInt64.ofNat m.size) +
      (m.toList.map fun e => Tag.stringSize e.1 + e.2.size).sum := by
  obtain ⟨⟨slots⟩, index, count⟩ := m
  rw [valueSize, Tag.entrySizes_eq]
  rfl

theorem writing_dictionary (m : InsertionMap String Tag) : (dictionary m).writing =
    block (Varint.encode (UInt64.ofNat m.size)) ++
      concat (m.toList.map fun e => Tag.stringWriting e.1 ++ e.2.writing) := by
  obtain ⟨⟨slots⟩, index, count⟩ := m
  rw [writing, Tag.entryWritings_eq]
  rfl

theorem writing_stringDictionary (m : InsertionMap String String) : (stringDictionary m).writing =
    block (Varint.encode (UInt64.ofNat m.size)) ++
      concat (m.toList.map fun e => Tag.stringWriting e.1 ++ Tag.stringWriting e.2) := by
  rw [writing]
  rfl

end Payload

/-! ### Numbers, texts and headers -/

theorem Writing.fills_int32 (n : Int32) : (int32 n).Fills 4 := by
  rw [← BigEndian.length_encode 4 n.toUInt32.toNat]
  exact fills_block _

theorem Writing.fills_uint16 (n : UInt16) : (uint16 n).Fills 2 := by
  rw [← BigEndian.length_encode 2 n.toNat]
  exact fills_block _

theorem Writing.fills_varint (n : UInt64) :
    (block (Varint.encode n)).Fills (Varint.encodedSize n) := by
  rw [← Varint.length_encode]
  exact fills_block _

theorem Varint.fills_listWriting (ns : List UInt64) : (listWriting ns).Fills (listSize ns) := by
  intro _
  rw [bytes, listWriting, List.flatten_cons, List.length_append, length_encode, listSize,
    totalSize_eq_sum, List.length_flatten, List.map_map]
  congr 3
  funext n
  exact length_encode n

theorem Header.fills_writing (id size : UInt64) :
    (writing id size).Fills (Header.size id size) := by
  intro _
  rw [writing, Header.size]
  split_ifs
  · simp
  · simp [bytes]

theorem Tag.fills_stringWriting (s : String) : (stringWriting s).Fills (stringSize s) :=
  (Header.fills_writing _ _).append (fills_block _)

theorem Coordinates.fills_writing (c : Coordinates) : c.writing.Fills 8 :=
  (fills_int32 c.lat).append (fills_int32 c.lon)

theorem Point.fills_writing (p : Point) : p.writing.Fills p.size := by
  intro _
  simp [Point.writing, Point.size, bytes]

theorem Header.fills_framing {id : UInt64} {size : Nat} {payload : Writing}
    (h : payload.Fills size) :
    (framing id size payload).Fills (Header.size id (UInt64.ofNat size) + size) := by
  rw [framing]
  cases fault? id size with
  | some error => exact fills_fail _ _
  | none => exact (fills_writing _ _).append h

theorem Header.within_framing {id : UInt64} {size : Nat} {payload : Writing} :
    payload.Within (framing id size payload) := by
  rw [framing]
  cases fault? id size with
  | some error => rintro ⟨⟩
  | none => exact within_append_right _ _

/-- The bytes are a header and then the payload, which is of the size that the header is for. -/
structure Header.Frames (id : UInt64) (size : Nat) (payload bytes : Bytes) : Prop where
  eq : bytes = (writing id (UInt64.ofNat size)).bytes ++ payload
  payload_length : payload.length = size
  length : bytes.length = Header.size id (UInt64.ofNat size) + size

theorem Header.frames_framing {id : UInt64} {size : Nat} {payload : Writing}
    (hp : payload.Fills size) (h : (framing id size payload).failure = none) :
    Frames id size payload.bytes (framing id size payload).bytes := by
  have hl := fills_framing hp h
  rw [framing] at h hl ⊢
  cases hf : fault? id size with
  | some error =>
    rw [hf] at h
    cases h
  | none =>
    rw [hf] at h hl
    obtain ⟨h₁, h₂⟩ := failure_append_eq_none.mp h
    exact ⟨bytes_append h₁, hp h₂, hl⟩

/-! ### What is written -/

/-- What has to be known of a thing to write it: the number of bytes that it says it has, and how it
is written. -/
structure Written where
  size : Nat
  writing : Writing

namespace Written

/-- The thing has as many bytes as it says. -/
def Honest (w : Written) : Prop :=
  w.writing.Fills w.size

/-- The payload under an id. -/
def framed (id : UInt64) (w : Written) : Written where
  size := Header.size id (UInt64.ofNat w.size) + w.size
  writing := Header.framing id w.size w.writing

theorem Honest.framed {w : Written} (h : w.Honest) (id : UInt64) : (w.framed id).Honest :=
  Header.fills_framing h

end Written

/-- What has to be known of a payload. -/
def Payload.written (p : Payload) : Written :=
  ⟨p.valueSize, p.writing⟩

/-- What has to be known of a tag. -/
def Tag.written (t : Tag) : Written :=
  ⟨t.size, t.writing⟩

theorem Tag.written_mk (id : UInt64) (p : Payload) : (mk id p).written = p.written.framed id := by
  rw [written, writing_mk, size]
  rfl

/-! ### What is held -/

/-- What a payload holds that holds tags, with things of any type in their place. -/
inductive Holding (α : Type) where
  | array (items : List α)
  | sequence (items : List α)
  | dictionary (m : InsertionMap String α)
  | document (v : Versioned α)
  | nested (slot : Slot α)

/-- The value in its version, with something else for its body. -/
def Versioned.map {α β : Type} (f : α → β) (v : Versioned α) : Versioned β :=
  ⟨v.version, f v.inner⟩

/-- The slot with something else for its value. -/
def Slot.map {α β : Type} (f : α → β) (slot : Slot α) : Slot β :=
  ⟨slot.id, slot.value.map f⟩

namespace Holding

variable {α β γ : Type}

/-- The payload that holds tags. -/
def payload : Holding Tag → Payload
  | array tags => .tagArray tags
  | sequence tags => .tagSequence tags
  | dictionary m => .dictionary m
  | document v => .document v
  | nested slot => .nested slot

/-- Other things in the same places. -/
def map (f : α → β) : Holding α → Holding β
  | array items => array (items.map f)
  | sequence items => sequence (items.map f)
  | dictionary m => dictionary (m.map f)
  | document v => document (v.map f)
  | nested slot => nested (slot.map f)

/-- The things that are held. -/
def items : Holding α → List α
  | array items | sequence items => items
  | dictionary m => m.values
  | document v => [v.inner]
  | nested slot => slot.value.toList

/-- How what is held is written. -/
def written : Holding Written → Written
  | array ws => ⟨Varint.encodedSize (UInt64.ofNat ws.length) + (ws.map Written.size).sum,
    block (Varint.encode (UInt64.ofNat ws.length)) ++ concat (ws.map Written.writing)⟩
  | sequence ws => ⟨(ws.map Written.size).sum, concat (ws.map Written.writing)⟩
  | dictionary m => ⟨Varint.encodedSize (UInt64.ofNat m.size) +
      (m.toList.map fun e => Tag.stringSize e.1 + e.2.size).sum,
    block (Varint.encode (UInt64.ofNat m.size)) ++
      concat (m.toList.map fun e => Tag.stringWriting e.1 ++ e.2.writing)⟩
  | document v => ⟨2 + v.inner.size, .uint16 Payload.documentVersion ++ v.inner.writing⟩
  | nested ⟨_, none⟩ => ⟨0, .missing Slot.nestedName⟩
  | nested ⟨_, some w⟩ => w

theorem items_payload (h : Holding Tag) : h.payload.children = h.items := by
  cases h <;> rfl

theorem items_map (f : α → β) (h : Holding α) : (h.map f).items = h.items.map f := by
  cases h with
  | dictionary m => exact m.values_map f
  | nested slot => obtain ⟨id, _ | a⟩ := slot <;> rfl
  | _ => rfl

theorem map_congr {f g : α → β} {h : Holding α} (hfg : ∀ a ∈ h.items, f a = g a) :
    h.map f = h.map g := by
  cases h with
  | array items => exact congrArg array (List.map_congr_left hfg)
  | sequence items => exact congrArg sequence (List.map_congr_left hfg)
  | dictionary m => rw [map, map, InsertionMap.map_congr hfg]
  | document v => exact congrArg (fun a => document ⟨v.version, a⟩) (hfg _ List.mem_cons_self)
  | nested slot =>
    obtain ⟨id, _ | a⟩ := slot
    · rfl
    · exact congrArg (fun a => nested ⟨id, some a⟩) (hfg a List.mem_cons_self)

theorem map_map (g : β → γ) (f : α → β) (h : Holding α) : (h.map f).map g = h.map (g ∘ f) := by
  cases h with
  | array | sequence => rw [map, map, map, List.map_map]
  | dictionary m => rw [map, map, map, InsertionMap.map_map]
  | document v => rfl
  | nested slot => obtain ⟨id, _ | a⟩ := slot <;> rfl

/-- **What holds tags** is written as the payload that it is. -/
theorem written_payload (h : Holding Tag) : (h.map Tag.written).written = h.payload.written := by
  cases h with
  | array tags =>
    rw [payload, Payload.written, Payload.valueSize, Payload.writing, Tag.sizes_eq,
      totalSize_eq_sum, Tag.writings_eq, map, written, List.length_map, List.map_map, List.map_map]
    rfl
  | sequence tags =>
    rw [payload, Payload.written, Payload.valueSize, Payload.writing, Tag.sizes_eq,
      totalSize_eq_sum, Tag.writings_eq, map, written, List.map_map, List.map_map]
    rfl
  | dictionary m =>
    rw [payload, Payload.written, Payload.valueSize_dictionary, Payload.writing_dictionary, map,
      written, InsertionMap.toList_map, InsertionMap.size_map, List.map_map, List.map_map]
    rfl
  | document v =>
    rw [payload, Payload.written, Payload.valueSize, Payload.writing]
    rfl
  | nested slot =>
    obtain ⟨id, _ | t⟩ := slot
    · rfl
    · rw [payload, Payload.written, Payload.valueSize, Payload.writing]
      rfl

/-- **What is held has as many bytes as it says** if the things in it have. -/
theorem honest {h : Holding Written} (hw : ∀ w ∈ h.items, w.Honest) : h.written.Honest := by
  cases h with
  | array ws => exact (fills_varint _).append (fills_concat hw)
  | sequence ws => exact fills_concat hw
  | dictionary m =>
    refine (fills_varint _).append (fills_concat fun e he => ?_)
    exact (Tag.fills_stringWriting _).append (hw e.2 (List.mem_map_of_mem he))
  | document v => exact (fills_uint16 _).append (hw v.inner (List.mem_singleton_self _))
  | nested slot =>
    obtain ⟨id, _ | w⟩ := slot
    · exact fills_fail _ _
    · exact hw w (List.mem_singleton_self _)

/-- **The things in it** are written as parts of what is held. -/
theorem within_of_mem {h : Holding Written} {w : Written} (hw : w ∈ h.items) :
    w.writing.Within h.written.writing := by
  cases h with
  | array ws => exact (within_concat (List.mem_map_of_mem hw)).trans (within_append_right _ _)
  | sequence ws => exact within_concat (List.mem_map_of_mem hw)
  | dictionary m =>
    obtain ⟨e, he, rfl⟩ := List.mem_map.mp hw
    have hv : e.2.writing.Within (Tag.stringWriting e.1 ++ e.2.writing) := within_append_right _ _
    refine hv.trans (.trans ?_ (within_append_right _ _))
    exact within_concat (List.mem_map_of_mem he)
  | document v =>
    obtain rfl := List.mem_singleton.mp hw
    exact within_append_right _ _
  | nested slot =>
    obtain ⟨id, _ | w⟩ := slot
    · exact absurd hw List.not_mem_nil
    · obtain rfl := List.mem_singleton.mp hw
      exact .refl _

/-! ### Tags that are held -/

theorem fills_payload (h : Holding Tag) (ht : ∀ u ∈ h.payload.children, u.writing.Fills u.size) :
    h.payload.writing.Fills h.payload.valueSize := by
  have hhonest : (h.map Tag.written).written.Honest := honest (by
    rw [items_map, List.forall_mem_map, ← items_payload]
    exact ht)
  rwa [written_payload] at hhonest

theorem within_payload (h : Holding Tag) {u : Tag} (hu : u ∈ h.payload.children) :
    u.writing.Within h.payload.writing := by
  have hmem : u.written ∈ (h.map Tag.written).items := by
    rw [items_map, ← items_payload]
    exact List.mem_map_of_mem hu
  have hwithin := within_of_mem hmem
  rwa [written_payload] at hwithin

end Holding

end TagFormat
