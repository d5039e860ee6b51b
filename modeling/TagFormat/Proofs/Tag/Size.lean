import TagFormat.Proofs.Tag.Holding

/-! # Tags have as many bytes as they say

Sizes are computed by a recursion of their own, apart from the one that writes. The two agree for
every tag, whatever its id and its payload (`Tag.fills`), and what is inside a tag is written as a
part of it (`Tag.Inside.within`). Values under codecs and bodies of any type have as many bytes as
they say if their codec or body is honest. -/

namespace TagFormat

open Writing

/-! ### Codecs and bodies -/

section Codec

variable {α : Type}

/-- Values have as many bytes as the codec says. -/
def Codec.Honest (c : Codec α) : Prop :=
  ∀ a, (c.writing a).Fills (c.size a)

/-- Values have as many bytes as the body says. -/
def Body.Honest (b : Body α) : Prop :=
  ∀ a, (b.writing a).Fills (b.size a)

theorem Codec.Honest.fills_valueWriting {c : Codec α} (h : c.Honest) (slot : Slot α) :
    (c.valueWriting slot).Fills (c.valueSize slot) := by
  rw [valueWriting, valueSize]
  cases slot.value with
  | none => exact fills_fail _ _
  | some a => exact h a

theorem Body.Honest.fills_versionedWriting {b : Body α} (h : b.Honest) (v : Versioned α) :
    (b.versionedWriting v).Fills (b.versionedSize v) :=
  (fills_uint16 b.current).append (h v.inner)

/-- What has to be known of the value in a slot to write it. -/
def Codec.written (c : Codec α) (slot : Slot α) : Written :=
  ⟨c.valueSize slot, c.valueWriting slot⟩

/-- What has to be known of a versioned value to write it. -/
def Body.written (b : Body α) (v : Versioned α) : Written :=
  ⟨b.versionedSize v, b.versionedWriting v⟩

theorem Codec.Honest.written {c : Codec α} (h : c.Honest) (slot : Slot α) :
    (c.written slot).Honest :=
  h.fills_valueWriting slot

theorem Body.Honest.written {b : Body α} (h : b.Honest) (v : Versioned α) :
    (b.written v).Honest :=
  h.fills_versionedWriting v

theorem Codec.honest_coordinates : Codec.coordinates.Honest :=
  Coordinates.fills_writing

theorem Codec.honest_fixed (width : Nat) : (Codec.fixed width).Honest :=
  fills_block

theorem Codec.honest_text : Codec.text.Honest :=
  fun s => fills_block (Utf8.encode s)

theorem Body.honest_point : Body.point.Honest :=
  Point.fills_writing

end Codec

/-! ### Payloads and tags -/

theorem Payload.fills_writing (p : Payload) (h : ∀ u ∈ p.children, u.writing.Fills u.size) :
    p.writing.Fills p.valueSize := by
  cases p with
  | null => exact fills_empty
  | bool | uint8 | int8 | uint16 | int16 | uint32 | int32 | uint64 | int64 | float32 | float64
  | float128 => exact fun _ => by simp [writing, valueSize, Scalar.encode]
  | varint n => exact fills_varint n
  | signedVarint n => exact fills_varint _
  | bytes | string | bigInt => exact fills_block _
  | bigDecimal d => exact (fills_block _).append (fills_int32 _)
  | varintArray ns => exact Varint.fills_listWriting ns
  | oid o => exact Varint.fills_listWriting o.arcs
  | tagArray tags => exact Holding.fills_payload (.array tags) h
  | tagSequence tags => exact Holding.fills_payload (.sequence tags) h
  | range r => exact (fills_varint _).append (fills_uint16 _)
  | version v =>
    exact (((fills_int32 _).append (fills_int32 _)).append (fills_int32 _)).append (fills_int32 _)
  | dictionary m => exact Holding.fills_payload (.dictionary m) h
  | stringDictionary m =>
    rw [writing_stringDictionary, valueSize, totalSize_eq_sum]
    refine (fills_varint _).append (fills_concat fun e he => ?_)
    exact (Tag.fills_stringWriting _).append (Tag.fills_stringWriting _)
  | point v => exact Body.honest_point.fills_versionedWriting v
  | document v => exact Holding.fills_payload (.document v) h
  | coordinates slot =>
    obtain ⟨id, _ | c⟩ := slot
    · exact fills_fail _ _
    · exact Coordinates.fills_writing c
  | fixed width slot =>
    obtain ⟨id, _ | b⟩ := slot
    · exact fills_fail _ _
    · exact fills_block b
  | text slot =>
    obtain ⟨id, _ | s⟩ := slot
    · exact fills_fail _ _
    · exact fills_block _
  | nested slot => exact Holding.fills_payload (.nested slot) h

/-- **A tag has as many bytes as it says**, if it can be written. -/
theorem Tag.fills (t : Tag) : t.writing.Fills t.size := by
  refine Tag.induction (motive := fun t => t.writing.Fills t.size) (fun t h => ?_) t
  obtain ⟨id, p⟩ := t
  rw [writing, size]
  exact Header.fills_framing (p.fills_writing h)

/-! ### Bytes of tags inside tags -/

theorem Payload.within_of_mem {p : Payload} {u : Tag} (h : u ∈ p.children) :
    u.writing.Within p.writing := by
  cases p with
  | tagArray tags => exact Holding.within_payload (.array tags) h
  | tagSequence tags => exact Holding.within_payload (.sequence tags) h
  | dictionary m => exact Holding.within_payload (.dictionary m) h
  | document v => exact Holding.within_payload (.document v) h
  | nested slot => exact Holding.within_payload (.nested slot) h
  | _ => exact absurd h List.not_mem_nil

theorem Tag.within_of_mem {t u : Tag} (h : u ∈ t.children) : u.writing.Within t.writing := by
  obtain ⟨id, p⟩ := t
  rw [writing_mk]
  exact (Payload.within_of_mem h).trans Header.within_framing

/-- **What is inside a tag** is written as a part of it. -/
theorem Tag.Inside.within {u t : Tag} (h : u.Inside t) : u.writing.Within t.writing := by
  induction h with
  | self => exact .refl _
  | child hv _ ih => exact ih.trans (Tag.within_of_mem hv)

theorem Tag.frames {t : Tag} (h : t.writing.failure = none) :
    Header.Frames t.id t.valueSize t.payload.writing.bytes t.writing.bytes := by
  obtain ⟨id, p⟩ := t
  rw [writing_mk] at h ⊢
  exact Header.frames_framing (p.fills_writing fun u _ => u.fills) h

end TagFormat
