import TagFormat.Proofs.Registry.Accepts
import TagFormat.Proofs.Registry.Locality

/-! # Reading what was written, and writing what was read

A well-formed tag is read back from its own bytes, whatever follows them (`read_writing`). Bytes
that are read as a tag of the current version are those of the tag, but for the bytes of truth
values (`writing_read`). Both come of this: a registry reads a tag from exactly the bytes that spell
it (`Registry.readsBy`). -/

namespace TagFormat

open Cell

/-! ### Tags that hold plain bytes -/

namespace Tag

variable {u t : Tag} {bytes : Bytes}

theorem cells_of_bytes (h : u.payload = .bytes bytes) :
    u.cells = exacts (Header.bytes u.id bytes.length ++ bytes) := by
  obtain ⟨id, p⟩ := u
  obtain rfl : p = .bytes bytes := h
  have hp : (Payload.bytes bytes).cells = exacts bytes := Payload.cells_of_block rfl rfl
  rw [cells_mk, hp, length_exacts, exacts_append]
  rfl

theorem bytes_writing_of_bytes (h : u.payload = .bytes bytes) (hf : u.writing.failure = none) :
    u.writing.bytes = Header.bytes u.id bytes.length ++ bytes := by
  have hc : ∀ v : Tag, v.Inside u → v.payload.IsCurrent := by
    refine Tag.forall_inside_iff.mpr ⟨?_, fun v hv => ?_⟩
    · rw [h]
      exact trivial
    · rw [children, h] at hv
      exact absurd hv List.not_mem_nil
  rw [u.bytes_writing hc hf, cells_of_bytes h, map_byte_exacts]

/-- Wherever the bytes spell `t`, they hold those of a tag inside it that holds plain bytes. -/
theorem StandsAt.prefix_of_bytes {n : Nat} (hu : u.StandsAt n t) (h : u.payload = .bytes bytes)
    {c : Bytes} (hc : Spells t.cells c) : Header.bytes u.id bytes.length ++ bytes <+: c.drop n := by
  obtain ⟨part, hp, hs⟩ := hu.spells hc
  rw [cells_of_bytes h, spells_exacts] at hs
  rwa [hs] at hp

/-- Two spellings of a tag differ only in bytes of truth values. -/
theorem getElem_eq_or {a b : Bytes} (ha : Spells t.cells a) (hb : Spells t.cells b) {i : Nat}
    (h₁ : i < a.length) (h₂ : i < b.length) :
    a[i] = b[i] ∨ t.HasTruthAt i ∧ a[i] ≠ 0 ∧ b[i] ≠ 0 := by
  rw [hasTruthAt_iff]
  exact ha.getElem_eq_or hb h₁ h₂

theorem HasTruthAt.getElem_eq_one {i : Nat} (h : t.HasTruthAt i)
    (hi : i < (t.cells.map byte).length) : (t.cells.map byte)[i] = 1 := by
  obtain ⟨_, hc⟩ := List.getElem?_eq_some_iff.mp (hasTruthAt_iff.mp h)
  rw [List.getElem_map, hc]
  rfl

end Tag

namespace Registry

variable {r : Registry} {t : Tag} {b : Bytes}

/-- Tags are parsed from the bytes that spell them. -/
theorem parse_eq_ok_iff : r.parse b = .ok t ↔ r.Accepts r.levels t ∧ Spells t.cells b :=
  parseWith_eq_ok_iff_yields.trans ((r.readsBy r.levels).tag none b t)

/-! ### Reading what was written -/

/-- **What is written is read back.** A well-formed tag can be written, into as many bytes as it
says. A source that starts with these bytes gives the tag again, after exactly as many bytes,
whatever follows and however the source delivers. It is the same tag but for the traces of removals
in its dictionaries, and the very same where there are none. -/
theorem read_writing (h : r.WellFormed t) : ∃ bytes, t.toBytes = .ok bytes ∧
    bytes.length = t.size ∧ r.parse bytes = .ok t.compact ∧
    (∀ (s : Source) (rest : Bytes), s.rest = bytes ++ rest →
      r.read.run [] s = (.ok t.compact, s.advance bytes.length)) ∧
    ((∀ u : Tag, u.Inside t → u.payload.IsBuilt) → t.compact = t) := by
  have hf := h.failure_writing
  have hc : t.compact.cells = t.cells := t.cells_compact fun u hu => (h.inside u hu).sound
  have hs : Spells t.compact.cells t.writing.bytes := by
    rw [hc, t.bytes_writing (fun u hu => (h.inside u hu).current) hf]
    exact spells_map_byte t.cells
  refine ⟨t.writing.bytes, ?_, t.fills hf, parse_eq_ok_iff.mpr ⟨h.accepts, hs⟩, ?_,
    t.compact_eq_self⟩
  · rw [Tag.toBytes, Writing.toBytes, hf]
  · intro s rest hrest
    have hnil : ∀ stop ∈ ([] : List Nat), s.pos ≤ stop := List.forall_mem_nil _
    refine (Reading.run_eq_ok_iff hnil).mpr ⟨_, ?_, rfl, List.forall_mem_nil _, ?_⟩
    · rw [hrest, List.length_append]
      exact Nat.le_add_right _ _
    · rw [hrest, List.take_left]
      exact ((r.readsBy r.levels).tag _ _ _).mpr ⟨h.accepts, hs⟩

/-- An array with a truth value and bytes under a free id, with a byte behind it. -/
theorem read_writing_array :
    WellFormed { settings := { unknown := .permissive } }
      (.mk 21 (.tagArray [.mk 1 (.bool true), .mk 40 (.bytes [9])])) ∧
    (Tag.mk 21 (.tagArray [.mk 1 (.bool true), .mk 40 (.bytes [9])])).toBytes =
      .ok [21, 6, 2, 1, 1, 40, 1, 9] ∧
    (read { settings := { unknown := .permissive } }).run []
        { rest := [21, 6, 2, 1, 1, 40, 1, 9, 5] } =
      (.ok (.mk 21 (.tagArray [.mk 1 (.bool true), .mk 40 (.bytes [9])])),
        { rest := [5], pos := 8 }) := by
  have hw : WellFormed { settings := { unknown := .permissive } }
      (.mk 21 (.tagArray [.mk 1 (.bool true), .mk 40 (.bytes [9])])) := by
    refine ⟨by cbv, Tag.forall_inside_iff.mpr ⟨?_, ?_⟩⟩
    · exact ⟨rfl, fun _ => by cbv, trivial, trivial, trivial⟩
    refine List.forall_mem_cons.mpr ⟨Tag.forall_inside_iff.mpr ⟨?_, List.forall_mem_nil _⟩,
      List.forall_mem_singleton.mpr (Tag.forall_inside_iff.mpr ⟨?_, List.forall_mem_nil _⟩)⟩
    · exact ⟨rfl, fun h => absurd h (by decide), trivial, trivial, trivial⟩
    · exact ⟨rfl, fun _ => by cbv, trivial, trivial, trivial⟩
  have hbytes : (Tag.mk 21 (.tagArray [.mk 1 (.bool true), .mk 40 (.bytes [9])])).toBytes =
      .ok [21, 6, 2, 1, 1, 40, 1, 9] := by cbv
  obtain ⟨bytes, hb, -, -, hread, -⟩ := read_writing hw
  obtain rfl := Except.ok.inj (hb.symm.trans hbytes)
  exact ⟨hw, hbytes, hread { rest := [21, 6, 2, 1, 1, 40, 1, 9, 5] } [5] rfl⟩

/-! ### Writing what was read -/

/-- **What is read is written back.** A tag that was parsed, with everything inside it in the
current version, is written into as many bytes as it was parsed from. They are the same bytes, but
for those of truth values, where any byte but zero comes back as one; so a tag inside that holds
plain bytes comes back as it was, at its place. In whatever versions, two strings of bytes that are
parsed as one tag differ only in bytes of truth values. -/
theorem writing_read (h : r.parse b = .ok t) :
    ((∀ u : Tag, u.Inside t → u.payload.IsCurrent) → ∃ bytes, t.toBytes = .ok bytes ∧
      bytes.length = b.length ∧ bytes.length = t.size ∧
      (∀ (i : Nat) (h₁ : i < bytes.length) (h₂ : i < b.length),
        bytes[i] = b[i] ∨ t.HasTruthAt i ∧ b[i] ≠ 0 ∧ bytes[i] = 1) ∧
      ∀ (u : Tag) (kept : Bytes), u.Inside t → u.payload = .bytes kept → ∃ n part,
        u.StandsAt n t ∧ u.toBytes = .ok part ∧ part <+: b.drop n ∧ part <+: bytes.drop n) ∧
    ∀ b', r.parse b' = .ok t → b'.length = b.length ∧
      ∀ (i : Nat) (h₁ : i < b'.length) (h₂ : i < b.length),
        b'[i] = b[i] ∨ t.HasTruthAt i ∧ b'[i] ≠ 0 ∧ b[i] ≠ 0 := by
  obtain ⟨ha, hb⟩ := parse_eq_ok_iff.mp h
  refine ⟨fun hc => ?_, fun b' h' => ?_⟩
  · have hf := ha.failure_writing
    have hw : t.writing.bytes = t.cells.map byte := t.bytes_writing hc hf
    have hs : Spells t.cells t.writing.bytes := by
      rw [hw]
      exact spells_map_byte t.cells
    refine ⟨t.writing.bytes, ?_, hs.length_eq.symm.trans hb.length_eq, t.fills hf, ?_, ?_⟩
    · rw [Tag.toBytes, Writing.toBytes, hf]
    · intro i h₁ h₂
      rcases Tag.getElem_eq_or hs hb h₁ h₂ with he | ⟨ht, -, hne⟩
      · exact .inl he
      · right
        refine ⟨ht, hne, ?_⟩
        simp only [hw]
        exact ht.getElem_eq_one _
    · intro u kept hu hk
      obtain ⟨n, hn⟩ := hu.exists_standsAt
      have hfu := (hu.within hf).1
      refine ⟨n, _, hn, ?_, hn.prefix_of_bytes hk hb, hn.prefix_of_bytes hk hs⟩
      rw [Tag.toBytes, Writing.toBytes, hfu, Tag.bytes_writing_of_bytes hk hfu]
  · have hs := (parse_eq_ok_iff.mp h').2
    exact ⟨hs.length_eq.symm.trans hb.length_eq, fun i h₁ h₂ => Tag.getElem_eq_or hs hb h₁ h₂⟩

/-- The same with another byte for `true`, which comes back as one. -/
theorem writing_read_array :
    parse { settings := { unknown := .permissive } } [21, 6, 2, 1, 7, 40, 1, 9] =
      .ok (.mk 21 (.tagArray [.mk 1 (.bool true), .mk 40 (.bytes [9])])) ∧
    (∃ bytes : Bytes,
      (Tag.mk 21 (.tagArray [.mk 1 (.bool true), .mk 40 (.bytes [9])])).toBytes = .ok bytes ∧
      bytes = [21, 6, 2, 1, 1, 40, 1, 9] ∧ bytes.length = 8) ∧
    (Tag.mk 21 (.tagArray [.mk 1 (.bool true), .mk 40 (.bytes [9])])).HasTruthAt 4 := by
  have hparse : parse { settings := { unknown := .permissive } } [21, 6, 2, 1, 7, 40, 1, 9] =
      .ok (.mk 21 (.tagArray [.mk 1 (.bool true), .mk 40 (.bytes [9])])) := by cbv
  have hbytes : (Tag.mk 21 (.tagArray [.mk 1 (.bool true), .mk 40 (.bytes [9])])).toBytes =
      .ok [21, 6, 2, 1, 1, 40, 1, 9] := by cbv
  obtain ⟨hwrite, -⟩ := writing_read hparse
  obtain ⟨bytes, hb, hlen, -, hbyte, -⟩ := hwrite (by
    refine Tag.forall_inside_iff.mpr ⟨trivial, List.forall_mem_cons.mpr ⟨?_,
      List.forall_mem_singleton.mpr ?_⟩⟩
    · exact Tag.forall_inside_iff.mpr ⟨trivial, List.forall_mem_nil _⟩
    · exact Tag.forall_inside_iff.mpr ⟨trivial, List.forall_mem_nil _⟩)
  obtain rfl := Except.ok.inj (hb.symm.trans hbytes)
  have htruth := hbyte 4 (by decide) (by decide)
  refine ⟨hparse, ⟨_, hb, rfl, hlen⟩, ?_⟩
  rcases htruth with h | ⟨h, -⟩
  · exact absurd h (by decide)
  · exact h

end Registry

end TagFormat
