import TagFormat.Proofs.Registry.RoundTrip
import TagFormat.Proofs.Tag.Calls

/-! # The limit on depth is exact

Bytes of a tag that suits the registry, but for its depth, are read as the tag if it is not deeper
than the levels that the registry grants, and are refused for their depth if it is
(`Registry.parse_writing`). With enough levels the tag would be read, and with fewer the program is
the same but for the tags that it refuses (`Registry.curbed_readTag`); no frame around such a tag
makes another error of that. -/

namespace TagFormat.Registry

open Reading

variable {r : Registry} {t : Tag}

/-- What is accepted with some levels left is not deeper than these. -/
theorem Accepts.depth_le : ∀ {depth : Nat} {t : Tag}, r.Accepts depth t → t.depth ≤ depth
  | 0, _, h => h.elim
  | _ + 1, t, ⟨_, hh⟩ => t.depth_le_succ_iff.mpr
    ⟨fun s hs => (hh.strings s hs).1, fun u hu => (hh.children u hu).depth_le⟩

theorem depth_le_of_accepts_compact : ∀ t : Tag, (∀ u : Tag, u.Inside t → r.Suits u) →
    ∀ {depth : Nat}, r.Accepts depth t.compact → t.depth ≤ depth := by
  refine Tag.induction fun t ih h depth ha => ?_
  obtain ⟨ht, hc⟩ := Tag.forall_inside_iff.mp h
  rcases depth with _ | depth
  · exact ha.elim
  obtain ⟨-, hh⟩ := ha
  have hstrings := hh.strings
  have hchildren := hh.children
  rw [Tag.payload_compact, Payload.strings_compact ht.sound] at hstrings
  rw [Tag.payload_compact, Payload.children_compact ht.sound, List.forall_mem_map] at hchildren
  refine t.depth_le_succ_iff.mpr ⟨fun s hs => (hstrings s hs).1, fun u hu => ?_⟩
  exact ih u hu (hc u hu) (hchildren u hu)

/-- The bytes of the tag spell it, with its dictionaries built anew. -/
theorem spells_writing (h : ∀ u : Tag, u.Inside t → r.Suits u) :
    t.writing.failure = none ∧ Cell.Spells t.compact.cells t.writing.bytes := by
  have hf : t.writing.failure = none :=
    failure_writing t fun u hu => ⟨(h u hu).kind, (h u hu).filled⟩
  refine ⟨hf, ?_⟩
  rw [t.cells_compact fun u hu => (h u hu).sound,
    t.bytes_writing (fun u hu => (h u hu).current) hf]
  exact Cell.spells_map_byte t.cells

/-- The tag may be read by the registry with `depth` levels left. -/
def FitsAt (r : Registry) (depth : Nat) (t : Tag) : Prop :=
  t.depth ≤ depth ∧ ∀ u : Tag, u.Inside t → r.Suits u

theorem FitsAt.yields (h : r.FitsAt depth t) (left : Option Nat) :
    (r.readTag depth).Yields left t.writing.bytes t.compact :=
  ((r.readsBy depth).tag _ _ _).mpr ⟨accepts_compact t h.2 h.1, (spells_writing h.2).2⟩

/-- **The limit on depth is exact.** The bytes of a tag that suits are read as the tag, or refused
for their depth, and which of the two it is hangs on the depth of the tag alone. -/
theorem parse_writing (h : ∀ u : Tag, u.Inside t → r.Suits u) :
    r.parse t.writing.bytes =
      if t.depth ≤ r.levels then .ok t.compact else .error r.depthError := by
  obtain ⟨-, hs⟩ := spells_writing h
  split_ifs with hd
  · exact parse_eq_ok_iff.mpr ⟨accepts_compact t h hd, hs⟩
  -- with as many levels as the tag is deep, it would be read
  have hread : ∃ u, (r.readTag t.depth).run [] (.ofBytes t.writing.bytes) = (.ok t.compact, u) := by
    refine ⟨_, run_ofBytes_eq_ok_iff.mpr ⟨_, [], (List.append_nil _).symm, rfl, ?_⟩⟩
    exact ((r.readsBy t.depth).tag none _ _).mpr ⟨accepts_compact t h le_rfl, hs⟩
  obtain ⟨u, hu⟩ := hread
  have hend : ¬r.depthError.IsEnd := by
    rintro ⟨expected, got, he⟩
    cases he
  have hle : r.levels ≤ t.depth := by omega
  rcases (r.curbed_readTag hle).run_eq hend hu with hok | ⟨v, herror⟩
  · obtain ⟨c, rest, -, -, hy⟩ := run_ofBytes_eq_ok_iff.mp hok
    obtain ⟨ha, -⟩ := ((r.readsBy r.levels).tag none c t.compact).mp hy
    exact absurd (depth_le_of_accepts_compact t h ha) hd
  · exact parseWith_of_error herror

end TagFormat.Registry
