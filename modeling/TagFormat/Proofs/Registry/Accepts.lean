import TagFormat.Proofs.Registry.Reading
import TagFormat.Proofs.Tag.Compact
import TagFormat.Proofs.Tag.Places

/-! # Tags that a registry accepts

A tag that is accepted is allowed and readable at every depth (`Registry.Accepts.inside`), and a tag
of the right kinds with filled slots can be written (`Registry.failure_writing`). A *well-formed*
tag is accepted, once its dictionaries are built anew (`Registry.WellFormed.accepts`). -/

namespace TagFormat

open Cell

namespace Payload

variable {p : Payload}

/-! ### Slots -/

/-- A slot holds a value that its codec can read back. -/
def IsFilled : Payload → Prop
  | .coordinates slot => slot.value.isSome
  | .fixed width slot => slot.value.map List.length = some width
  | .text slot => slot.value.isSome
  | .nested slot => slot.value.isSome
  | _ => True

theorem IsReadable.isFilled (h : p.IsReadable) : p.IsFilled := by
  cases p with
  | coordinates | fixed | text | nested => exact h
  | _ => trivial

/-- A payload whose slot is filled can be written if the tags inside it can. -/
theorem failure_writing_of_filled (hp : p.IsFilled)
    (h : ∀ u ∈ p.children, u.writing.failure = none) : p.writing.failure = none := by
  have hkey : ∀ (key : String) {u : Tag}, u ∈ p.children →
      (Tag.stringWriting key ++ u.writing).failure = none := fun key u hu =>
    Writing.failure_append_eq_none.mpr ⟨Tag.failure_stringWriting key, h u hu⟩
  cases p with
  | tagArray tags =>
    rw [writing, Tag.writings_eq, Writing.failure_append_eq_none, Writing.failure_concat_eq_none]
    exact ⟨rfl, h⟩
  | tagSequence tags =>
    rw [writing, Tag.writings_eq, Writing.failure_concat_eq_none]
    exact h
  | dictionary m =>
    rw [writing_dictionary, Writing.failure_append_eq_none, Writing.failure_concat_eq_none]
    exact ⟨rfl, fun e he => hkey e.1 (List.mem_map_of_mem he)⟩
  | stringDictionary m =>
    rw [writing_stringDictionary, Writing.failure_append_eq_none, Writing.failure_concat_eq_none]
    refine ⟨rfl, fun e _ => Writing.failure_append_eq_none.mpr ?_⟩
    exact ⟨Tag.failure_stringWriting e.1, Tag.failure_stringWriting e.2⟩
  | document v =>
    rw [writing, Writing.failure_append_eq_none]
    exact ⟨rfl, h v.inner (List.mem_singleton_self _)⟩
  | coordinates slot =>
    obtain ⟨id, _ | a⟩ := slot
    · cases hp
    · rfl
  | fixed width slot =>
    obtain ⟨id, _ | b⟩ := slot
    · cases hp
    · rfl
  | text slot =>
    obtain ⟨id, _ | s⟩ := slot
    · cases hp
    · rfl
  | nested slot =>
    obtain ⟨id, _ | t⟩ := slot
    · cases hp
    · rw [writing]
      exact h t (List.mem_singleton_self _)
  | _ => rfl

/-- **With its dictionaries built anew**, a payload is such as readers make. -/
theorem isReadable_compact (hf : p.IsFilled) (hc : p.IsCurrent) (hd : p.IsSound) :
    p.compact.IsReadable := by
  have hb := isBuilt_compact hd
  cases p with
  | dictionary m =>
    rw [compact_dictionary] at hb ⊢
    exact hb
  | stringDictionary m =>
    rw [compact] at hb ⊢
    exact hb
  | point v => exact .inr hc
  | document v => exact hc
  | nested slot =>
    obtain ⟨id, _ | t⟩ := slot
    · cases hf
    · exact rfl
  | coordinates | fixed | text => exact hf
  | _ => trivial

/-! ### Sizes -/

theorem valueSize_of_fixed {type : Standard} (hk : p.kind = .standard type) {n : Nat}
    (h : Id.sizing type.id = .fixed n) : p.valueSize = n := by
  cases p <;> cases hk <;> cases h <;> rfl

/-- A payload has as many cells as it has bytes. -/
theorem length_cells (hc : ∀ u : Tag, ∀ v ∈ p.children, u.Inside v → u.payload.IsCurrent)
    (hp : p.IsCurrent) (hf : p.writing.failure = none) : p.cells.length = p.valueSize := by
  have hb := bytes_writing hp hf fun v hv => v.bytes_writing fun u hu => hc u v hv hu
  rw [← p.fills_writing (fun u _ => u.fills) hf, hb, List.length_map]

theorem length_encode_le {s : String} (h : s ∈ p.strings) :
    (Utf8.encode s).length ≤ p.cells.length := by
  have hs : (Utf8.encode s).length ≤ (exacts (Tag.stringBytes s)).length := by
    rw [length_exacts, Tag.stringBytes_eq, List.length_append]
    exact Nat.le_add_left _ _
  refine hs.trans (List.IsInfix.length_le ?_)
  cases p with
  | dictionary m =>
    obtain ⟨e, he, rfl⟩ := List.mem_map.mp h
    have hm := infix_flatMap (f := fun e => exacts (Tag.stringBytes e.1) ++ Tag.cells e.2) he
    rw [cells_dictionary]
    exact ((List.prefix_append ..).isInfix.trans hm).trans (List.suffix_append ..).isInfix
  | stringDictionary m =>
    obtain ⟨e, he, hs⟩ := List.mem_flatMap.mp h
    have hm := infix_flatMap
      (f := fun e => exacts (Tag.stringBytes e.1) ++ exacts (Tag.stringBytes e.2)) he
    rw [cells_stringDictionary]
    refine List.IsInfix.trans ?_ (hm.trans (List.suffix_append ..).isInfix)
    simp only [List.mem_cons, List.not_mem_nil, or_false] at hs
    rcases hs with rfl | rfl
    · exact (List.prefix_append ..).isInfix
    · exact (List.suffix_append ..).isInfix
  | _ => exact absurd h List.not_mem_nil

end Payload

namespace Registry

variable {r : Registry} {id : UInt64} {p : Payload}

/-! ### Tags that can be written -/

/-- A header tells the end of a payload of the kind that belongs to the id, if payloads of one size
have it. -/
theorem fault?_of_kindOf {kind : Kind} {size : Nat} (h : r.kindOf id = .ok kind)
    (hsize : ∀ {type : Standard} {n : Nat}, kind = .standard type →
      Id.sizing type.id = .fixed n → size = n) : Header.fault? id size = none := by
  rw [Header.fault?]
  by_cases hi : Id.isImplicit id = true
  · obtain ⟨type, rfl, hk⟩ := exists_standard h hi
    cases hs : Id.sizing type.id with
    | fixed n => exact if_pos (hsize hk hs).symm
    | unassigned => cases type <;> cases hs
    | explicit | selfDelimited => rfl
  · rw [(Id.sizing_eq_explicit_iff id).mpr (Bool.eq_false_iff.mpr hi)]

theorem fault?_eq_none (h : r.kindOf id = .ok p.kind) : Header.fault? id p.valueSize = none :=
  fault?_of_kindOf h fun hk hs => Payload.valueSize_of_fixed hk hs

/-- **A tag can be written** if all kinds are the registry's and all slots are filled. -/
theorem failure_writing : ∀ t : Tag, (∀ u : Tag, u.Inside t →
    r.kindOf u.id = .ok u.payload.kind ∧ u.payload.IsFilled) → t.writing.failure = none := by
  refine Tag.induction fun t ih h => ?_
  obtain ⟨⟨hk, hf⟩, hc⟩ := Tag.forall_inside_iff.mp h
  refine Tag.failure_writing_eq_none.mpr ⟨fault?_eq_none hk, ?_⟩
  exact Payload.failure_writing_of_filled hf fun u hu => ih u hu (hc u hu)

/-- **What is accepted** is allowed and readable at every depth. -/
theorem Accepts.inside : ∀ {depth : Nat} {t : Tag}, r.Accepts depth t →
    ∀ u : Tag, u.Inside t → r.Allows u ∧ u.payload.IsReadable
  | 0, _, h => h.elim
  | _ + 1, _, ⟨ha, hh⟩ =>
    Tag.forall_inside_iff.mpr ⟨⟨ha, hh.readable⟩, fun v hv => (hh.children v hv).inside⟩

theorem Accepts.failure_writing {depth : Nat} {t : Tag} (h : r.Accepts depth t) :
    t.writing.failure = none :=
  Registry.failure_writing t fun u hu => ⟨(h.inside u hu).1.kind, (h.inside u hu).2.isFilled⟩

/-! ### Tags that are accepted -/

/-- What is asked of every tag in a well-formed one: its payload is of the kind that belongs to its
id (for a slot, under the slot's own id), of an allowed size if the size is written, and of the
version that is written; a slot holds a value that its codec can read back, and the map of a
dictionary is sound. -/
structure Suits (r : Registry) (u : Tag) : Prop where
  kind : r.kindOf u.id = .ok u.payload.kind
  size : Id.isImplicit u.id = false → u.valueSize ≤ r.settings.maxTagSize.toNat
  filled : u.payload.IsFilled
  current : u.payload.IsCurrent
  sound : u.payload.IsSound

/-- The tag may be read by the registry: it is not too deep, and every tag in it suits. -/
structure WellFormed (r : Registry) (t : Tag) : Prop where
  depth : t.depth ≤ r.levels
  inside : ∀ u : Tag, u.Inside t → r.Suits u

/-- Texts stand only in payloads whose size is written. -/
theorem isImplicit_eq_false {s : String} (h : r.kindOf id = .ok p.kind) (hs : s ∈ p.strings) :
    Id.isImplicit id = false := by
  by_contra hi
  obtain ⟨type, rfl, hk⟩ := exists_standard h (Bool.not_eq_false _ ▸ hi)
  cases p with
  | dictionary | stringDictionary =>
    cases hk
    exact hi rfl
  | _ => exact absurd hs List.not_mem_nil

theorem accepts_compact : ∀ t : Tag, (∀ u : Tag, u.Inside t → r.Suits u) → ∀ {depth : Nat},
    t.depth ≤ depth → r.Accepts depth t.compact := by
  refine Tag.induction fun t ih h depth hd => ?_
  obtain ⟨ht, hc⟩ := Tag.forall_inside_iff.mp h
  have hw : t.payload.writing.failure = none := (Tag.failure_writing_eq_none.mp
    (failure_writing t fun u hu => ⟨(h u hu).kind, (h u hu).filled⟩)).2
  have hl : t.payload.compact.cells.length = t.valueSize := by
    rw [Payload.cells_compact ht.sound fun u hu =>
      Tag.cells_compact u fun v hv => (hc u hu v hv).sound]
    exact Payload.length_cells (fun u v hv hu => (hc v hv u hu).current) ht.current hw
  cases depth with
  | zero => exact absurd hd (Nat.not_le.mpr t.depth_pos)
  | succ depth =>
    obtain ⟨hs, hd⟩ := t.depth_le_succ_iff.mp hd
    refine ⟨⟨?_, ?_⟩, ?_, ?_, ?_⟩
    · rw [Tag.id_compact, Tag.payload_compact, Payload.kind_compact]
      exact ht.kind
    · rw [Tag.id_compact, Tag.payload_compact, hl]
      exact ht.size
    · rw [Tag.payload_compact]
      exact Payload.isReadable_compact ht.filled ht.current ht.sound
    · rw [Tag.payload_compact, Payload.children_compact ht.sound, List.forall_mem_map]
      exact fun u hu => ih u hu (hc u hu) (hd u hu)
    · rw [Tag.payload_compact, Payload.strings_compact ht.sound]
      intro s hs'
      refine ⟨hs s hs', ?_⟩
      have hi := isImplicit_eq_false ht.kind hs'
      rw [← Payload.strings_compact ht.sound] at hs'
      exact (Payload.length_encode_le hs').trans (hl ▸ ht.size hi)

/-- **A well-formed tag** is accepted, with its dictionaries built anew. -/
theorem WellFormed.accepts {t : Tag} (h : r.WellFormed t) : r.Accepts r.levels t.compact :=
  accepts_compact t h.inside h.depth

theorem WellFormed.failure_writing {t : Tag} (h : r.WellFormed t) : t.writing.failure = none :=
  Registry.failure_writing t fun u hu => ⟨(h.inside u hu).kind, (h.inside u hu).filled⟩

end Registry

end TagFormat
