import TagFormat.Proofs.Tag.Cells

/-! # Tags with their dictionaries built anew

A dictionary that has seen removals keeps their traces, and one that is read has none. `Tag.compact`
builds all dictionaries in a tag from their entries, in order, and leaves all else as it is. It does
not change the form of the tag (`Tag.cells_compact`), and nothing at all where the dictionaries were
built that way before (`Tag.compact_eq_self`). -/

namespace TagFormat

mutual

/-- The payload with all dictionaries built from their entries. -/
def Payload.compact : Payload → Payload
  | .tagArray tags => .tagArray (Tag.compactAll tags)
  | .tagSequence tags => .tagSequence (Tag.compactAll tags)
  | .dictionary ⟨⟨slots⟩, _, _⟩ => .dictionary (.ofList (Tag.compactEntries slots))
  | .stringDictionary m => .stringDictionary (.ofList m.toList)
  | .document ⟨version, t⟩ => .document ⟨version, t.compact⟩
  | .nested ⟨id, some t⟩ => .nested ⟨id, some t.compact⟩
  | p => p
termination_by structural p => p

/-- The tag with all dictionaries built from their entries. -/
def Tag.compact : Tag → Tag
  | .mk id p => .mk id p.compact
termination_by structural t => t

/-- The tags with all dictionaries built from their entries. -/
def Tag.compactAll : List Tag → List Tag
  | [] => []
  | t :: tags => t.compact :: Tag.compactAll tags
termination_by structural tags => tags

/-- The entries in slots, with all dictionaries built from their entries. -/
def Tag.compactEntries : List (Option (String × Tag)) → List (String × Tag)
  | [] => []
  | none :: slots => Tag.compactEntries slots
  | some (key, t) :: slots => (key, t.compact) :: Tag.compactEntries slots
termination_by structural slots => slots

end

attribute [local simp] Payload.compact Tag.compact Tag.compactAll Tag.compactEntries

theorem Tag.compactAll_eq (tags : List Tag) : compactAll tags = tags.map compact := by
  induction tags with
  | nil => simp
  | cons t tags ih => simp [ih]

theorem Tag.compactEntries_eq (slots : List (Option (String × Tag))) : compactEntries slots =
    (InsertionMap.entries slots).map fun e => (e.1, e.2.compact) := by
  induction slots with
  | nil => simp
  | cons slot slots ih => rcases slot with _ | ⟨key, t⟩ <;> simp [ih]

@[simp] theorem Tag.id_compact (t : Tag) : t.compact.id = t.id := by
  cases t
  rw [compact, id_mk, id_mk]

@[simp] theorem Tag.payload_compact (t : Tag) : t.compact.payload = t.payload.compact := by
  cases t
  rw [compact, payload_mk, payload_mk]

namespace Payload

theorem compact_tagArray (tags : List Tag) :
    (tagArray tags).compact = tagArray (tags.map Tag.compact) := by
  rw [compact, Tag.compactAll_eq]

theorem compact_tagSequence (tags : List Tag) :
    (tagSequence tags).compact = tagSequence (tags.map Tag.compact) := by
  rw [compact, Tag.compactAll_eq]

theorem compact_dictionary (m : InsertionMap String Tag) : (dictionary m).compact =
    dictionary (.ofList (m.toList.map fun e => (e.1, e.2.compact))) := by
  obtain ⟨⟨slots⟩, index, count⟩ := m
  rw [compact, Tag.compactEntries_eq]
  rfl

theorem kind_compact (p : Payload) : p.compact.kind = p.kind := by
  cases p with
  | nested slot =>
    obtain ⟨id, _ | t⟩ := slot <;> rfl
  | _ => rfl

/-! ### Dictionaries -/

/-- The map of a dictionary is sound, as insertions and removals leave it. -/
def IsSound : Payload → Prop
  | .dictionary m => m.Sound
  | .stringDictionary m => m.Sound
  | _ => True

/-- A dictionary is what comes of building it from its entries. -/
def IsBuilt : Payload → Prop
  | .dictionary m => m = .ofList m.toList
  | .stringDictionary m => m = .ofList m.toList
  | _ => True

theorem isBuilt_compact {p : Payload} (h : p.IsSound) : p.compact.IsBuilt := by
  cases p with
  | dictionary m => rw [compact_dictionary, IsBuilt, h.toList_ofList_map]
  | stringDictionary m => rw [compact, IsBuilt, InsertionMap.toList_ofList h.nodup_keys]
  | nested slot => obtain ⟨id, _ | t⟩ := slot <;> trivial
  | _ => trivial

theorem children_compact {p : Payload} (h : p.IsSound) :
    p.compact.children = p.children.map Tag.compact := by
  cases p with
  | tagArray tags => rw [compact_tagArray]; rfl
  | tagSequence tags => rw [compact_tagSequence]; rfl
  | dictionary m =>
    rw [compact_dictionary, children, children, InsertionMap.values, h.toList_ofList_map,
      InsertionMap.values, List.map_map, List.map_map]
    rfl
  | nested slot => obtain ⟨id, _ | t⟩ := slot <;> rfl
  | _ => rfl

theorem strings_compact {p : Payload} (h : p.IsSound) : p.compact.strings = p.strings := by
  cases p with
  | dictionary m =>
    rw [compact_dictionary, strings, strings, InsertionMap.keys, h.toList_ofList_map,
      InsertionMap.keys_map]
    rfl
  | stringDictionary m => rw [compact, strings, strings, InsertionMap.toList_ofList h.nodup_keys]
  | nested slot => obtain ⟨id, _ | t⟩ := slot <;> rfl
  | _ => rfl

theorem cells_compact {p : Payload} (hp : p.IsSound)
    (h : ∀ u ∈ p.children, u.compact.cells = u.cells) : p.compact.cells = p.cells := by
  cases p with
  | tagArray tags =>
    rw [compact_tagArray, cells_tagArray, cells_tagArray, List.length_map, List.flatMap_map,
      List.flatMap_congr fun u (hu : u ∈ tags) => h u hu]
  | tagSequence tags =>
    rw [compact_tagSequence, cells_tagSequence, cells_tagSequence, List.flatMap_map,
      List.flatMap_congr fun u (hu : u ∈ tags) => h u hu]
  | dictionary m =>
    rw [compact_dictionary, cells_dictionary, cells_dictionary, hp.size_ofList_map,
      hp.toList_ofList_map, List.flatMap_map]
    refine congrArg (_ ++ ·) (List.flatMap_congr fun e he => ?_)
    rw [h e.2 (List.mem_map_of_mem he)]
  | stringDictionary m =>
    change Cell.exacts (stringDictionary (.ofList m.toList)).writing.bytes =
      Cell.exacts (stringDictionary m).writing.bytes
    rw [writing_stringDictionary, writing_stringDictionary, InsertionMap.size_ofList hp.nodup_keys,
      hp.length_toList, InsertionMap.toList_ofList hp.nodup_keys]
  | document v =>
    obtain ⟨version, t⟩ := v
    rw [compact, cells, cells, h t (List.mem_singleton_self _)]
  | nested slot =>
    obtain ⟨id, _ | t⟩ := slot
    · rfl
    · rw [compact, cells, cells]
      exact h t (List.mem_singleton_self _)
  | _ => rfl

theorem compact_eq_self {p : Payload} (hp : p.IsBuilt) (h : ∀ u ∈ p.children, u.compact = u) :
    p.compact = p := by
  cases p with
  | tagArray tags =>
    have ht : tags.map Tag.compact = tags := (List.map_congr_left h).trans (List.map_id tags)
    rw [compact_tagArray, ht]
  | tagSequence tags =>
    have ht : tags.map Tag.compact = tags := (List.map_congr_left h).trans (List.map_id tags)
    rw [compact_tagSequence, ht]
  | dictionary m =>
    have hm : m.toList.map (fun e => (e.1, e.2.compact)) = m.toList :=
      InsertionMap.map_eq_self fun e he => h e.2 (List.mem_map_of_mem he)
    rw [compact_dictionary, hm, ← (hp : m = _)]
  | stringDictionary m => rw [compact, ← (hp : m = _)]
  | document v =>
    obtain ⟨version, t⟩ := v
    rw [compact, h t (List.mem_singleton_self _)]
  | nested slot =>
    obtain ⟨id, _ | t⟩ := slot
    · rfl
    · rw [compact, h t (List.mem_singleton_self _)]
  | _ => rfl

end Payload

namespace Tag

/-- **Building dictionaries anew does not change the form of a tag**, if their maps are sound. -/
theorem cells_compact : ∀ t : Tag, (∀ u : Tag, u.Inside t → u.payload.IsSound) →
    t.compact.cells = t.cells := by
  refine Tag.induction fun t ih hd => ?_
  obtain ⟨hp, hc⟩ := Tag.forall_inside_iff.mp hd
  have hcells := Payload.cells_compact hp fun u hu => ih u hu (hc u hu)
  obtain ⟨id, p⟩ := t
  rw [compact, cells_mk, cells_mk]
  rw [payload_mk] at hcells
  rw [hcells]

/-- **Building dictionaries anew does nothing** where they were built that way before. -/
theorem compact_eq_self : ∀ t : Tag, (∀ u : Tag, u.Inside t → u.payload.IsBuilt) →
    t.compact = t := by
  refine Tag.induction fun t ih hb => ?_
  obtain ⟨hp, hc⟩ := Tag.forall_inside_iff.mp hb
  have hself := Payload.compact_eq_self hp fun u hu => ih u hu (hc u hu)
  obtain ⟨id, p⟩ := t
  rw [payload_mk] at hself
  rw [compact, hself]

end Tag

end TagFormat
