import Mathlib.Data.List.Basic
import TagFormat.Proofs.InsertionMap
import TagFormat.Tag.Basic

/-! # Tags inside tags

The tags that stand one level further down (`children`), and those that stand inside a tag at any
depth (`Inside`) or at a given one (`AtDepth`). What passes from the children of a tag to the tag
holds of all tags (`Tag.induction`), what is made for a tag out of what was made for its children is
made for all tags (`Tag.fold`), and the depth of a tag is one more than that of what it holds
(`Tag.depth_le_succ_iff`). -/

namespace TagFormat

/-! ### One level -/

/-- The tags one level further down. -/
def Payload.children : Payload → List Tag
  | .tagArray tags | .tagSequence tags => tags
  | .dictionary m => m.values
  | .document v => [v.inner]
  | .nested slot => slot.value.toList
  | _ => []

/-- The texts that stand one level further down, each in a tag of its own. -/
def Payload.strings : Payload → List String
  | .dictionary m => m.keys
  | .stringDictionary m => m.toList.flatMap fun e => [e.1, e.2]
  | _ => []

/-- The tags one level further down. -/
def Tag.children (t : Tag) : List Tag :=
  t.payload.children

/-- The property passes from the children of a tag to the tag. -/
def Tag.Ascends (property : Tag → Prop) : Prop :=
  ∀ t : Tag, (∀ u ∈ t.children, property u) → property t

variable {motive : Tag → Prop}

mutual

theorem Payload.forall_children (h : Tag.Ascends motive) : ∀ p : Payload, ∀ u ∈ p.children,
    motive u
  | .tagArray tags | .tagSequence tags => Tag.forall_tags h tags
  | .dictionary ⟨⟨slots⟩, _, _⟩ => fun _ hu => by
    obtain ⟨e, he, rfl⟩ := List.mem_map.mp hu
    exact Tag.forall_entries h slots e he
  | .document ⟨_, t⟩ => List.forall_mem_singleton.mpr (Tag.induction h t)
  | .nested ⟨_, none⟩ => List.forall_mem_nil _
  | .nested ⟨_, some t⟩ => List.forall_mem_singleton.mpr (Tag.induction h t)
  | .null | .bool _ | .uint8 _ | .int8 _ | .uint16 _ | .int16 _ | .uint32 _ | .int32 _ | .uint64 _
  | .int64 _ | .varint _ | .signedVarint _ | .float32 _ | .float64 _ | .float128 _ | .bytes _
  | .string _ | .bigInt _ | .bigDecimal _ | .varintArray _ | .oid _ | .range _ | .version _
  | .stringDictionary _ | .point _ | .coordinates _ | .fixed _ _ | .text _ => List.forall_mem_nil _
termination_by structural p => p

/-- **What passes from the children of a tag to the tag** holds of every tag. -/
theorem Tag.induction (h : Tag.Ascends motive) : ∀ t : Tag, motive t
  | .mk id p => h (.mk id p) (Payload.forall_children h p)
termination_by structural t => t

theorem Tag.forall_tags (h : Tag.Ascends motive) : ∀ tags : List Tag, ∀ u ∈ tags, motive u
  | [] => List.forall_mem_nil _
  | t :: tags => List.forall_mem_cons.mpr ⟨Tag.induction h t, Tag.forall_tags h tags⟩
termination_by structural tags => tags

theorem Tag.forall_entries (h : Tag.Ascends motive) : ∀ slots : List (Option (String × Tag)),
    ∀ e ∈ InsertionMap.entries slots, motive e.2
  | [] => List.forall_mem_nil _
  | none :: slots => Tag.forall_entries h slots
  | some (_, t) :: slots =>
    List.forall_mem_cons.mpr ⟨Tag.induction h t, Tag.forall_entries h slots⟩
termination_by structural slots => slots

end

/-! ### Recursion over the levels -/

variable {β : Type}

mutual

/-- The results of a recursion over tags for the children of a payload. -/
def Payload.foldChildren (f : Tag → List β → β) : Payload → List β
  | .tagArray tags | .tagSequence tags => Tag.foldAll f tags
  | .dictionary ⟨⟨slots⟩, _, _⟩ => Tag.foldEntries f slots
  | .document ⟨_, t⟩ => [t.fold f]
  | .nested ⟨_, some t⟩ => [t.fold f]
  | _ => []
termination_by structural p => p

/-- The recursion over tags that makes the result for a tag out of those for its children. -/
def Tag.fold (f : Tag → List β → β) : Tag → β
  | .mk id p => f (.mk id p) (p.foldChildren f)
termination_by structural t => t

/-- The results of a recursion over tags for tags side by side. -/
def Tag.foldAll (f : Tag → List β → β) : List Tag → List β
  | [] => []
  | t :: tags => t.fold f :: Tag.foldAll f tags
termination_by structural tags => tags

/-- The results of a recursion over tags for the values in the slots of a dictionary. -/
def Tag.foldEntries (f : Tag → List β → β) : List (Option (String × Tag)) → List β
  | [] => []
  | none :: slots => Tag.foldEntries f slots
  | some (_, t) :: slots => t.fold f :: Tag.foldEntries f slots
termination_by structural slots => slots

end

theorem Tag.foldAll_eq (f : Tag → List β → β) : ∀ tags : List Tag,
    foldAll f tags = tags.map (fold f)
  | [] => by rw [foldAll, List.map_nil]
  | t :: tags => by rw [foldAll, foldAll_eq f tags, List.map_cons]

theorem Tag.foldEntries_eq (f : Tag → List β → β) : ∀ slots : List (Option (String × Tag)),
    foldEntries f slots = ((InsertionMap.entries slots).map Prod.snd).map (fold f)
  | [] => by
    rw [foldEntries]
    rfl
  | none :: slots => by
    rw [foldEntries, foldEntries_eq f slots]
    rfl
  | some (_, t) :: slots => by
    rw [foldEntries, foldEntries_eq f slots, InsertionMap.entries_some_cons, List.map_cons,
      List.map_cons]

theorem Payload.foldChildren_eq (f : Tag → List β → β) (p : Payload) :
    p.foldChildren f = p.children.map (Tag.fold f) := by
  cases p with
  | tagArray tags | tagSequence tags => rw [foldChildren, Tag.foldAll_eq, children]
  | dictionary m =>
    obtain ⟨⟨slots⟩, index, count⟩ := m
    rw [foldChildren, Tag.foldEntries_eq]
    rfl
  | nested slot => obtain ⟨id, _ | t⟩ := slot <;> rfl
  | _ => rfl

/-- **The result of a recursion over tags** is made out of the results for the children. -/
theorem Tag.fold_eq (f : Tag → List β → β) (t : Tag) : t.fold f = f t (t.children.map (fold f)) := by
  obtain ⟨id, p⟩ := t
  rw [fold, Payload.foldChildren_eq]
  rfl

/-! ### Any level -/

namespace Tag

/-- `Inside u t`: the tag `u` is `t`, or stands inside it at some depth. -/
inductive Inside (u : Tag) : Tag → Prop where
  | self : Inside u u
  | child {v t : Tag} (h : v ∈ t.children) (inside : Inside u v) : Inside u t

theorem Inside.of_mem {u t : Tag} (h : u ∈ t.children) : u.Inside t :=
  .child h .self

theorem Inside.trans {u v t : Tag} (h : u.Inside v) (h' : v.Inside t) : u.Inside t := by
  induction h' with
  | self => exact h
  | child hw _ ih => exact .child hw ih

/-- What holds of a tag and inside its children holds inside the tag. -/
theorem forall_inside_iff {property : Tag → Prop} {t : Tag} :
    (∀ u : Tag, u.Inside t → property u) ↔
      property t ∧ ∀ v ∈ t.children, ∀ u : Tag, u.Inside v → property u := by
  constructor
  · exact fun h => ⟨h t .self, fun v hv u hu => h u (.child hv hu)⟩
  · rintro ⟨ht, hc⟩ u (_ | ⟨hv, hu⟩)
    · exact ht
    · exact hc _ hv u hu

/-- `AtDepth u d t`: the tag `u` stands inside `t` at depth `d`, where `t` itself has depth one. -/
inductive AtDepth (u : Tag) : Nat → Tag → Prop where
  | self : AtDepth u 1 u
  | child {v t : Tag} {d : Nat} (h : v ∈ t.children) (inside : AtDepth u d v) : AtDepth u (d + 1) t

theorem AtDepth.inside {u t : Tag} {d : Nat} (h : u.AtDepth d t) : u.Inside t := by
  induction h with
  | self => exact .self
  | child hv _ ih => exact .child hv ih

end Tag

/-! ### Depth -/

mutual

/-- How many levels there are below a payload. -/
def Payload.depth : Payload → Nat
  | .tagArray tags | .tagSequence tags => Tag.depths tags
  | .dictionary ⟨⟨slots⟩, _, _⟩ => Tag.entryDepths slots
  | .stringDictionary m => if m.toList.isEmpty then 0 else 1
  | .document ⟨_, t⟩ => t.depth
  | .nested ⟨_, some t⟩ => t.depth
  | _ => 0
termination_by structural p => p

/-- How many levels there are from a tag down, its own counted in. A tag that holds nothing has
depth one. -/
def Tag.depth : Tag → Nat
  | .mk _ p => p.depth + 1
termination_by structural t => t

/-- The greatest depth of tags that stand side by side. -/
def Tag.depths : List Tag → Nat
  | [] => 0
  | t :: tags => max t.depth (Tag.depths tags)
termination_by structural tags => tags

/-- The greatest depth of the entries of a dictionary. Keys count as tags of depth one. -/
def Tag.entryDepths : List (Option (String × Tag)) → Nat
  | [] => 0
  | none :: slots => Tag.entryDepths slots
  | some (_, t) :: slots => max (max 1 t.depth) (Tag.entryDepths slots)
termination_by structural slots => slots

end

theorem Tag.depths_le_iff {n : Nat} : ∀ {tags : List Tag},
    depths tags ≤ n ↔ ∀ t ∈ tags, t.depth ≤ n
  | [] => by simp [depths]
  | t :: tags => by rw [depths, Nat.max_le, List.forall_mem_cons, depths_le_iff]

theorem Tag.entryDepths_le_iff {n : Nat} : ∀ {slots : List (Option (String × Tag))},
    entryDepths slots ≤ n ↔ ∀ e ∈ InsertionMap.entries slots, 1 ≤ n ∧ e.2.depth ≤ n
  | [] => by simp [entryDepths]
  | none :: slots => by
    rw [entryDepths, entryDepths_le_iff]
    rfl
  | some (_, t) :: slots => by
    rw [entryDepths, Nat.max_le, Nat.max_le, InsertionMap.entries_some_cons, List.forall_mem_cons,
      entryDepths_le_iff]

theorem Payload.depth_le_iff {n : Nat} (p : Payload) :
    p.depth ≤ n ↔ (∀ s ∈ p.strings, 1 ≤ n) ∧ ∀ u ∈ p.children, u.depth ≤ n := by
  cases p with
  | tagArray tags | tagSequence tags => simp [depth, strings, children, Tag.depths_le_iff]
  | dictionary m =>
    obtain ⟨⟨slots⟩, index, count⟩ := m
    change Tag.entryDepths slots ≤ n ↔
      (∀ s ∈ (InsertionMap.entries slots).map Prod.fst, 1 ≤ n) ∧
        ∀ u ∈ (InsertionMap.entries slots).map Prod.snd, u.depth ≤ n
    rw [Tag.entryDepths_le_iff, List.forall_mem_map, List.forall_mem_map, ← forall₂_and]
  | stringDictionary m =>
    have hn : ∀ l : List (String × String), (if l.isEmpty then 0 else 1) ≤ n ↔
        ∀ s ∈ l.flatMap fun e => [e.1, e.2], 1 ≤ n := by
      rintro (_ | ⟨e, l⟩)
      · simp
      · exact ⟨fun h _ _ => h, fun h => h e.1 (by simp)⟩
    rw [depth, hn]
    simp [strings, children]
  | nested slot =>
    obtain ⟨id, _ | t⟩ := slot
    · simp [depth, strings, children]
    · simp [depth, strings, children]
  | document v => simp [depth, strings, children]
  | _ => simp [depth, strings, children]

/-- **The depth of a tag** is one more than that of what it holds, texts that are tags of their own
included. -/
theorem Tag.depth_le_succ_iff {n : Nat} (t : Tag) :
    t.depth ≤ n + 1 ↔ (∀ s ∈ t.payload.strings, 1 ≤ n) ∧ ∀ u ∈ t.children, u.depth ≤ n := by
  obtain ⟨id, p⟩ := t
  rw [depth, Nat.add_le_add_iff_right, Payload.depth_le_iff]
  rfl

theorem Tag.depth_pos (t : Tag) : 0 < t.depth := by
  obtain ⟨id, p⟩ := t
  rw [depth]
  exact Nat.succ_pos _

end TagFormat
