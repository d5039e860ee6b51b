import Mathlib.Algebra.Order.BigOperators.Group.List
import TagFormat.Proofs.Tag.Reading

/-! # How much a tag holds

The items of a tag are the tags that it consists of, itself included and at every depth, the texts
that are tags of their own, and the numbers in lists (`Tag.items_eq`). Each of them takes a byte at
least, so a tag has no more items than cells (`Tag.items_le_length_cells`). -/

namespace TagFormat

open Cell

/-! ### Counting -/

mutual

/-- The number of items in a payload. -/
def Payload.items : Payload → Nat
  | .varintArray ns => ns.length
  | .oid o => o.arcs.length
  | .tagArray tags | .tagSequence tags => Tag.allItems tags
  | .dictionary ⟨⟨slots⟩, _, _⟩ => Tag.entryItems slots
  | .stringDictionary m => 2 * m.toList.length
  | .document ⟨_, t⟩ => t.items
  | .nested ⟨_, some t⟩ => t.items
  | _ => 0
termination_by structural p => p

/-- The number of items in a tag, which is one of them. -/
def Tag.items : Tag → Nat
  | .mk _ p => p.items + 1
termination_by structural t => t

/-- The number of items in tags that stand side by side. -/
def Tag.allItems : List Tag → Nat
  | [] => 0
  | t :: tags => t.items + Tag.allItems tags
termination_by structural tags => tags

/-- The number of items in the entries of a dictionary, of which each key is one. -/
def Tag.entryItems : List (Option (String × Tag)) → Nat
  | [] => 0
  | none :: slots => Tag.entryItems slots
  | some (_, t) :: slots => 1 + t.items + Tag.entryItems slots
termination_by structural slots => slots

end

/-- The numbers that stand in a list. -/
def Payload.numbers : Payload → List UInt64
  | .varintArray ns => ns
  | .oid o => o.arcs
  | _ => []

theorem Tag.items_mk (id : UInt64) (p : Payload) : (mk id p).items = p.items + 1 := by
  rw [items]

theorem Tag.allItems_eq (tags : List Tag) : allItems tags = (tags.map items).sum := by
  induction tags with
  | nil => rw [allItems, List.map_nil, List.sum_nil]
  | cons t tags ih => rw [allItems, ih, List.map_cons, List.sum_cons]

theorem Tag.entryItems_eq (slots : List (Option (String × Tag))) : entryItems slots =
    (InsertionMap.entries slots).length + ((InsertionMap.entries slots).map fun e => e.2.items).sum := by
  induction slots with
  | nil => rfl
  | cons slot slots ih =>
    rcases slot with _ | ⟨key, t⟩
    · rw [entryItems, ih, InsertionMap.entries_none_cons]
    · rw [entryItems, ih, InsertionMap.entries_some_cons, List.length_cons, List.map_cons,
        List.sum_cons]
      change 1 + t.items + _ = _ + (t.items + _)
      omega

theorem Payload.items_dictionary (m : InsertionMap String Tag) : (dictionary m).items =
    m.toList.length + (m.toList.map fun e => e.2.items).sum := by
  obtain ⟨⟨slots⟩, index, count⟩ := m
  rw [items, Tag.entryItems_eq]
  rfl

theorem Payload.items_eq (p : Payload) :
    p.items = (p.children.map Tag.items).sum + p.strings.length + p.numbers.length := by
  cases p with
  | tagArray tags | tagSequence tags =>
    simp [items, Tag.allItems_eq, children, strings, numbers]
  | dictionary m =>
    have hchildren : (dictionary m).children.map Tag.items = m.toList.map fun e => e.2.items :=
      List.map_map
    have hstrings : (dictionary m).strings.length = m.toList.length := List.length_map _
    have hnumbers : (dictionary m).numbers.length = 0 := rfl
    rw [items_dictionary, hchildren, hstrings, hnumbers]
    omega
  | stringDictionary m =>
    simp [items, children, strings, numbers, List.length_flatMap, Nat.mul_comm]
  | document v => simp [items, children, strings, numbers]
  | nested slot =>
    obtain ⟨id, _ | t⟩ := slot <;> simp [items, children, strings, numbers]
  | _ => simp [items, children, strings, numbers]

/-- **The items of a tag** are the tag itself, those of the tags that it holds, the texts that are
tags of their own, and the numbers in a list. -/
theorem Tag.items_eq (t : Tag) : t.items =
    1 + (t.children.map items).sum + t.payload.strings.length + t.payload.numbers.length := by
  obtain ⟨id, p⟩ := t
  rw [items_mk, Payload.items_eq, children, payload_mk]
  omega

/-! ### A byte for each -/

theorem sum_map_le_length_flatMap {α β : Type} {f : α → Nat} {g : α → List β} {l : List α}
    (h : ∀ a ∈ l, f a ≤ (g a).length) : (l.map f).sum ≤ (l.flatMap g).length := by
  rw [List.length_flatMap]
  exact List.sum_le_sum h

theorem Tag.stringBytes_length_pos (s : String) : 0 < (stringBytes s).length := by
  have := Header.bytes_length_pos Standard.string.id (Utf8.encode s).length
  rw [stringBytes_eq, List.length_append]
  omega

theorem Varint.length_le_length_listWriting (ns : List UInt64) :
    ns.length ≤ (listWriting ns).bytes.length := by
  have hone : ∀ n ∈ ns, 1 ≤ (encode n).length := fun n _ => by
    rw [length_encode]
    exact encodedSize_pos n
  have := sum_map_le_length_flatMap hone
  rw [List.map_const', List.sum_replicate_nat, Nat.mul_one] at this
  rw [bytes_listWriting, List.length_append]
  omega

theorem Payload.items_le_length_cells {p : Payload}
    (h : ∀ u ∈ p.children, u.items ≤ u.cells.length) : p.items ≤ p.cells.length := by
  cases p with
  | varintArray ns =>
    have hcells : (varintArray ns).cells = exacts (varintArray ns).writing.bytes := rfl
    rw [items, hcells, length_exacts]
    exact Varint.length_le_length_listWriting ns
  | oid o =>
    have hcells : (oid o).cells = exacts (oid o).writing.bytes := rfl
    rw [items, hcells, length_exacts]
    exact Varint.length_le_length_listWriting o.arcs
  | tagArray tags =>
    have := sum_map_le_length_flatMap h
    rw [items, Tag.allItems_eq, cells_tagArray, List.length_append]
    exact this.trans (Nat.le_add_left ..)
  | tagSequence tags =>
    rw [items, Tag.allItems_eq, cells_tagSequence]
    exact sum_map_le_length_flatMap h
  | dictionary m =>
    have hsum : ∀ l : List (String × Tag),
        l.length + (l.map fun e => e.2.items).sum = (l.map fun e => 1 + e.2.items).sum := by
      intro l
      rw [List.sum_map_add, List.map_const', List.sum_replicate_nat, Nat.mul_one]
    have hentry : ∀ e ∈ m.toList,
        1 + e.2.items ≤ (exacts (Tag.stringBytes e.1) ++ e.2.cells).length := by
      intro e he
      have := Tag.stringBytes_length_pos e.1
      have := h e.2 (List.mem_map_of_mem he)
      rw [List.length_append, length_exacts]
      omega
    rw [items_dictionary, hsum, cells_dictionary, List.length_append]
    exact (sum_map_le_length_flatMap hentry).trans (Nat.le_add_left ..)
  | stringDictionary m =>
    have hsum : ∀ l : List (String × String), 2 * l.length = (l.map fun _ => 2).sum := by
      intro l
      rw [List.map_const', List.sum_replicate_nat, Nat.mul_comm]
    have hentry : ∀ e ∈ m.toList,
        2 ≤ (exacts (Tag.stringBytes e.1) ++ exacts (Tag.stringBytes e.2)).length := by
      intro e _
      have := Tag.stringBytes_length_pos e.1
      have := Tag.stringBytes_length_pos e.2
      rw [List.length_append, length_exacts, length_exacts]
      omega
    rw [items, hsum, cells_stringDictionary, List.length_append]
    exact (sum_map_le_length_flatMap hentry).trans (Nat.le_add_left ..)
  | document v =>
    have := h v.inner (List.mem_singleton_self _)
    obtain ⟨version, t⟩ := v
    rw [items, cells_document, List.length_append]
    exact this.trans (Nat.le_add_left ..)
  | nested slot =>
    obtain ⟨id, _ | t⟩ := slot
    · rw [items]
      exact Nat.zero_le _
      all_goals simp
    · rw [items, cells]
      exact h t (List.mem_singleton_self _)
  | _ =>
    rw [items]
    · exact Nat.zero_le _
    all_goals simp

/-- **Every item takes a byte** at least. -/
theorem Tag.items_le_length_cells : ∀ t : Tag, t.items ≤ t.cells.length := by
  refine Tag.induction fun t ih => ?_
  have hp := Payload.items_le_length_cells ih
  obtain ⟨id, p⟩ := t
  have := Header.bytes_length_pos id p.cells.length
  rw [items_mk, cells_mk, List.length_append, length_exacts]
  rw [payload_mk] at hp
  omega

end TagFormat
