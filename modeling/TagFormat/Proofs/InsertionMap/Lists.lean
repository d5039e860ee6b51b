import Mathlib.Data.List.Nodup
import TagFormat.Proofs.InsertionMap

/-! # Maps in insertion order, as lists

A sound map is looked at through the list of its entries alone. Setting the value of a key that is
there puts it in place of the old one, and another key comes last (`Sound.toList_insert_eq_put`);
removing a key drops its entry (`Sound.toList_erase_eq_remove`); compaction changes nothing in the
list and leaves no tombstones (`Sound.toList_compact`, `Sound.tombstones_compact`). A cursor that
has handed out some entries has counted those that are still to come (`Cursor.Counts.take`). -/

namespace TagFormat

/-! ### Lists of entries -/

namespace Entries

variable {K V : Type} [DecidableEq K]

/-- Puts a value in place of that of the key, or the entry at the end. -/
def put (l : List (K × V)) (k : K) (v : V) : List (K × V) :=
  if k ∈ l.map Prod.fst then l.map fun e => if e.1 = k then (e.1, v) else e else l ++ [(k, v)]

/-- Drops the entry of a key. -/
def remove (l : List (K × V)) (k : K) : List (K × V) :=
  l.filter fun e => e.1 ≠ k

/-- Changes the value of a key. -/
def update (l : List (K × V)) (k : K) (f : V → V) : List (K × V) :=
  l.map fun e => if e.1 = k then (e.1, f e.2) else e

/-- Puts values one after another. -/
def putMany (l es : List (K × V)) : List (K × V) :=
  es.foldl (fun l e => put l e.1 e.2) l

/-- One entry of a list, and the key nowhere else. -/
structure OnceAt (l : List (K × V)) (k : K) (before : List (K × V)) (v : V)
    (after : List (K × V)) : Prop where
  eq : l = before ++ (k, v) :: after
  before : k ∉ before.map Prod.fst
  after : k ∉ after.map Prod.fst

variable {l before after : List (K × V)} {k : K} {v : V}

theorem map_of_not_mem (h : k ∉ l.map Prod.fst) (f : K × V → K × V) :
    (l.map fun e => if e.1 = k then f e else e) = l := by
  have hid : ∀ e ∈ l, (if e.1 = k then f e else e) = e := by
    intro e he
    refine if_neg ?_
    rintro rfl
    exact h (List.mem_map_of_mem he)
  rw [List.map_congr_left hid, List.map_id']

theorem remove_of_not_mem (h : k ∉ l.map Prod.fst) : remove l k = l := by
  refine List.filter_eq_self.mpr fun e he => ?_
  rw [decide_eq_true_iff]
  rintro rfl
  exact h (List.mem_map_of_mem he)

theorem lookup_of_not_mem (h : k ∉ l.map Prod.fst) : l.lookup k = none := by
  refine List.lookup_eq_none_iff.mpr fun e he => ?_
  rw [bne_iff_ne]
  rintro rfl
  exact h (List.mem_map_of_mem he)

theorem OnceAt.lookup (h : OnceAt l k before v after) : l.lookup k = some v := by
  rw [h.eq, List.lookup_append, lookup_of_not_mem h.before, List.lookup_cons_self]
  rfl

theorem OnceAt.remove (h : OnceAt l k before v after) : remove l k = before ++ after := by
  have hdrop : Entries.remove ((k, v) :: after) k = Entries.remove after k := by
    unfold Entries.remove
    rw [List.filter_cons_of_neg (by simp)]
  have hsplit : Entries.remove (before ++ (k, v) :: after) k =
      Entries.remove before k ++ Entries.remove ((k, v) :: after) k := List.filter_append ..
  rw [h.eq, hsplit, hdrop, remove_of_not_mem h.before, remove_of_not_mem h.after]

theorem OnceAt.update (h : OnceAt l k before v after) (f : V → V) :
    update l k f = before ++ (k, f v) :: after := by
  unfold Entries.update
  rw [h.eq, List.map_append, List.map_cons, map_of_not_mem h.before, map_of_not_mem h.after,
    if_pos rfl]

theorem OnceAt.put (h : OnceAt l k before v after) (w : V) :
    put l k w = before ++ (k, w) :: after := by
  have hmem : k ∈ l.map Prod.fst := by
    rw [h.eq, List.map_append, List.map_cons]
    exact List.mem_append_right _ List.mem_cons_self
  have hupdate := h.update fun _ => w
  unfold Entries.put
  rw [if_pos hmem, ← hupdate]
  rfl

theorem put_of_not_mem (h : k ∉ l.map Prod.fst) (v : V) : put l k v = l ++ [(k, v)] :=
  if_neg h

theorem keys_update (l : List (K × V)) (k : K) (f : V → V) :
    (update l k f).map Prod.fst = l.map Prod.fst := by
  unfold update
  rw [List.map_map]
  refine List.map_congr_left fun e _ => ?_
  change (if e.1 = k then (e.1, f e.2) else e).1 = e.1
  split_ifs <;> rfl

theorem not_mem_put {k' : K} (hne : k ≠ k') (h : k ∉ l.map Prod.fst) (v : V) :
    k ∉ (put l k' v).map Prod.fst := by
  by_cases hk : k' ∈ l.map Prod.fst
  · have hupdate : put l k' v = update l k' fun _ => v := if_pos hk
    rwa [hupdate, keys_update]
  · rw [put_of_not_mem hk, List.map_append, List.mem_append, not_or]
    exact ⟨h, fun hmem => hne (List.mem_singleton.mp hmem)⟩

theorem update_of_not_mem (h : k ∉ l.map Prod.fst) (f : V → V) : update l k f = l :=
  map_of_not_mem h fun e => (e.1, f e.2)

end Entries

namespace InsertionMap

open Entries

variable {K V : Type}

/-! ### One slot -/

theorem entries_append (a b : List (Option (K × V))) : entries (a ++ b) = entries a ++ entries b :=
  List.filterMap_append

/-- A slot with an entry splits the list, and what is put into the slot stands at its place. -/
theorem entries_setIfInBounds {slots : Array (Option (K × V))} {i : Nat} {e : K × V}
    (h : slots[i]? = some (some e)) : ∃ before after, ∀ slot : Option (K × V),
      entries (slots.setIfInBounds i slot).toList = before ++ (slot.toList ++ after) := by
  obtain ⟨hi, -⟩ := Array.getElem?_eq_some_iff.mp h
  refine ⟨entries (slots.toList.take i), entries (slots.toList.drop (i + 1)), fun slot => ?_⟩
  rw [Array.toList_setIfInBounds, List.set_eq_take_append_cons_drop, if_pos (by simpa using hi),
    entries_append]
  cases slot <;> rfl

/-! ### Cursors -/

/-- The next entry is the first of those still to come, and it is counted. -/
theorem Cursor.next?_cases (c : Cursor K V) : (c.next? = none ∧ entries c.rest = []) ∨
    ∃ e c', c.next? = some (e, c') ∧ entries c.rest = e :: entries c'.rest ∧
      c'.left = c.left - 1 := by
  have hgo : ∀ slots : List (Option (K × V)), (next?.go c slots = none ∧ entries slots = []) ∨
      ∃ e c', next?.go c slots = some (e, c') ∧ entries slots = e :: entries c'.rest ∧
        c'.left = c.left - 1 := by
    intro slots
    induction slots with
    | nil => exact .inl ⟨rfl, rfl⟩
    | cons slot slots ih =>
      rcases slot with _ | e
      · exact ih
      · exact .inr ⟨e, _, rfl, rfl, rfl⟩
  exact hgo c.rest

/-- The cursor has counted the entries still to come. -/
def Cursor.Counts (c : Cursor K V) : Prop :=
  c.left = (entries c.rest).length

variable {c : Cursor K V}

theorem Cursor.Counts.next? (h : c.Counts) : (c.next? = none ∧ c.left = 0) ∨
    ∃ e c', c.next? = some (e, c') ∧ entries c.rest = e :: entries c'.rest ∧ c'.Counts ∧
      c.left = c'.left + 1 := by
  unfold Counts at h ⊢
  rcases c.next?_cases with ⟨hn, hrest⟩ | ⟨e, c', hn, hrest, hleft⟩
  · rw [hrest] at h
    exact .inl ⟨hn, h⟩
  · rw [hrest, List.length_cons] at h
    exact .inr ⟨e, c', hn, hrest, by omega, by omega⟩

/-- **A cursor** hands out the first entries and has counted those behind them. -/
theorem Cursor.Counts.take (h : c.Counts) (n : Nat) : (c.take n).1 = (entries c.rest).take n ∧
    entries (c.take n).2.rest = (entries c.rest).drop n ∧ (c.take n).2.Counts := by
  induction n generalizing c with
  | zero => exact ⟨rfl, rfl, h⟩
  | succ n ih =>
    rw [Cursor.take]
    rcases h.next? with ⟨hn, hleft⟩ | ⟨e, c', hn, hrest, hc, -⟩
    · have hnil : entries c.rest = [] := List.eq_nil_of_length_eq_zero (h.symm.trans hleft)
      rw [hn, hnil]
      exact ⟨rfl, rfl, h⟩
    · obtain ⟨htaken, hleft, hcounts⟩ := ih hc
      rw [hn, hrest]
      exact ⟨congrArg (e :: ·) htaken, hleft, hcounts⟩

/-! ### Sound maps -/

variable [Ord K] {m : InsertionMap K V} {k : K}

/-- The entry of a key in a sound map: what is put into its slot stands at its place. -/
theorem Sound.exists_onceAt (h : m.Sound) {i : Nat} {e : K × V}
    (hf : m.find? k = some (i, e)) : e.1 = k ∧ ∃ before after,
      OnceAt m.toList k before e.2 after ∧ ∀ slot : Option (K × V),
        entries (m.slots.setIfInBounds i slot).toList = before ++ (slot.toList ++ after) := by
  obtain ⟨rfl, hi⟩ := h.find?_eq_some_iff.mp hf
  obtain ⟨before, after, hset⟩ := entries_setIfInBounds hi
  have hlist : m.toList = before ++ e :: after := by
    have hsame : m.slots.setIfInBounds i (some e) = m.slots := by
      obtain ⟨hlt, he⟩ := Array.getElem?_eq_some_iff.mp hi
      rw [Array.setIfInBounds_def, dif_pos hlt, ← he, Array.set_getElem_self]
    rw [toList, ← hsame, hset]
    rfl
  have hnodup := h.nodup_keys
  rw [keys, hlist, List.map_append, List.map_cons, List.nodup_append] at hnodup
  obtain ⟨-, hafter, hbefore⟩ := hnodup
  refine ⟨rfl, before, after, ⟨hlist, fun hk => ?_, ?_⟩, hset⟩
  · exact hbefore e.1 hk e.1 List.mem_cons_self rfl
  · exact (List.nodup_cons.mp hafter).1

/-! ### Counts -/

theorem Sound.isEmpty_eq (h : m.Sound) : m.isEmpty = m.toList.isEmpty := by
  rw [isEmpty, ← h.length_toList]
  cases m.toList <;> rfl

/-- **Equal maps list equal entries**, whatever their tombstones. -/
theorem Sound.beq_eq [BEq K] [BEq V] {n : InsertionMap K V} (hm : m.Sound) (hn : n.Sound) :
    (m == n) = (m.toList == n.toList) := by
  change (m.size == n.size && m.toList == n.toList) = (m.toList == n.toList)
  rw [← hm.length_toList, ← hn.length_toList]
  cases hl : (m.toList == n.toList) with
  | false => exact Bool.and_false _
  | true =>
    rw [Bool.and_true, beq_iff_eq]
    exact List.length_eq_of_beq hl

theorem Sound.size_le_slotCount (h : m.Sound) : m.size ≤ m.slotCount := by
  rw [h.size]
  exact Array.countP_le_size

/-- The tombstones are the empty slots. -/
theorem Sound.tombstones_eq (h : m.Sound) : m.tombstones = m.slots.countP Option.isNone := by
  have hcount : m.slots.size = m.slots.countP Option.isSome +
      m.slots.countP (fun slot => decide ¬slot.isSome = true) := Array.size_eq_countP_add_countP
  have hnone : m.slots.countP (fun slot => decide ¬slot.isSome = true) =
      m.slots.countP Option.isNone := by
    congr 1
    funext slot
    cases slot <;> rfl
  rw [hnone, ← h.size] at hcount
  unfold tombstones slotCount
  omega

/-- The cursor of a sound map has counted all entries. -/
theorem Sound.counts_cursor (h : m.Sound) : m.cursor.Counts :=
  h.length_toList.symm

/-! ### Compaction -/

/-- Entries with new keys take the next slots, one after another. -/
theorem Sound.insertMany_eq [Std.TransOrd K] [Std.LawfulEqOrd K] {l : List (K × V)}
    (h : m.Sound) (hl : (m.keys ++ l.map Prod.fst).Nodup) : m.insertMany l =
      { slots := m.slots ++ (l.map some).toArray
        index := (l.zipIdx m.slots.size).foldl (fun index e => index.insert e.1.1 e.2) m.index
        size := m.size + l.length } := by
  induction l generalizing m with
  | nil => simp [insertMany_nil]
  | cons e l ih =>
    have hk : e.1 ∉ m.keys := fun hk =>
      (List.nodup_append.mp hl).2.2 e.1 hk e.1 List.mem_cons_self rfl
    have hnone := h.find?_eq_none_iff.mpr hk
    rw [List.map_cons, List.append_cons, ← h.keys_insert hk e.2] at hl
    rw [insertMany_cons, ih (h.insert e.1 e.2) hl, insert_of_find?_eq_none hnone]
    simp only [Array.size_push, List.zipIdx_cons, List.foldl_cons, List.map_cons,
      List.length_cons, mk.injEq, true_and]
    refine ⟨?_, by omega⟩
    rw [Array.push_eq_append, Array.append_assoc]
    simp

section Compaction

variable [Std.TransOrd K] [Std.LawfulEqOrd K]

/-- A map with tombstones is compacted into the one that its list builds. -/
theorem Sound.compact_eq (h : m.Sound) :
    m.compact = if m.tombstones = 0 then m else ofList m.toList := by
  have hl : ((∅ : InsertionMap K V).keys ++ m.toList.map Prod.fst).Nodup := h.nodup_keys
  have hbuilt := sound_empty.insertMany_eq hl
  rw [compact]
  split_ifs with ht
  · rfl
  · have hempty : (∅ : InsertionMap K V) = { slots := #[], index := ∅, size := 0 } := rfl
    rw [ofList, hbuilt, hempty, h.length_toList]
    simp

theorem Sound.compact (h : m.Sound) : m.compact.Sound := by
  rw [h.compact_eq]
  split_ifs
  · exact h
  · exact sound_ofList m.toList

/-- **Compaction** changes nothing in the list, -/
theorem Sound.toList_compact (h : m.Sound) : m.compact.toList = m.toList := by
  rw [h.compact_eq]
  split_ifs
  · rfl
  · exact toList_ofList h.nodup_keys

/-- and leaves no tombstones. -/
theorem Sound.tombstones_compact (h : m.Sound) : m.compact.tombstones = 0 := by
  rw [h.compact_eq]
  split_ifs with ht
  · exact ht
  · exact (tidy_ofList m.toList).tombstones

end Compaction

/-! ### Keys and values -/

theorem modify?_of_find?_eq_some {i : Nat} {e : K × V} (h : m.find? k = some (i, e)) (f : V → V) :
    m.modify? k f = (some (f e.2), m.insert k (f e.2)) := by
  rw [modify?, h, insert_of_find?_eq_some h]

theorem modify?_of_find?_eq_none (h : m.find? k = none) (f : V → V) :
    m.modify? k f = (none, m) := by
  rw [modify?, h]

theorem Sound.modify? [Std.TransOrd K] [Std.LawfulEqOrd K] (h : m.Sound) (k : K) (f : V → V) :
    (m.modify? k f).2.Sound := by
  cases hf : m.find? k with
  | none =>
    rw [modify?_of_find?_eq_none hf]
    exact h
  | some found =>
    rw [modify?_of_find?_eq_some hf]
    exact h.insert k _

variable [DecidableEq K]

/-- **A key is looked up** in the list. -/
theorem Sound.get?_eq_lookup (h : m.Sound) (k : K) : m.get? k = m.toList.lookup k := by
  rw [get?]
  cases hf : m.find? k with
  | none => exact (lookup_of_not_mem (h.find?_eq_none_iff.mp hf)).symm
  | some found =>
    obtain ⟨i, e⟩ := found
    obtain ⟨-, before, after, honce, -⟩ := h.exists_onceAt hf
    exact honce.lookup.symm

theorem Sound.contains_eq [Std.TransOrd K] (h : m.Sound) (k : K) :
    m.contains k = decide (k ∈ m.toList.map Prod.fst) := by
  have hiff := h.contains_eq_false_iff (k := k)
  rw [keys] at hiff
  cases hc : m.contains k with
  | false => exact (decide_eq_false (hiff.mp hc)).symm
  | true =>
    refine (decide_eq_true ?_).symm
    by_contra hk
    rw [hiff.mpr hk] at hc
    cases hc

/-- **Setting a value** puts it in place of the old one, or the entry at the end. -/
theorem Sound.toList_insert_eq_put (h : m.Sound) (k : K) (v : V) :
    (m.insert k v).toList = put m.toList k v := by
  cases hf : m.find? k with
  | none =>
    have hk := h.find?_eq_none_iff.mp hf
    rw [h.toList_insert hk, put_of_not_mem hk]
  | some found =>
    obtain ⟨i, e⟩ := found
    obtain ⟨rfl, before, after, honce, hset⟩ := h.exists_onceAt hf
    rw [insert_of_find?_eq_some hf, toList, hset, honce.put]
    rfl

/-- **Removing a key** drops its entry. -/
theorem Sound.toList_erase_eq_remove (h : m.Sound) (k : K) :
    (m.erase k).toList = remove m.toList k := by
  cases hf : m.find? k with
  | none =>
    rw [erase_of_find?_eq_none hf, remove_of_not_mem (h.find?_eq_none_iff.mp hf)]
    rfl
  | some found =>
    obtain ⟨i, e⟩ := found
    obtain ⟨rfl, before, after, honce, hset⟩ := h.exists_onceAt hf
    rw [erase_of_find?_eq_some hf, toList, hset, honce.remove]
    rfl

/-- **Changing a value** changes it in the list, and tells what it has become. -/
theorem Sound.modify?_eq (h : m.Sound) (k : K) (f : V → V) :
    (m.modify? k f).1 = (m.toList.lookup k).map f ∧
      (m.modify? k f).2.toList = update m.toList k f := by
  cases hf : m.find? k with
  | none =>
    have hk := h.find?_eq_none_iff.mp hf
    rw [modify?_of_find?_eq_none hf, lookup_of_not_mem hk, update_of_not_mem hk]
    exact ⟨rfl, rfl⟩
  | some found =>
    obtain ⟨i, e⟩ := found
    obtain ⟨rfl, before, after, honce, -⟩ := h.exists_onceAt hf
    rw [modify?_of_find?_eq_some hf, honce.lookup, honce.update, h.toList_insert_eq_put, honce.put]
    exact ⟨rfl, rfl⟩

theorem Sound.toList_insertMany_eq_putMany [Std.TransOrd K] [Std.LawfulEqOrd K] (h : m.Sound)
    (es : List (K × V)) : (m.insertMany es).toList = putMany m.toList es := by
  induction es generalizing m with
  | nil => rfl
  | cons e es ih =>
    have hcons : putMany m.toList (e :: es) = putMany (put m.toList e.1 e.2) es := rfl
    rw [insertMany_cons, ih (h.insert e.1 e.2), h.toList_insert_eq_put, hcons]

end InsertionMap

end TagFormat
