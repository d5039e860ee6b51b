import Mathlib.Data.List.Nodup
import TagFormat.InsertionMap

/-! # Maps in insertion order

The index of a map tells the slots of exactly the keys that are there, and its entries are counted
(`InsertionMap.Sound`). The empty map is sound, insertions and removals keep a map so, and no key
comes twice in it (`Sound.nodup_keys`).

A map into which distinct keys are inserted one after another lists exactly these entries, in this
order (`toList_ofList`). Entries that are inserted one by one, each key being refused that is there
already, come through exactly when their keys are distinct (`fresh_empty_iff`). However its keys
come, a map that only insertions made is *tidy*: it has no tombstones (`tidy_ofList`). -/

namespace TagFormat.InsertionMap

variable {K V : Type}

/-! ### Entries of slots -/

@[simp] theorem entries_nil : entries ([] : List (Option (K × V))) = [] := rfl

@[simp] theorem entries_none_cons (slots : List (Option (K × V))) :
    entries (none :: slots) = entries slots := rfl

@[simp] theorem entries_some_cons (e : K × V) (slots : List (Option (K × V))) :
    entries (some e :: slots) = e :: entries slots := rfl

theorem entries_concat (slots : List (Option (K × V))) (e : K × V) :
    entries (slots ++ [some e]) = entries slots ++ [e] :=
  List.filterMap_append

theorem mem_entries {slots : List (Option (K × V))} {e : K × V} :
    e ∈ entries slots ↔ some e ∈ slots := by
  rw [entries, List.mem_filterMap]
  exact exists_eq_right

theorem length_entries (slots : List (Option (K × V))) :
    (entries slots).length = slots.countP Option.isSome :=
  List.length_filterMap_eq_countP

theorem countP_setIfInBounds {slots : Array (Option (K × V))} {i : Nat} {e : K × V}
    (h : slots[i]? = some (some e)) (slot : Option (K × V)) :
    (slots.setIfInBounds i slot).countP Option.isSome =
      slots.countP Option.isSome - 1 + if slot.isSome then 1 else 0 := by
  obtain ⟨hi, he⟩ := Array.getElem?_eq_some_iff.mp h
  rw [Array.setIfInBounds_def, dif_pos hi, Array.countP_set hi, he]
  rfl

theorem countP_pos {slots : Array (Option (K × V))} {i : Nat} {e : K × V}
    (h : slots[i]? = some (some e)) : 0 < slots.countP Option.isSome :=
  Array.countP_pos_iff.mpr ⟨some e, Array.mem_of_getElem? h, rfl⟩

theorem getElem?_setIfInBounds {slots : Array (Option (K × V))} {i : Nat} {e : K × V}
    (h : slots[i]? = some (some e)) (slot : Option (K × V)) (j : Nat) :
    (slots.setIfInBounds i slot)[j]? = if i = j then some slot else slots[j]? := by
  obtain ⟨hi, -⟩ := Array.getElem?_eq_some_iff.mp h
  rw [Array.getElem?_setIfInBounds, if_pos hi]

variable [Ord K]

theorem insertMany_nil (m : InsertionMap K V) : m.insertMany [] = m := rfl

theorem insertMany_cons (m : InsertionMap K V) (e : K × V) (l : List (K × V)) :
    m.insertMany (e :: l) = (m.insert e.1 e.2).insertMany l := rfl

theorem mem_toList {m : InsertionMap K V} {e : K × V} :
    e ∈ m.toList ↔ ∃ i : Nat, m.slots[i]? = some (some e) := by
  rw [toList, mem_entries, Array.mem_toList_iff, Array.mem_iff_getElem?]

theorem mem_keys {m : InsertionMap K V} {k : K} :
    k ∈ m.keys ↔ ∃ (i : Nat) (v : V), m.slots[i]? = some (some (k, v)) := by
  rw [keys, List.mem_map]
  constructor
  · rintro ⟨⟨_, v⟩, he, rfl⟩
    obtain ⟨i, hi⟩ := mem_toList.mp he
    exact ⟨i, v, hi⟩
  · rintro ⟨i, v, hi⟩
    exact ⟨(k, v), mem_toList.mpr ⟨i, hi⟩, rfl⟩

/-! ### Sound maps -/

/-- The index tells the slots of exactly the keys that are there, and the entries are counted. -/
structure Sound (m : InsertionMap K V) : Prop where
  index : ∀ (k : K) (i : Nat), m.index[k]? = some i ↔ ∃ v, m.slots[i]? = some (some (k, v))
  size : m.size = m.slots.countP Option.isSome

variable {m : InsertionMap K V} {k : K}

theorem Sound.length_toList (h : m.Sound) : m.toList.length = m.size := by
  rw [h.size, toList, length_entries, Array.countP_toList]

/-- **No key comes twice** in a sound map: both slots would be the one that the index tells. -/
theorem Sound.nodup_keys (h : m.Sound) : m.keys.Nodup := by
  rw [keys, toList, entries, List.Nodup, List.pairwise_map, List.pairwise_filterMap,
    List.pairwise_iff_getElem]
  rintro i j hi hj hij ⟨k, v⟩ hv ⟨_, w⟩ hw rfl
  have hki := (h.index k i).mpr ⟨v, Array.getElem?_eq_some_iff.mpr ⟨hi, hv⟩⟩
  have hkj := (h.index k j).mpr ⟨w, Array.getElem?_eq_some_iff.mpr ⟨hj, hw⟩⟩
  exact Nat.ne_of_lt hij (Option.some.inj (hki.symm.trans hkj))

theorem Sound.mem_keys_iff (h : m.Sound) : k ∈ m.keys ↔ ∃ i, m.index[k]? = some i := by
  simp only [mem_keys, h.index]

theorem sound_empty [Std.TransOrd K] : (∅ : InsertionMap K V).Sound where
  index k i := by
    change (∅ : Std.TreeMap K Nat)[k]? = some i ↔ ∃ v, (#[] : Array (Option (K × V)))[i]? = _
    simp
  size := rfl

theorem Sound.contains_eq_false_iff [Std.TransOrd K] (h : m.Sound) :
    m.contains k = false ↔ k ∉ m.keys := by
  rw [contains, Std.TreeMap.contains_eq_isSome_getElem?, h.mem_keys_iff,
    ← Option.isSome_iff_exists, Bool.not_eq_true]

theorem Sound.find?_eq_some_iff (h : m.Sound) {i : Nat} {e : K × V} :
    m.find? k = some (i, e) ↔ e.1 = k ∧ m.slots[i]? = some (some e) := by
  obtain ⟨k', v⟩ := e
  rw [find?]
  constructor
  · intro hf
    split at hf
    · cases hf
    · next i' hi =>
      obtain ⟨v', hs⟩ := (h.index k i').mp hi
      rw [hs] at hf
      cases hf
      exact ⟨rfl, hs⟩
  · rintro ⟨rfl, hs⟩
    rw [(h.index k' i).mpr ⟨v, hs⟩]
    simp only [hs]

theorem Sound.find?_eq_none_iff (h : m.Sound) : m.find? k = none ↔ k ∉ m.keys := by
  rw [Option.eq_none_iff_forall_ne_some, mem_keys]
  constructor
  · rintro hf ⟨i, v, hi⟩
    exact hf (i, k, v) (h.find?_eq_some_iff.mpr ⟨rfl, hi⟩)
  · rintro hk ⟨i, _, v⟩ hf
    obtain ⟨rfl, hi⟩ := h.find?_eq_some_iff.mp hf
    exact hk ⟨i, v, hi⟩

/-! ### Insertions and removals -/

theorem insert_of_find?_eq_some {i : Nat} {e : K × V} (h : m.find? k = some (i, e)) (v : V) :
    m.insert k v = { m with slots := m.slots.setIfInBounds i (some (e.1, v)) } := by
  rw [insert, h]

theorem insert_of_find?_eq_none (h : m.find? k = none) (v : V) : m.insert k v =
    { slots := m.slots.push (some (k, v)), index := m.index.insert k m.slots.size
      size := m.size + 1 } := by
  rw [insert, h]

/-- A fresh key is there from then on, and no other comes in. -/
theorem contains_insert [Std.TransOrd K] (h : m.contains k = false) (v : V) (k' : K) :
    (m.insert k v).contains k' = (compare k k' == .eq || m.contains k') := by
  have hfind : m.find? k = none := by
    have hk : m.index[k]? = none := Std.TreeMap.getElem?_eq_none_of_contains_eq_false h
    rw [find?, hk]
  rw [insert_of_find?_eq_none hfind]
  exact Std.TreeMap.contains_insert

theorem erase_of_find?_eq_some {i : Nat} {e : K × V} (h : m.find? k = some (i, e)) :
    m.erase k =
      { slots := m.slots.setIfInBounds i none, index := m.index.erase k, size := m.size - 1 } := by
  rw [erase, h]

theorem erase_of_find?_eq_none (h : m.find? k = none) :
    m.erase k = { m with index := m.index.erase k } := by
  rw [erase, h]

theorem Sound.toList_insert (h : m.Sound) (hk : k ∉ m.keys) (v : V) :
    (m.insert k v).toList = m.toList ++ [(k, v)] := by
  rw [insert_of_find?_eq_none (h.find?_eq_none_iff.mpr hk), toList, Array.toList_push,
    entries_concat]
  rfl

theorem Sound.keys_insert (h : m.Sound) (hk : k ∉ m.keys) (v : V) :
    (m.insert k v).keys = m.keys ++ [k] := by
  rw [keys, h.toList_insert hk, List.map_append]
  rfl

/-! ### Maps without tombstones -/

/-- A sound map without tombstones: every slot has an entry, and no two have the same key. -/
structure Tidy (m : InsertionMap K V) : Prop where
  sound : m.Sound
  nodup_keys : m.keys.Nodup
  tombstones : m.tombstones = 0
  full : ∀ slot ∈ m.slots, slot.isSome

/-- An insertion leaves no slot empty that was not. -/
theorem slotCount_insert (h : m.slotCount = m.size) (k : K) (v : V) :
    (m.insert k v).slotCount = (m.insert k v).size := by
  unfold slotCount at h ⊢
  cases hf : m.find? k with
  | some found =>
    obtain ⟨i, e⟩ := found
    rw [insert_of_find?_eq_some hf]
    simpa using h
  | none =>
    rw [insert_of_find?_eq_none hf]
    simpa using h

theorem slotCount_insertMany {l : List (K × V)} : ∀ {m : InsertionMap K V},
    m.slotCount = m.size → (m.insertMany l).slotCount = (m.insertMany l).size := by
  induction l with
  | nil => exact fun h => h
  | cons e l ih => exact fun h => ih (slotCount_insert h e.1 e.2)

theorem Sound.tidy (h : m.Sound) (hs : m.slotCount = m.size) : m.Tidy := by
  have hcount : m.slots.countP Option.isSome = m.slots.size := h.size ▸ hs.symm
  refine ⟨h, h.nodup_keys, ?_, Array.countP_eq_size.mp hcount⟩
  unfold tombstones
  omega

/-! ### Sound maps stay sound -/

variable [Std.TransOrd K] [Std.LawfulEqOrd K]

theorem getElem?_insert_of_ne {t : Std.TreeMap K Nat} {k k' : K} (h : k ≠ k') (i : Nat) :
    (t.insert k i)[k']? = t[k']? := by
  rw [Std.TreeMap.getElem?_insert, if_neg (mt Std.LawfulEqOrd.compare_eq_iff_eq.mp h)]

theorem getElem?_erase_of_ne {t : Std.TreeMap K Nat} {k k' : K} (h : k ≠ k') :
    (t.erase k)[k']? = t[k']? := by
  rw [Std.TreeMap.getElem?_erase, if_neg (mt Std.LawfulEqOrd.compare_eq_iff_eq.mp h)]

theorem Sound.insert (h : m.Sound) (k : K) (v : V) : (m.insert k v).Sound := by
  cases hf : m.find? k with
  | some found =>
    obtain ⟨i, e⟩ := found
    obtain ⟨rfl, hi⟩ := h.find?_eq_some_iff.mp hf
    rw [insert_of_find?_eq_some hf]
    refine ⟨fun k' j => ?_, ?_⟩
    · rw [h.index, getElem?_setIfInBounds hi]
      split_ifs with hij
      · -- the slot has the key that it had
        subst hij
        simp [hi, Prod.ext_iff]
      · rfl
    · have := countP_pos hi
      rw [countP_setIfInBounds hi, h.size, Option.isSome_some, if_pos rfl]
      omega
  | none =>
    have hk : k ∉ m.keys := h.find?_eq_none_iff.mp hf
    rw [insert_of_find?_eq_none hf]
    refine ⟨fun k' j => ?_, ?_⟩
    · rw [Array.getElem?_push]
      by_cases hkk : k = k'
      · subst hkk
        rw [Std.TreeMap.getElem?_insert_self]
        split_ifs with hj
        · simp [hj]
        · refine iff_of_false (fun he => hj (Option.some.inj he).symm) ?_
          exact fun ⟨w, hw⟩ => hk (mem_keys.mpr ⟨j, w, hw⟩)
      · rw [getElem?_insert_of_ne hkk, h.index]
        split_ifs with hj
        · rw [hj, Array.getElem?_eq_none (Nat.le_refl _)]
          simp [hkk]
        · rfl
    · rw [Array.countP_push, h.size]
      rfl

theorem Sound.erase (h : m.Sound) (k : K) : (m.erase k).Sound := by
  cases hf : m.find? k with
  | some found =>
    obtain ⟨i, e⟩ := found
    obtain ⟨rfl, hi⟩ := h.find?_eq_some_iff.mp hf
    rw [erase_of_find?_eq_some hf]
    refine ⟨fun k' j => ?_, ?_⟩
    · rw [getElem?_setIfInBounds hi]
      by_cases hk : e.1 = k'
      · subst hk
        rw [Std.TreeMap.getElem?_erase_self]
        split_ifs with hij
        · simp
        · -- the key stands in no other slot
          refine iff_of_false (by simp) fun hj => hij ?_
          have hindex : m.index[e.1]? = some i := (h.index e.1 i).mpr ⟨e.2, hi⟩
          exact Option.some.inj (hindex.symm.trans ((h.index e.1 j).mpr hj))
      · rw [getElem?_erase_of_ne hk, h.index]
        split_ifs with hij
        · subst hij
          rw [hi]
          refine iff_of_false ?_ (by simp)
          rintro ⟨w, hw⟩
          exact hk (congrArg Prod.fst (Option.some.inj (Option.some.inj hw)))
        · rfl
    · rw [countP_setIfInBounds hi, h.size]
      rfl
  | none =>
    have hk : k ∉ m.keys := h.find?_eq_none_iff.mp hf
    rw [erase_of_find?_eq_none hf]
    refine ⟨fun k' j => ?_, h.size⟩
    by_cases hkk : k = k'
    · subst hkk
      rw [Std.TreeMap.getElem?_erase_self]
      exact iff_of_false (by simp) fun ⟨v, hv⟩ => hk (mem_keys.mpr ⟨j, v, hv⟩)
    · rw [getElem?_erase_of_ne hkk]
      exact h.index k' j

/-! ### Many entries -/

theorem Sound.insertMany {l : List (K × V)} : ∀ {m : InsertionMap K V}, m.Sound →
    (m.insertMany l).Sound := by
  induction l with
  | nil => exact fun h => h
  | cons e l ih => exact fun h => ih (h.insert e.1 e.2)

theorem Sound.toList_insertMany {l : List (K × V)} : ∀ {m : InsertionMap K V}, m.Sound →
    (m.keys ++ l.map Prod.fst).Nodup → (m.insertMany l).toList = m.toList ++ l := by
  induction l with
  | nil =>
    intro m _ _
    rw [insertMany_nil, List.append_nil]
  | cons e l ih =>
    intro m h hd
    have hk : e.1 ∉ m.keys := fun hk =>
      (List.nodup_append.mp hd).2.2 e.1 hk e.1 (List.mem_cons_self) rfl
    rw [List.map_cons, List.append_cons, ← h.keys_insert hk e.2] at hd
    rw [insertMany_cons, ih (h.insert e.1 e.2) hd, h.toList_insert hk, List.append_assoc]
    rfl

theorem sound_ofList (l : List (K × V)) : (ofList l).Sound :=
  sound_empty.insertMany

theorem sound_of_eq_ofList {l : List (K × V)} (h : m = .ofList l) : m.Sound :=
  h ▸ sound_ofList l

/-- **A map built from entries with distinct keys** lists them in order. -/
theorem toList_ofList {l : List (K × V)} (h : (l.map Prod.fst).Nodup) : (ofList l).toList = l :=
  sound_empty.toList_insertMany h

theorem size_ofList {l : List (K × V)} (h : (l.map Prod.fst).Nodup) :
    (ofList l).size = l.length := by
  rw [← (sound_ofList l).length_toList, toList_ofList h]

/-- **A map that insertions made is tidy.** -/
theorem tidy_ofList (l : List (K × V)) : (ofList l).Tidy :=
  (sound_ofList l).tidy (slotCount_insertMany rfl)

/-! ### Other values under the same keys -/

section Values

variable {W : Type}

omit [Ord K] [Std.TransOrd K] [Std.LawfulEqOrd K] in
theorem keys_map (g : V → W) (l : List (K × V)) :
    (l.map fun e => (e.1, g e.2)).map Prod.fst = l.map Prod.fst :=
  List.map_map

omit [Ord K] [Std.TransOrd K] [Std.LawfulEqOrd K] in
theorem map_eq_self {g : V → V} {l : List (K × V)} (h : ∀ e ∈ l, g e.2 = e.2) :
    (l.map fun e => (e.1, g e.2)) = l := by
  refine (List.map_congr_left fun e he => ?_).trans (List.map_id l)
  exact Prod.ext rfl (h e he)

theorem Sound.toList_ofList_map (h : m.Sound) (g : V → W) :
    (ofList (m.toList.map fun e => (e.1, g e.2))).toList =
      m.toList.map fun e => (e.1, g e.2) := by
  refine toList_ofList ?_
  rw [keys_map]
  exact h.nodup_keys

theorem Sound.size_ofList_map (h : m.Sound) (g : V → W) :
    (ofList (m.toList.map fun e => (e.1, g e.2))).size = m.size := by
  rw [← (sound_ofList _).length_toList, h.toList_ofList_map, List.length_map, h.length_toList]

end Values

/-! ### One entry at a time -/

/-- No key of the entries is in the map when its turn comes. -/
def Fresh : InsertionMap K V → List (K × V) → Prop
  | _, [] => True
  | m, e :: l => m.contains e.1 = false ∧ (m.insert e.1 e.2).Fresh l

theorem Sound.fresh_iff : ∀ {l : List (K × V)} {m : InsertionMap K V}, m.Sound →
    (m.Fresh l ↔ (m.keys ++ l.map Prod.fst).Nodup)
  | [], m, h => by
    rw [List.map_nil, List.append_nil]
    exact iff_of_true trivial h.nodup_keys
  | e :: l, m, h => by
    rw [Fresh, h.contains_eq_false_iff, (h.insert e.1 e.2).fresh_iff, List.map_cons,
      List.append_cons]
    constructor
    · rintro ⟨hk, hd⟩
      rwa [h.keys_insert hk] at hd
    · intro hd
      have hk : e.1 ∉ m.keys := fun hk =>
        (List.nodup_append.mp hd.of_append_left).2.2 e.1 hk e.1 (List.mem_singleton_self _) rfl
      rw [h.keys_insert hk]
      exact ⟨hk, hd⟩

theorem fresh_empty_iff {l : List (K × V)} :
    (∅ : InsertionMap K V).Fresh l ↔ (l.map Prod.fst).Nodup :=
  sound_empty.fresh_iff

end TagFormat.InsertionMap
