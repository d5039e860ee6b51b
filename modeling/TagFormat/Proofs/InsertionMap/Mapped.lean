import TagFormat.Proofs.InsertionMap

/-! # Other values under the same keys

Changing the values of a map leaves its slots, its index and its count as they are. So all that
depends on keys alone stays (`contains_map`), and setting a value goes with the change of values
(`map_insert`), as do those of a list one after the other (`map_ofList`). -/

namespace TagFormat.InsertionMap

variable {K V W : Type} [Ord K] {m : InsertionMap K V}

/-- The map with `f` of each value in its place. -/
def map (f : V → W) (m : InsertionMap K V) : InsertionMap K W where
  slots := m.slots.map (Option.map fun e => (e.1, f e.2))
  index := m.index
  size := m.size

@[simp] theorem size_map (f : V → W) (m : InsertionMap K V) : (m.map f).size = m.size := rfl

@[simp] theorem contains_map (f : V → W) (m : InsertionMap K V) (k : K) :
    (m.map f).contains k = m.contains k := rfl

omit [Ord K] in
theorem entries_map (f : V → W) : ∀ slots : List (Option (K × V)),
    entries (slots.map (Option.map fun e => (e.1, f e.2))) =
      (entries slots).map fun e => (e.1, f e.2)
  | [] => rfl
  | none :: slots => entries_map f slots
  | some e :: slots => by
    rw [List.map_cons, Option.map_some, entries_some_cons, entries_some_cons, entries_map f slots,
      List.map_cons]

@[simp] theorem toList_map (f : V → W) (m : InsertionMap K V) :
    (m.map f).toList = m.toList.map fun e => (e.1, f e.2) := by
  rw [toList, toList, map, Array.toList_map, entries_map]

@[simp] theorem values_map (f : V → W) (m : InsertionMap K V) :
    (m.map f).values = m.values.map f := by
  rw [values, values, toList_map, List.map_map, List.map_map]
  rfl

theorem map_map {X : Type} (g : W → X) (f : V → W) (m : InsertionMap K V) :
    (m.map f).map g = m.map (g ∘ f) := by
  simp only [map, Array.map_map, Option.map_comp_map]
  rfl

theorem map_congr {f g : V → W} (h : ∀ v ∈ m.values, f v = g v) : m.map f = m.map g := by
  have hslots : ∀ slot ∈ m.slots, slot.map (fun e => (e.1, f e.2)) =
      slot.map (fun e => (e.1, g e.2)) := by
    rintro (_ | e) hslot
    · rfl
    · have he : e ∈ m.toList := mem_entries.mpr (Array.mem_toList_iff.mpr hslot)
      rw [Option.map_some, Option.map_some, h e.2 (List.mem_map_of_mem he)]
  rw [map, map, Array.map_congr_left hslots]

@[simp] theorem map_id (m : InsertionMap K V) : m.map id = m := by
  have hslots : m.slots.map (Option.map fun e => (e.1, id e.2)) = m.slots :=
    (congrArg (Array.map · m.slots) Option.map_id).trans (Array.map_id m.slots)
  rw [map, hslots]

theorem find?_map (f : V → W) (m : InsertionMap K V) (k : K) :
    (m.map f).find? k = (m.find? k).map fun found => (found.1, found.2.1, f found.2.2) := by
  unfold find? map
  simp only [Array.getElem?_map]
  rcases m.index[k]? with _ | i
  · rfl
  · dsimp only
    rcases m.slots[i]? with _ | _ | e <;> rfl

theorem map_insert (f : V → W) (m : InsertionMap K V) (k : K) (v : V) :
    (m.insert k v).map f = (m.map f).insert k (f v) := by
  have hfind := find?_map f m k
  unfold insert
  rw [hfind]
  cases m.find? k with
  | none => simp [map]
  | some found => simp [map]

theorem map_insertMany (f : V → W) : ∀ (l : List (K × V)) (m : InsertionMap K V),
    (m.insertMany l).map f = (m.map f).insertMany (l.map fun e => (e.1, f e.2))
  | [], _ => rfl
  | e :: l, m => by
    rw [insertMany_cons, map_insertMany f l, map_insert, List.map_cons, insertMany_cons]

theorem map_empty (f : V → W) : (∅ : InsertionMap K V).map f = ∅ := by
  change InsertionMap.mk ((#[] : Array (Option (K × V))).map _) ∅ 0 = _
  rw [Array.map_empty]
  rfl

theorem map_ofList (f : V → W) (l : List (K × V)) :
    (ofList l).map f = ofList (l.map fun e => (e.1, f e.2)) := by
  rw [ofList, map_insertMany, map_empty, ofList]

theorem insert_ofList (l : List (K × V)) (k : K) (v : V) :
    (ofList l).insert k v = ofList (l ++ [(k, v)]) := by
  rw [ofList, ofList, insertMany, insertMany, List.foldl_append]
  rfl

variable [Std.TransOrd K] [Std.LawfulEqOrd K] {l : List (K × V)}

/-- A map of fresh entries has the keys of these. -/
theorem contains_ofList_iff (h : (l.map Prod.fst).Nodup) {k : K} :
    (ofList l).contains k = true ↔ k ∈ l.map Prod.fst := by
  have hiff := (sound_ofList l).contains_eq_false_iff (k := k)
  rw [keys, toList_ofList h] at hiff
  rw [← not_iff_not, Bool.not_eq_true, hiff]

/-- Another fresh entry leaves no key twice. -/
theorem nodup_keys_concat (h : (l.map Prod.fst).Nodup) {k : K}
    (hk : ¬(ofList l).contains k = true) (v : V) : ((l ++ [(k, v)]).map Prod.fst).Nodup := by
  rw [contains_ofList_iff h] at hk
  rw [List.map_append, List.map_singleton, List.nodup_append]
  refine ⟨h, List.nodup_singleton _, fun k' hk' k'' hk'' => ?_⟩
  rw [List.mem_singleton.mp hk'']
  rintro rfl
  exact hk hk'

end TagFormat.InsertionMap
