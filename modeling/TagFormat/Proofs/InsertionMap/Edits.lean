import TagFormat.Proofs.InsertionMap.Lists

/-! # Any course of edits

Maps are set up, changed, copied and compacted in any order. Beside them, the same is done to plain
lists of entries with unique keys, where compaction does nothing. One edit keeps a map and its list
together (`Lists.edit`), and so does any course of them (`lists_runAll`). At every point each map
stands for its list (`Represents`): it is sound, and nothing that can be asked of it tells more than
the list does (`Lists.represents`). -/

namespace TagFormat.InsertionMap

open Entries

/-- What is done to one map. -/
inductive Edit (K V : Type) where
  | put (k : K) (v : V)
  | remove (k : K)
  /-- Changes the value of a key in place. -/
  | update (k : K) (f : V → V)
  | compact
  | clear
  | extend (es : List (K × V))

/-- What is done to maps that are kept under numbers. -/
inductive Action (K V : Type) where
  | edit (i : Nat) (e : Edit K V)
  /-- Copies the map at `i` and keeps it at `j`. -/
  | copy (i j : Nat)
  /-- Makes a map of entries and keeps it at `i`. -/
  | collect (i : Nat) (es : List (K × V))

variable {K V : Type}

/-! ### Maps and lists -/

/-- An edit of a map, and the value that comes back. -/
def Edit.onMap [Ord K] : Edit K V → InsertionMap K V → Option V × InsertionMap K V
  | put k v, m => m.getThenInsert? k v
  | remove k, m => m.getThenErase? k
  | update k f, m => m.modify? k f
  | compact, m => (none, m.compact)
  | clear, _ => (none, ∅)
  | extend es, m => (none, m.insertMany es)

/-- The same edit of a list. -/
def Edit.onList [DecidableEq K] : Edit K V → List (K × V) → Option V × List (K × V)
  | put k v, l => (l.lookup k, Entries.put l k v)
  | remove k, l => (l.lookup k, Entries.remove l k)
  | update k f, l => ((l.lookup k).map f, Entries.update l k f)
  | compact, l => (none, l)
  | clear, _ => (none, [])
  | extend es, l => (none, putMany l es)

/-- Takes one action, and tells the value that comes back. -/
def Action.run {σ : Type} (edit : Edit K V → σ → Option V × σ) (collect : List (K × V) → σ) :
    Action K V → (Nat → σ) → Option V × (Nat → σ)
  | .edit i e, kept => ((edit e (kept i)).1, Function.update kept i (edit e (kept i)).2)
  | .copy i j, kept => (none, Function.update kept j (kept i))
  | .collect i es, kept => (none, Function.update kept i (collect es))

/-- Takes actions one after another. -/
def Action.runAll {σ : Type} (edit : Edit K V → σ → Option V × σ) (collect : List (K × V) → σ) :
    List (Action K V) → (Nat → σ) → List (Option V) × (Nat → σ)
  | [], kept => ([], kept)
  | a :: actions, kept =>
    let (v, kept) := a.run edit collect kept
    let (vs, kept) := runAll edit collect actions kept
    (v :: vs, kept)

/-- The actions on maps, all of them empty at first. -/
def runOnMaps [Ord K] (actions : List (Action K V)) :
    List (Option V) × (Nat → InsertionMap K V) :=
  Action.runAll Edit.onMap ofList actions fun _ => ∅

/-- The actions on lists. -/
def runOnLists [DecidableEq K] (actions : List (Action K V)) :
    List (Option V) × (Nat → List (K × V)) :=
  Action.runAll Edit.onList (putMany []) actions fun _ => []

variable [Ord K]

/-- The map is sound and lists these entries. -/
def Lists (m : InsertionMap K V) (l : List (K × V)) : Prop :=
  m.Sound ∧ m.toList = l

variable [DecidableEq K]

/-! ### What can be asked of a map -/

/-- **A map stands for a list.** The index tells the slots of exactly the keys that are there, and
the occupied slots are counted and make up the list, in which no key comes twice. What is looked up
and listed is looked up and listed there. The tombstones are the slots that are left over, and none
after compaction. A cursor that has handed out some entries tells how many are still to come, and
never counts below zero. -/
structure Represents (m : InsertionMap K V) (l : List (K × V)) : Prop where
  index : ∀ (k : K) (i : Nat), m.index[k]? = some i ↔ ∃ v, m.slots[i]? = some (some (k, v))
  occupied : m.size = m.slots.countP Option.isSome
  toList : m.toList = l
  nodup : (l.map Prod.fst).Nodup
  get? : ∀ k, m.get? k = l.lookup k
  contains : ∀ k, m.contains k = decide (k ∈ l.map Prod.fst)
  size : m.size = l.length
  isEmpty : m.isEmpty = l.isEmpty
  keys : m.keys = l.map Prod.fst
  values : m.values = l.map Prod.snd
  size_le : m.size ≤ m.slotCount
  tombstones : m.tombstones = m.slots.countP Option.isNone
  compact : m.compact.tombstones = 0
  taken : ∀ n, (m.cursor.take n).1 = l.take n
  left : ∀ n, (m.cursor.take n).2.left = (l.drop n).length
  next? : ∀ n, ((m.cursor.take n).2.next? = none ∧ l.drop n = []) ∨
    ∃ e c, (m.cursor.take n).2.next? = some (e, c) ∧ l.drop n = e :: l.drop (n + 1) ∧
      (m.cursor.take n).2.left = c.left + 1

/-! ### One step after the other -/

variable [Std.TransOrd K] [Std.LawfulEqOrd K] {m : InsertionMap K V} {l : List (K × V)}

/-- **One edit** gives the same value back from the map as from the list, and keeps them
together. -/
theorem Lists.edit (h : m.Lists l) (e : Edit K V) :
    (e.onMap m).1 = (e.onList l).1 ∧ (e.onMap m).2.Lists (e.onList l).2 := by
  obtain ⟨hm, rfl⟩ := h
  cases e with
  | put k v => exact ⟨hm.get?_eq_lookup k, hm.insert k v, hm.toList_insert_eq_put k v⟩
  | remove k => exact ⟨hm.get?_eq_lookup k, hm.erase k, hm.toList_erase_eq_remove k⟩
  | update k f =>
    obtain ⟨hback, hlist⟩ := hm.modify?_eq k f
    exact ⟨hback, hm.modify? k f, hlist⟩
  | compact => exact ⟨rfl, hm.compact, hm.toList_compact⟩
  | clear => exact ⟨rfl, sound_empty, rfl⟩
  | extend es => exact ⟨rfl, hm.insertMany, hm.toList_insertMany_eq_putMany es⟩

theorem lists_ofList (es : List (K × V)) : (ofList es).Lists (putMany [] es) :=
  ⟨sound_ofList es, sound_empty.toList_insertMany_eq_putMany es⟩

/-- **One action** gives the same value back from the maps as from the lists, and keeps all of them
together. -/
theorem lists_run {maps : Nat → InsertionMap K V} {lists : Nat → List (K × V)}
    (h : ∀ i, (maps i).Lists (lists i)) (a : Action K V) :
    (a.run Edit.onMap ofList maps).1 = (a.run Edit.onList (putMany []) lists).1 ∧
      ∀ i, ((a.run Edit.onMap ofList maps).2 i).Lists
        ((a.run Edit.onList (putMany []) lists).2 i) := by
  have hupdate : ∀ (j : Nat) {m : InsertionMap K V} {l : List (K × V)}, m.Lists l →
      ∀ i, (Function.update maps j m i).Lists (Function.update lists j l i) := by
    intro j m l hml i
    by_cases hij : i = j
    · subst hij
      rw [Function.update_self, Function.update_self]
      exact hml
    · rw [Function.update_of_ne hij, Function.update_of_ne hij]
      exact h i
  cases a with
  | edit i e =>
    obtain ⟨hback, hml⟩ := (h i).edit e
    exact ⟨hback, hupdate i hml⟩
  | copy i j => exact ⟨rfl, hupdate j (h i)⟩
  | collect i es => exact ⟨rfl, hupdate i (lists_ofList es)⟩

/-- Actions one after another. -/
theorem lists_runAll (actions : List (Action K V)) {maps : Nat → InsertionMap K V}
    {lists : Nat → List (K × V)} (h : ∀ i, (maps i).Lists (lists i)) :
    (Action.runAll Edit.onMap ofList actions maps).1 =
        (Action.runAll Edit.onList (putMany []) actions lists).1 ∧
      ∀ i, ((Action.runAll Edit.onMap ofList actions maps).2 i).Lists
        ((Action.runAll Edit.onList (putMany []) actions lists).2 i) := by
  induction actions generalizing maps lists with
  | nil => exact ⟨rfl, h⟩
  | cons a actions ih =>
    obtain ⟨hback, hkept⟩ := lists_run h a
    obtain ⟨hbacks, hrest⟩ := ih hkept
    refine ⟨?_, hrest⟩
    rw [Action.runAll, Action.runAll]
    simp only
    rw [hback, hbacks]

/-! ### At the end -/

theorem Lists.represents (h : m.Lists l) : m.Represents l := by
  obtain ⟨hm, rfl⟩ := h
  have htake := hm.counts_cursor.take
  have hleft : ∀ n, (m.cursor.take n).2.left = (m.toList.drop n).length := by
    intro n
    obtain ⟨-, hrest, hcounts⟩ := htake n
    have hentries : entries (m.cursor.take n).2.rest = m.toList.drop n := hrest
    rw [hcounts, hentries]
  have hnext : ∀ n, ((m.cursor.take n).2.next? = none ∧ m.toList.drop n = []) ∨
      ∃ e c, (m.cursor.take n).2.next? = some (e, c) ∧
        m.toList.drop n = e :: m.toList.drop (n + 1) ∧
        (m.cursor.take n).2.left = c.left + 1 := by
    intro n
    obtain ⟨-, hrest, hcounts⟩ := htake n
    have hentries : entries (m.cursor.take n).2.rest = m.toList.drop n := hrest
    rcases hcounts.next? with ⟨hn, hzero⟩ | ⟨e, c, hn, hcons, -, hcount⟩
    · rw [hleft] at hzero
      exact .inl ⟨hn, List.eq_nil_of_length_eq_zero hzero⟩
    · rw [hentries] at hcons
      have htail : m.toList.drop (n + 1) = entries c.rest := by
        rw [← List.tail_drop, hcons, List.tail_cons]
      exact .inr ⟨e, c, hn, by rw [htail, hcons], hcount⟩
  exact {
    index := hm.index
    occupied := hm.size
    toList := rfl
    nodup := hm.nodup_keys
    get? := hm.get?_eq_lookup
    contains := hm.contains_eq
    size := hm.length_toList.symm
    isEmpty := hm.isEmpty_eq
    keys := rfl
    values := rfl
    size_le := hm.size_le_slotCount
    tombstones := hm.tombstones_eq
    compact := hm.tombstones_compact
    taken := fun n => (htake n).1
    left := hleft
    next? := hnext }

/-! ### Edits of one map -/

/-- The map that edits make of an empty one. -/
def edited (edits : List (Edit K V)) : InsertionMap K V :=
  edits.foldl (fun m e => (e.onMap m).2) ∅

/-- The list that the same edits make of an empty one. -/
def listed (edits : List (Edit K V)) : List (K × V) :=
  edits.foldl (fun l e => (e.onList l).2) []

theorem lists_edited (edits : List (Edit K V)) : (edited edits).Lists (listed edits) := by
  have hfold : ∀ (edits : List (Edit K V)) {m : InsertionMap K V} {l : List (K × V)}, m.Lists l →
      (edits.foldl (fun m e => (e.onMap m).2) m).Lists
        (edits.foldl (fun l e => (e.onList l).2) l) := by
    intro edits
    induction edits with
    | nil => exact fun h => h
    | cons e edits ih => exact fun h => ih (h.edit e).2
  exact hfold edits ⟨sound_empty, rfl⟩

/-- The edit sets the value of a key that may be new. -/
def Edit.Puts (k : K) : Edit K V → Prop
  | put k' _ => k' = k
  | extend es => k ∈ es.map Prod.fst
  | _ => False

omit [Ord K] [Std.TransOrd K] [Std.LawfulEqOrd K] in
/-- A key that is not there stays away until an edit puts it. -/
theorem Edit.not_mem_onList {e : Edit K V} {k : K} (he : ¬e.Puts k)
    (h : k ∉ l.map Prod.fst) : k ∉ (e.onList l).2.map Prod.fst := by
  cases e with
  | put k' v => exact not_mem_put (Ne.symm he) h v
  | remove k' => exact fun hmem => h (List.map_subset _ (List.filter_subset_self l) hmem)
  | update k' f =>
    change k ∉ (Entries.update l k' f).map Prod.fst
    rwa [keys_update]
  | compact => exact h
  | clear => exact List.not_mem_nil
  | extend es =>
    change k ∉ (putMany l es).map Prod.fst
    have hes : k ∉ es.map Prod.fst := he
    clear he
    induction es generalizing l with
    | nil => exact h
    | cons d es ih =>
      rw [List.map_cons, List.mem_cons, not_or] at hes
      exact ih (not_mem_put hes.1 h d.2) hes.2

omit [Ord K] [Std.TransOrd K] [Std.LawfulEqOrd K] in
/-- **A key that was removed** and not put again is not listed. -/
theorem not_mem_listed {before after : List (Edit K V)} {k : K} (h : ∀ e ∈ after, ¬e.Puts k) :
    k ∉ (listed (before ++ .remove k :: after)).map Prod.fst := by
  have hfold : ∀ (edits : List (Edit K V)) {l : List (K × V)}, (∀ e ∈ edits, ¬e.Puts k) →
      k ∉ l.map Prod.fst → k ∉ (edits.foldl (fun l e => (e.onList l).2) l).map Prod.fst := by
    intro edits
    induction edits with
    | nil => exact fun _ hl => hl
    | cons e edits ih =>
      intro l he hl
      obtain ⟨he, hedits⟩ := List.forall_mem_cons.mp he
      exact ih hedits (Edit.not_mem_onList he hl)
  rw [listed, List.foldl_append, List.foldl_cons]
  refine hfold after h fun hmem => ?_
  obtain ⟨e, he, rfl⟩ := List.mem_map.mp hmem
  exact absurd rfl (of_decide_eq_true (List.mem_filter.mp he).2)

/-! ### Edits of many maps -/

/-- **Any course of edits** gives the same values back from maps as from lists with unique keys, and
at its end every map stands for its list; two maps are equal when their lists are. -/
theorem run_represents [BEq V] (actions : List (Action K V)) :
    (runOnMaps actions).1 = (runOnLists actions).1 ∧
      ∀ i, ((runOnMaps actions).2 i).Represents ((runOnLists actions).2 i) ∧
        ∀ j, ((runOnMaps actions).2 i == (runOnMaps actions).2 j) =
          ((runOnLists actions).2 i == (runOnLists actions).2 j) := by
  have hempty : ∀ _ : Nat, (∅ : InsertionMap K V).Lists [] := fun _ => ⟨sound_empty, rfl⟩
  obtain ⟨hback, hkept⟩ := lists_runAll actions hempty
  refine ⟨hback, fun i => ⟨(hkept i).represents, fun j => ?_⟩⟩
  obtain ⟨hi, hli⟩ := hkept i
  obtain ⟨hj, hlj⟩ := hkept j
  rw [runOnMaps, hi.beq_eq hj, hli, hlj]
  rfl

/-- A map that is copied, compacted after a removal, and added to, beside the copy, in which a value
is changed. -/
theorem run_represents_copies :
    let actions : List (Action Nat Nat) := [.edit 0 (.put 5 1), .edit 0 (.put 3 2), .copy 0 1,
      .edit 0 (.remove 5), .edit 0 .compact, .edit 0 (.put 5 7), .edit 1 (.update 3 (· + 1))]
    (runOnMaps actions).1 = [none, none, none, some 1, none, none, some 3] ∧
      ((runOnMaps actions).2 0).toList = [(3, 2), (5, 7)] ∧
      ((runOnMaps actions).2 1).toList = [(5, 1), (3, 3)] ∧
      ((runOnMaps actions).2 0 == (runOnMaps actions).2 1) = false := by
  intro actions
  obtain ⟨hback, hkept⟩ := run_represents actions
  refine ⟨hback.trans (by decide), (hkept 0).1.toList.trans (by decide),
    (hkept 1).1.toList.trans (by decide), ((hkept 0).2 1).trans (by decide)⟩

end TagFormat.InsertionMap
