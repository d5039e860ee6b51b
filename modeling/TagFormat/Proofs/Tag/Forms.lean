import TagFormat.Proofs.Input.Runs
import TagFormat.Proofs.Tag.Cells

/-! # Items that are read by their form

A program reads items by a form when it reads an item, in every frame, from exactly the bytes that
spell the cells of the item, and only items that it may (`Formed`). Items of one size, counted
items, entries and items up to the end of a payload are then read by the forms that are put together
from those of the parts. -/

namespace TagFormat.Reading

open Cell

variable {α β : Type} {P : α → Prop} {f : α → List Cell} {p : Reading α} {what : String}
  {size : Nat} {left : Option Nat} {c : Bytes}

/-- The bytes spell the cells of an item, which is one of those allowed. -/
def Formed (P : α → Prop) (f : α → List Cell) (c : Bytes) (a : α) : Prop :=
  P a ∧ Spells (f a) c

theorem parts_formed_iff : ∀ {c : Bytes} {as : List α},
    Parts (Formed P f) c as ↔ (∀ a ∈ as, P a) ∧ Spells (as.flatMap f) c
  | c, [] => by
    rw [List.flatMap_nil, spells_nil]
    exact (and_iff_right (List.forall_mem_nil _)).symm
  | c, a :: as => by
    rw [List.flatMap_cons, List.forall_mem_cons, spells_append]
    constructor
    · rintro ⟨c₁, c₂, rfl, ⟨ha, h₁⟩, h₂⟩
      obtain ⟨has, h₂⟩ := parts_formed_iff.mp h₂
      exact ⟨⟨ha, has⟩, c₁, c₂, rfl, h₁, h₂⟩
    · rintro ⟨⟨ha, has⟩, c₁, c₂, rfl, h₁, h₂⟩
      exact ⟨c₁, c₂, rfl, ⟨ha, h₁⟩, parts_formed_iff.mpr ⟨has, h₂⟩⟩

theorem pair_formed {Q : β → Prop} {g : β → List Cell} :
    Pair (Formed P f) (Formed Q g) =
      Formed (fun e : α × β => P e.1 ∧ Q e.2) fun e => f e.1 ++ g e.2 := by
  funext c e
  rw [Pair, Formed, spells_append]
  refine propext ⟨?_, ?_⟩
  · rintro ⟨c₁, c₂, rfl, ⟨hP, h₁⟩, hQ, h₂⟩
    exact ⟨⟨hP, hQ⟩, c₁, c₂, rfl, h₁, h₂⟩
  · rintro ⟨⟨hP, hQ⟩, c₁, c₂, rfl, h₁, h₂⟩
    exact ⟨c₁, c₂, rfl, ⟨hP, h₁⟩, hQ, h₂⟩

theorem Formed.length_pos (hf : ∀ a, P a → 0 < (f a).length) {a : α} (h : Formed P f c a) :
    0 < c.length := by
  have := hf a h.1
  rwa [h.2.length_eq] at this

/-! ### Declared sizes -/

theorem yields_ofSize {expected : Nat} {a : α} :
    (ofSize what expected (.exact size) p).Yields left c a ↔
      size = expected ∧ p.Yields left c a := by
  rw [ofSize, yields_ofExcept_bind]
  have hr : (Declared.exact size).require what expected =
      if size = expected then .ok () else .error (.format (.sizeMismatch what expected size)) := rfl
  rw [hr]
  split_ifs with h <;> simp [h]

theorem yields_framed {minimum : Nat} {body : Nat → Reading α} {a : α} :
    (framed what minimum (.exact size) body).Yields left c a ↔
      minimum ≤ size ∧ c.length = size ∧ (body size).Yields (some size) c a := by
  rw [framed, yields_ofExcept_bind]
  have hr : (Declared.exact size).atLeast what minimum =
      if size < minimum then .error (.format (.tooShort what minimum size)) else .ok size := rfl
  rw [hr]
  split_ifs with h
  · simp
    omega
  · simp [yields_exactly]
    omega

/-! ### Counts -/

/-- **A count before items** is the number of the items, if each of them takes a byte. -/
theorem yields_count {q : UInt64 → Reading β} {b : β} {n : Nat} {D : Prop} {g : List Cell}
    (hq : ∀ count left c, (q count).Yields left c b ↔ n = count.toNat ∧ D ∧ Spells g c)
    (hn : D → n ≤ g.length) (hc : c.length < 2 ^ 64) :
    (varint.bind fun count => (ensureFits what count.toNat).bind fun _ => q count).Yields
      (some c.length) c b ↔ D ∧ Spells (exacts (Varint.encode (UInt64.ofNat n)) ++ g) c := by
  rw [yields_bind_varint, spells_append]
  simp only [yields_bind (ensureFits _ _), hq, Option.map_some, spells_exacts]
  constructor
  · rintro ⟨count, _, rfl, c₂, c₃, _, rfl, h₂, rfl, hD, h₃⟩
    obtain ⟨rfl, -⟩ := yields_ensureFits.mp h₂
    exact ⟨hD, _, c₃, rfl, by rw [UInt64.ofNat_toNat], h₃⟩
  · rintro ⟨hD, c₁, c₂, rfl, rfl, h₂⟩
    have hle := hn hD
    rw [h₂.length_eq] at hle
    rw [List.length_append] at hc ⊢
    have hlt : n < 2 ^ 64 := by omega
    have hn' : (UInt64.ofNat n).toNat = n := UInt64.toNat_ofNat_of_lt' hlt
    refine ⟨UInt64.ofNat n, c₂, rfl, [], c₂, (), rfl, ?_, hn'.symm, hD, h₂⟩
    rw [yields_ensureFits, hn']
    exact ⟨rfl, by omega⟩

/-- **Counted items** are read by their forms, after their number. -/
theorem yields_counted (hp : p.Reads (Formed P f)) (hf : ∀ a, P a → 0 < (f a).length)
    (hsize : size < 2 ^ 64) {as : List α} :
    (counted what (.exact size) p).Yields left c as ↔ c.length = size ∧ (∀ a ∈ as, P a) ∧
      Spells (exacts (Varint.encode (UInt64.ofNat as.length)) ++ as.flatMap f) c := by
  have hn : (∀ a ∈ as, P a) → as.length ≤ (as.flatMap f).length :=
    fun h => length_le_length_flatMap fun a ha => hf a (h a ha)
  rw [counted, yields_framed]
  constructor
  · rintro ⟨-, rfl, h⟩
    refine ⟨rfl, (yields_count ?_ hn hsize).mp h⟩
    intro count left c
    rw [yields_times hp, parts_formed_iff]
  · rintro ⟨rfl, h⟩
    have hpos : 1 ≤ c.length := by
      rw [← h.2.length_eq, List.length_append, length_exacts, Varint.length_encode]
      have := Varint.encodedSize_pos (UInt64.ofNat as.length)
      omega
    refine ⟨hpos, rfl, (yields_count ?_ hn hsize).mpr h⟩
    intro count left c
    rw [yields_times hp, parts_formed_iff]

/-- **The entries of a map** are read by the forms of their keys and values, after their number. The
map is built from the entries in order, so no key comes twice. -/
theorem yields_entries {key : Reading String} {K : String → Prop} {k : String → List Cell}
    (hk : key.Reads (Formed K k)) (hp : p.Reads (Formed P f)) (hf : ∀ a, P a → 0 < (f a).length)
    (hsize : size < 2 ^ 64) {m : InsertionMap String α} :
    (entries what (.exact size) key p).Yields left c m ↔ c.length = size ∧
      (m = .ofList m.toList ∧ ∀ e ∈ m.toList, K e.1 ∧ P e.2) ∧
      Spells (exacts (Varint.encode (UInt64.ofNat m.size)) ++
        m.toList.flatMap fun e => k e.1 ++ f e.2) c := by
  have hq : ∀ (count : UInt64) left c, (entriesInto what key p count.toNat ∅).Yields left c m ↔
      m.size = count.toNat ∧
        (m = .ofList m.toList ∧ ∀ e ∈ m.toList, K e.1 ∧ P e.2) ∧
        Spells (m.toList.flatMap fun e => k e.1 ++ f e.2) c := by
    intro count left c
    rw [yields_entriesInto hk hp, pair_formed]
    simp only [parts_formed_iff, InsertionMap.fresh_empty_iff]
    constructor
    · rintro ⟨l, hl, ⟨hP, hs⟩, hd, rfl⟩
      have ht : (InsertionMap.ofList l).toList = l := InsertionMap.toList_ofList hd
      change (InsertionMap.ofList l).size = _ ∧
        (InsertionMap.ofList l = .ofList (InsertionMap.ofList l).toList ∧
        ∀ e ∈ (InsertionMap.ofList l).toList, _) ∧
        Spells ((InsertionMap.ofList l).toList.flatMap _) c
      rw [InsertionMap.size_ofList hd, ht]
      exact ⟨hl, ⟨rfl, hP⟩, hs⟩
    · rintro ⟨hl, ⟨hm, hP⟩, hs⟩
      have hsound := InsertionMap.sound_of_eq_ofList hm
      exact ⟨m.toList, hsound.length_toList.trans hl, ⟨hP, hs⟩, hsound.nodup_keys, hm⟩
  have hn : (m = .ofList m.toList ∧ ∀ e ∈ m.toList, K e.1 ∧ P e.2) →
      m.size ≤ (m.toList.flatMap fun e => k e.1 ++ f e.2).length := fun h => by
    rw [← (InsertionMap.sound_of_eq_ofList h.1).length_toList]
    refine length_le_length_flatMap fun e he => ?_
    have := hf e.2 (h.2 e he).2
    rw [List.length_append]
    omega
  rw [entries, yields_framed]
  constructor
  · rintro ⟨-, rfl, h⟩
    exact ⟨rfl, (yields_count hq hn hsize).mp h⟩
  · rintro ⟨rfl, h⟩
    have hpos : 1 ≤ c.length := by
      rw [← h.2.length_eq, List.length_append, length_exacts, Varint.length_encode]
      have := Varint.encodedSize_pos (UInt64.ofNat m.size)
      omega
    exact ⟨hpos, rfl, (yields_count hq hn hsize).mpr h⟩

end TagFormat.Reading
