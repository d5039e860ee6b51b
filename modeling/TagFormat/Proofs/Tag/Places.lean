import Mathlib.Data.List.Infix
import TagFormat.Proofs.Tag.Cells

/-! # Where tags stand in tags

The form of a tag is a part of that of every tag that it is inside (`Tag.Inside.cells_infix`), so it
stands at some place there (`Tag.StandsAt`). Conversely, a cell of a truth value is always that of a
tag inside which holds this value, right after the header of the tag (`Tag.hasTruthAt_iff`). So the
payloads of such tags are the only bytes that are not fixed. -/

namespace TagFormat

open Cell

/-! ### One cell in a list of cells -/

namespace Cell

/-- A cell after some others stands in one half or in the other. -/
theorem concat_prefix_append {u v x : List Cell} {cell : Cell} (h : x ++ [cell] <+: u ++ v) :
    x ++ [cell] <+: u ∨ ∃ y, x = u ++ y ∧ y ++ [cell] <+: v := by
  by_cases hl : x.length < u.length
  · left
    refine List.prefix_of_prefix_length_le h (List.prefix_append u v) ?_
    rw [List.length_append, List.length_singleton]
    omega
  · right
    have hu : u <+: x := by
      refine List.prefix_of_prefix_length_le (List.prefix_append u v) ?_ (not_lt.mp hl)
      exact (List.prefix_append x [cell]).trans h
    obtain ⟨y, rfl⟩ := hu
    rw [List.append_assoc] at h
    exact ⟨y, rfl, (List.prefix_append_right_inj u).mp h⟩

theorem truth_not_mem_exacts {b : Bool} {c : Bytes} : truth b ∉ exacts c := by
  intro h
  obtain ⟨_, -, he⟩ := List.mem_map.mp h
  cases he

theorem not_prefix_exacts {x : List Cell} {b : Bool} {c : Bytes} :
    ¬x ++ [truth b] <+: exacts c :=
  fun h => truth_not_mem_exacts (h.subset (List.mem_append_right x (List.mem_singleton_self _)))

/-- A truth value stands behind bytes that are fixed. -/
theorem exists_of_prefix_exacts_append {x v : List Cell} {b : Bool} {c : Bytes}
    (h : x ++ [truth b] <+: exacts c ++ v) : ∃ y, x = exacts c ++ y ∧ y ++ [truth b] <+: v :=
  (concat_prefix_append h).resolve_left not_prefix_exacts

variable {α : Type} {f : α → List Cell}

/-- A cell among those of some items stands among those of one item. -/
theorem exists_of_prefix_flatMap {cell : Cell} : ∀ {l : List α} {x : List Cell},
    x ++ [cell] <+: l.flatMap f →
      ∃ a ∈ l, ∃ y z, x = y ++ z ∧ y ++ f a <+: l.flatMap f ∧ z ++ [cell] <+: f a
  | [], x, h => by
    have := h.length_le
    rw [List.length_append, List.length_singleton] at this
    exact absurd this (Nat.not_succ_le_zero _)
  | a :: l, x, h => by
    rw [List.flatMap_cons] at h ⊢
    rcases concat_prefix_append h with ha | ⟨x, rfl, hl⟩
    · exact ⟨a, List.mem_cons_self, [], x, rfl, List.prefix_append .., ha⟩
    · obtain ⟨e, he, y, z, rfl, hy, hz⟩ := exists_of_prefix_flatMap hl
      refine ⟨e, List.mem_cons_of_mem a he, f a ++ y, z, (List.append_assoc ..).symm, ?_, hz⟩
      rw [List.append_assoc]
      exact (List.prefix_append_right_inj (f a)).mpr hy

theorem infix_flatMap {a : α} {l : List α} (h : a ∈ l) : f a <:+: l.flatMap f := by
  obtain ⟨l₁, l₂, rfl⟩ := List.append_of_mem h
  rw [List.flatMap_append, List.flatMap_cons, ← List.append_assoc]
  exact List.infix_append ..

end Cell

/-! ### Places -/

theorem Payload.cells_infix_of_mem {p : Payload} {u : Tag} (h : u ∈ p.children) :
    u.cells <:+: p.cells := by
  cases p with
  | tagArray tags =>
    rw [cells_tagArray]
    exact (infix_flatMap h).trans (List.suffix_append ..).isInfix
  | tagSequence tags =>
    rw [cells_tagSequence]
    exact infix_flatMap h
  | dictionary m =>
    obtain ⟨e, he, rfl⟩ := List.mem_map.mp h
    rw [cells_dictionary]
    have hv : e.2.cells <:+: exacts (Tag.stringBytes e.1) ++ e.2.cells :=
      (List.suffix_append ..).isInfix
    have he' := infix_flatMap (f := fun e => exacts (Tag.stringBytes e.1) ++ Tag.cells e.2) he
    exact (hv.trans he').trans (List.suffix_append ..).isInfix
  | document v =>
    obtain rfl := List.mem_singleton.mp h
    rw [cells_document]
    exact (List.suffix_append ..).isInfix
  | nested slot =>
    obtain ⟨id, _ | t⟩ := slot
    · exact absurd h List.not_mem_nil
    · obtain rfl := List.mem_singleton.mp h
      rw [cells]
  | _ => exact absurd h List.not_mem_nil

/-- **What is inside a tag** has its form within that of the tag. -/
theorem Tag.Inside.cells_infix {u t : Tag} (h : u.Inside t) : u.cells <:+: t.cells := by
  induction h with
  | self => exact List.infix_rfl
  | @child v t hv _ ih =>
    obtain ⟨id, p⟩ := t
    rw [cells_mk]
    have hp : v.cells <:+: p.cells := Payload.cells_infix_of_mem hv
    exact (ih.trans hp).trans (List.suffix_append ..).isInfix

/-- `u.StandsAt n t`: the tag `u` is inside `t`, where its form begins at place `n`. -/
structure Tag.StandsAt (u : Tag) (n : Nat) (t : Tag) : Prop where
  inside : u.Inside t
  cells : ∃ x, x.length = n ∧ x ++ u.cells <+: t.cells

namespace Tag

theorem Inside.exists_standsAt {u t : Tag} (h : u.Inside t) : ∃ n, u.StandsAt n t := by
  obtain ⟨x, y, hxy⟩ := h.cells_infix
  exact ⟨x.length, h, x, rfl, y, hxy⟩

/-- Bytes that spell a tag spell what is inside it, at its place. -/
theorem StandsAt.spells {u t : Tag} {n : Nat} (h : u.StandsAt n t) {c : Bytes}
    (hc : Spells t.cells c) : ∃ part, part <+: c.drop n ∧ Spells u.cells part := by
  obtain ⟨x, rfl, y, hxy⟩ := h.cells
  rw [← hxy] at hc
  obtain ⟨_, c₃, rfl, h₁₂, -⟩ := spells_append.mp hc
  obtain ⟨c₁, c₂, rfl, h₁, h₂⟩ := spells_append.mp h₁₂
  refine ⟨c₂, ?_, h₂⟩
  rw [h₁.length_eq, List.append_assoc, List.drop_left]
  exact List.prefix_append c₂ c₃

end Tag

/-! ### Truth values -/

theorem Payload.truth_of_prefix {p : Payload} {x : List Cell} {b : Bool}
    (h : x ++ [truth b] <+: p.cells) : p = .bool b ∧ x = [] ∨ ∃ v ∈ p.children, ∃ y z,
      x = y ++ z ∧ y ++ v.cells <+: p.cells ∧ z ++ [truth b] <+: v.cells := by
  cases p with
  | bool v =>
    left
    have hl := h.length_le
    change (x ++ [truth b]).length ≤ 1 at hl
    rw [List.length_append, List.length_singleton] at hl
    obtain rfl : x = [] := List.eq_nil_of_length_eq_zero (by omega)
    have hb : truth b = truth v := List.mem_singleton.mp (h.subset (List.mem_singleton_self _))
    cases hb
    exact ⟨rfl, rfl⟩
  | tagArray tags =>
    right
    rw [cells_tagArray] at h ⊢
    obtain ⟨x, rfl, ht⟩ := exists_of_prefix_exacts_append h
    obtain ⟨v, hv, y, z, rfl, hy, hz⟩ := exists_of_prefix_flatMap ht
    refine ⟨v, hv, _ ++ y, z, (List.append_assoc ..).symm, ?_, hz⟩
    rw [List.append_assoc]
    exact (List.prefix_append_right_inj _).mpr hy
  | tagSequence tags =>
    right
    rw [cells_tagSequence] at h ⊢
    exact exists_of_prefix_flatMap h
  | dictionary m =>
    right
    rw [cells_dictionary] at h ⊢
    obtain ⟨x, rfl, hm⟩ := exists_of_prefix_exacts_append h
    obtain ⟨e, he, y, z, rfl, hy, hz⟩ := exists_of_prefix_flatMap hm
    obtain ⟨z, rfl, hv⟩ := exists_of_prefix_exacts_append hz
    refine ⟨e.2, List.mem_map_of_mem he, exacts (Varint.encode (UInt64.ofNat m.size)) ++
      (y ++ exacts (Tag.stringBytes e.1)), z, ?_, ?_, hv⟩
    · simp only [List.append_assoc]
    · simp only [List.append_assoc] at hy ⊢
      exact (List.prefix_append_right_inj _).mpr hy
  | document v =>
    right
    rw [cells_document] at h ⊢
    obtain ⟨x, rfl, ht⟩ := exists_of_prefix_exacts_append h
    exact ⟨v.inner, List.mem_singleton_self _, _, x, rfl, List.prefix_rfl, ht⟩
  | nested slot =>
    right
    obtain ⟨id, _ | t⟩ := slot
    · exact absurd h not_prefix_exacts
    · rw [cells] at h ⊢
      exact ⟨t, List.mem_singleton_self _, [], x, rfl, List.prefix_rfl, h⟩
  | point v =>
    rw [cells] at h
    exact absurd h not_prefix_exacts
  | _ => exact absurd h not_prefix_exacts

namespace Tag

/-- The byte at place `n` is the payload of a tag inside `t` that holds the truth value `true`. -/
def HasTruthAt (t : Tag) (n : Nat) : Prop :=
  ∃ (u : Tag) (m : Nat), u.StandsAt m t ∧ u.payload = .bool true ∧ n = m + u.headerSize

theorem length_bytes_header (id : UInt64) (size : Nat) :
    (Header.bytes id size).length = Header.size id (UInt64.ofNat size) := by
  refine Header.fills_writing id _ ?_
  rw [Header.writing]
  split_ifs <;> rfl

theorem exists_of_prefix_truth {b : Bool} : ∀ (t : Tag) (x : List Cell),
    x ++ [truth b] <+: t.cells → ∃ (u : Tag) (m : Nat), u.StandsAt m t ∧
      u.payload = .bool b ∧ x.length = m + u.headerSize := by
  refine Tag.induction fun t ih x h => ?_
  obtain ⟨id, p⟩ := t
  rw [cells_mk] at h
  obtain ⟨x, rfl, hp⟩ := exists_of_prefix_exacts_append h
  rcases Payload.truth_of_prefix hp with ⟨rfl, rfl⟩ | ⟨v, hv, y, z, rfl, hy, hz⟩
  · refine ⟨_, 0, ⟨.self, [], rfl, List.prefix_rfl⟩, rfl, ?_⟩
    rw [List.append_nil, length_exacts, length_bytes_header, Nat.zero_add]
    rfl
  · obtain ⟨u, m, ⟨hu, w, rfl, hw⟩, hb, hm⟩ := ih v hv z hz
    have hx :
        exacts (Header.bytes id p.cells.length) ++ (y ++ w) ++ u.cells <+: (mk id p).cells := by
      rw [cells_mk, List.append_assoc, List.append_assoc]
      refine (List.prefix_append_right_inj _).mpr (.trans ?_ hy)
      exact (List.prefix_append_right_inj y).mpr hw
    refine ⟨u, _, ⟨.child hv hu, _, rfl, hx⟩, hb, ?_⟩
    simp only [List.length_append, hm]
    omega

/-- **A cell of a truth value** is that of a tag inside. -/
theorem hasTruthAt_iff {t : Tag} {n : Nat} : t.HasTruthAt n ↔ t.cells[n]? = some (truth true) := by
  constructor
  · rintro ⟨u, _, ⟨-, x, rfl, y, hxy⟩, hb, rfl⟩
    obtain ⟨id, p⟩ := u
    obtain rfl : p = .bool true := hb
    have hu : (mk id (.bool true)).cells = exacts (Header.bytes id 1) ++ [truth true] := by
      rw [cells_mk]
      rfl
    have hn : x.length + (mk id (.bool true)).headerSize =
        (x ++ exacts (Header.bytes id 1)).length := by
      rw [List.length_append, length_exacts, length_bytes_header]
      rfl
    rw [← hxy, hu, ← List.append_assoc, List.append_assoc, hn, List.getElem?_append_right le_rfl,
      Nat.sub_self]
    rfl
  · intro h
    obtain ⟨hn, hc⟩ := List.getElem?_eq_some_iff.mp h
    have hp : t.cells.take n ++ [truth true] <+: t.cells := by
      rw [← hc, List.take_append_getElem hn]
      exact List.take_prefix (n + 1) t.cells
    obtain ⟨u, m, hu, hb, hm⟩ := exists_of_prefix_truth t _ hp
    rw [List.length_take, Nat.min_eq_left hn.le] at hm
    exact ⟨u, m, hu, hb, hm⟩

end Tag

end TagFormat
