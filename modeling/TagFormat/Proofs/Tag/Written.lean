import TagFormat.Proofs.Output.SameBut
import TagFormat.Proofs.Tag.Size
import TagFormat.Tag.Equality

/-! # Where tags are written in tags

A tag inside another is written at some place of it: behind the header and what comes before in the
payload, level by level (`Tag.WrittenAt`). Its bytes are found there, unless the writing fails
(`Tag.WrittenAt.stands`). Of all bytes written, those that hold the sign of a zero are singled out
(`Tag.HasZeroAt`), and of writings one after another each has its own such places, behind the bytes
of the others (`Writing.SameBut.concat`). -/

namespace TagFormat

open Writing

/-! ### Items one after another -/

/-- One of the items, behind others that take `n` bytes. -/
def Behind {α : Type} (size : α → Nat) (l : List α) (n : Nat) (e : α) : Prop :=
  ∃ before after, l = before ++ e :: after ∧ n = (before.map size).sum

namespace Behind

variable {α : Type} {size : α → Nat} {l : List α} {e x : α} {n : Nat}

theorem head (size : α → Nat) (e : α) (l : List α) : Behind size (e :: l) 0 e :=
  ⟨[], l, rfl, rfl⟩

theorem tail (h : Behind size l n x) (e : α) : Behind size (e :: l) (size e + n) x := by
  obtain ⟨before, after, rfl, rfl⟩ := h
  exact ⟨e :: before, after, rfl, by rw [List.map_cons, List.sum_cons]⟩

theorem mem (h : Behind size l n x) : x ∈ l := by
  obtain ⟨before, after, rfl, -⟩ := h
  exact List.mem_append_right before List.mem_cons_self

end Behind

namespace Writing

variable {a b c : Writing} {m n : Nat}

/-- Unless `b` fails, `a` does not either, and its bytes stand at place `n` of those of `b`. -/
def At (n : Nat) (a b : Writing) : Prop :=
  b.failure = none → a.failure = none ∧ a.bytes <+: b.bytes.drop n

theorem At.refl (a : Writing) : At 0 a a :=
  fun h => ⟨h, List.prefix_rfl⟩

theorem At.trans (hab : At n a b) (hbc : At m b c) : At (m + n) a c := by
  intro h
  obtain ⟨hb, hpb⟩ := hbc h
  obtain ⟨ha, hpa⟩ := hab hb
  refine ⟨ha, hpa.trans ?_⟩
  rw [← List.drop_drop]
  exact hpb.drop n

theorem at_append_left (a b : Writing) : At 0 a (a ++ b) := by
  intro h
  have ha := (failure_append_eq_none.mp h).1
  rw [bytes_append ha]
  exact ⟨ha, List.prefix_append ..⟩

theorem at_append_right (ha : a.Fills n) (b : Writing) : At n b (a ++ b) := by
  intro h
  obtain ⟨hfa, hfb⟩ := failure_append_eq_none.mp h
  rw [bytes_append hfa, ← ha hfa, List.drop_left]
  exact ⟨hfb, List.prefix_rfl⟩

variable {α : Type} {f : α → Writing} {size : α → Nat}

theorem at_concat {l : List α} {e : α} (hf : ∀ x ∈ l, (f x).Fills (size x))
    (h : Behind size l n e) : At n (f e) (concat (l.map f)) := by
  obtain ⟨before, after, rfl, rfl⟩ := h
  induction before with
  | nil => exact at_append_left _ _
  | cons x before ih =>
    obtain ⟨hx, hl⟩ := List.forall_mem_cons.mp hf
    rw [List.map_cons, List.sum_cons]
    exact (ih hl).trans (at_append_right hx _)

/-- **Writings one after another** are the same but for the places of each, behind those before
it. -/
theorem SameBut.concat {signs : α → Nat → Prop} {l l' : List α} (hf : ∀ e ∈ l, (f e).Fills (size e))
    (h : List.Forall₂ (fun e e' => SameBut (signs e) (f e) (f e')) l l') :
    SameBut (fun i => ∃ n e k, Behind size l n e ∧ signs e k ∧ i = n + k)
      (concat (l.map f)) (concat (l'.map f)) := by
  induction h with
  | nil => exact .refl _ _
  | @cons e e' l l' he _ ih =>
    obtain ⟨hfe, hfl⟩ := List.forall_mem_cons.mp hf
    refine (he.append hfe (ih hfl)).mono ?_
    rintro i (hi | ⟨_, rfl, n, x, k, hx, hk, rfl⟩)
    · exact ⟨0, e, i, .head size e l, hi, (Nat.zero_add i).symm⟩
    · exact ⟨_, x, k, hx.tail e, hk, (Nat.add_assoc ..).symm⟩

end Writing

/-! ### Places -/

/-- A tag one level further down, behind `n` bytes of the payload. -/
def Payload.HoldsAt : Payload → (n : Nat) → Tag → Prop
  | .tagArray tags, n, u =>
    ∃ m, Behind Tag.size tags m u ∧ n = Varint.encodedSize (UInt64.ofNat tags.length) + m
  | .tagSequence tags, n, u => Behind Tag.size tags n u
  | .dictionary d, n, u =>
    ∃ key m, Behind (fun e => Tag.stringSize e.1 + e.2.size) d.toList m (key, u) ∧
      n = Varint.encodedSize (UInt64.ofNat d.size) + (m + Tag.stringSize key)
  | .document v, n, u => n = 2 ∧ u = v.inner
  | .nested slot, n, u => n = 0 ∧ slot.value = some u
  | _, _, _ => False

/-- `u.WrittenAt n t`: the tag `u` is inside `t`, behind `n` bytes of what is written of `t`. -/
inductive Tag.WrittenAt (u : Tag) : Nat → Tag → Prop where
  | self : WrittenAt u 0 u
  | child {v t : Tag} {m n : Nat} (h : t.payload.HoldsAt m v) (inside : WrittenAt u n v) :
    WrittenAt u (t.headerSize + m + n) t

namespace Payload

variable {p : Payload} {n : Nat} {u : Tag}

theorem HoldsAt.mem (h : p.HoldsAt n u) : u ∈ p.children := by
  cases p with
  | tagArray tags =>
    obtain ⟨m, hm, -⟩ := h
    exact hm.mem
  | tagSequence tags => exact Behind.mem h
  | dictionary d =>
    obtain ⟨key, m, hm, -⟩ := h
    exact List.mem_map_of_mem hm.mem
  | document v => exact List.mem_singleton.mpr h.2
  | nested slot => exact Option.mem_toList.mpr h.2
  | _ => exact h.elim

/-- What a payload holds is written at its place. -/
theorem HoldsAt.at_writing (h : p.HoldsAt n u) : Writing.At n u.writing p.writing := by
  cases p with
  | tagArray tags =>
    obtain ⟨m, hm, rfl⟩ := h
    rw [writing, Tag.writings_eq]
    exact (at_concat (fun t _ => t.fills) hm).trans (at_append_right (fills_varint _) _)
  | tagSequence tags =>
    rw [writing, Tag.writings_eq]
    exact at_concat (fun t _ => t.fills) h
  | dictionary d =>
    obtain ⟨key, m, hm, rfl⟩ := h
    have hvalue : At (Tag.stringSize key) u.writing (Tag.stringWriting key ++ u.writing) :=
      at_append_right (Tag.fills_stringWriting key) _
    have hentry : At m (Tag.stringWriting key ++ u.writing)
        (concat (d.toList.map fun e => Tag.stringWriting e.1 ++ e.2.writing)) :=
      at_concat (f := fun e : String × Tag => Tag.stringWriting e.1 ++ e.2.writing) (e := (key, u))
        (fun e _ => (Tag.fills_stringWriting e.1).append e.2.fills) hm
    rw [writing_dictionary]
    exact (hvalue.trans hentry).trans (at_append_right (fills_varint _) _)
  | document v =>
    obtain ⟨rfl, rfl⟩ := h
    rw [writing]
    exact at_append_right (fills_uint16 _) _
  | nested slot =>
    obtain ⟨id, value⟩ := slot
    obtain ⟨rfl, rfl⟩ := h
    rw [writing]
    exact .refl _
  | _ => exact h.elim

end Payload

namespace Tag

variable {t u : Tag} {n : Nat}

/-- **What is written at some place** of a tag is inside it, and its bytes are found there. -/
theorem WrittenAt.stands (h : u.WrittenAt n t) : u.Inside t ∧ Writing.At n u.writing t.writing := by
  induction h with
  | self => exact ⟨.self, .refl _⟩
  | @child v t m n hv _ ih =>
    refine ⟨.child hv.mem ih.1, ih.2.trans ?_⟩
    obtain ⟨id, p⟩ := t
    rw [writing_mk, Header.framing]
    cases Header.fault? id p.valueSize with
    | some error => rintro ⟨⟩
    | none => exact hv.at_writing.trans (at_append_right (Header.fills_writing _ _) _)

end Tag

/-! ### Zeros -/

/-- The payload is a floating-point zero of either sign. -/
def Payload.IsZero : Payload → Prop
  | .float32 bits => Binary.single.isZero bits.toNat = true
  | .float64 bits => Binary.double.isZero bits.toNat = true
  | _ => False

/-- Byte `n` of what is written of `t` holds the sign of a zero: it is the first of the payload of a
tag inside `t` that holds a floating-point zero. -/
def Tag.HasZeroAt (t : Tag) (n : Nat) : Prop :=
  ∃ (u : Tag) (m : Nat), u.WrittenAt m t ∧ u.payload.IsZero ∧ n = m + u.headerSize

/-- Byte `n` of the payload holds the sign of a zero. -/
def Payload.HasZeroAt (p : Payload) (n : Nat) : Prop :=
  p.IsZero ∧ n = 0 ∨ ∃ m v k, p.HoldsAt m v ∧ v.HasZeroAt k ∧ n = m + k

theorem Tag.hasZeroAt_of_payload {t : Tag} {n : Nat} (h : t.payload.HasZeroAt n) :
    t.HasZeroAt (t.headerSize + n) := by
  rcases h with ⟨hz, rfl⟩ | ⟨m, v, k, hv, ⟨u, i, hu, hz, rfl⟩, rfl⟩
  · exact ⟨t, 0, .self, hz, by omega⟩
  · exact ⟨u, _, .child hv hu, hz, by omega⟩

end TagFormat
