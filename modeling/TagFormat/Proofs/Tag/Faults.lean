import TagFormat.Proofs.Tag.Cells

/-! # Why a tag cannot be written

Three things keep a tag from being written: an id of a fixed size with a payload of another one, the
id that no type has, and an empty slot (`Tag.Faulty`). Each of them is found where the tag itself is
written, be it the whole or a part of it. So writing fails if a tag somewhere inside is at fault,
and the first such tag in the order of writing (`Tag.inOrder`) tells the error
(`writeTo_first_fault`). -/

namespace TagFormat

open Writing

/-! ### The order of writing -/

namespace Tag

/-- A tag and all tags inside it in the order in which they are written: a tag comes before its
children, and each child with all that is inside it before the next one. -/
def inOrder (t : Tag) : List Tag :=
  t.fold fun t inside => t :: inside.flatten

theorem inOrder_eq (t : Tag) : t.inOrder = t :: t.children.flatMap inOrder := by
  unfold inOrder
  rw [fold_eq, List.flatMap_def]

/-- Every tag inside has its turn, and no other tag has. -/
theorem mem_inOrder (u : Tag) : ∀ t : Tag, u ∈ t.inOrder ↔ u.Inside t := by
  refine Tag.induction fun t ih => ?_
  rw [inOrder_eq, List.mem_cons, List.mem_flatMap]
  constructor
  · rintro (rfl | ⟨v, hv, hu⟩)
    · exact .self
    · exact .child hv ((ih v hv).mp hu)
  · rintro (_ | ⟨hv, hu⟩)
    · exact .inl rfl
    · exact .inr ⟨_, hv, (ih _ hv).mpr hu⟩

end Tag

/-! ### Faults -/

/-- The name of the slot that the payload is, if it is an empty one. -/
def Payload.emptySlot? : Payload → Option String
  | .coordinates ⟨_, none⟩ => some Slot.coordinatesName
  | .fixed _ ⟨_, none⟩ => some Slot.fixedName
  | .text ⟨_, none⟩ => some Slot.textName
  | .nested ⟨_, none⟩ => some Slot.nestedName
  | _ => none

namespace Tag

/-- Nothing about the tag itself keeps it from being written. -/
structure Faultless (t : Tag) : Prop where
  size : ∀ n, Id.sizing t.id = .fixed n → n = t.valueSize
  assigned : t.id ≠ 15
  filled : t.payload.emptySlot? = none

/-- `t.Faulty error`: the tag cannot be written for a reason of its own, which is the error. The
slot is looked at only if nothing is wrong with the id. -/
inductive Faulty (t : Tag) : TagError → Prop where
  | size {n : Nat} (h : Id.sizing t.id = .fixed n) (hn : n ≠ t.valueSize) :
      Faulty t (.format (.implicitSizeMismatch t.id.toNat n t.valueSize))
  | unassigned (h : t.id = 15) : Faulty t (.unsupportedId 15)
  | missing {what : String} (hsize : ∀ n, Id.sizing t.id = .fixed n → n = t.valueSize)
      (hid : t.id ≠ 15) (h : t.payload.emptySlot? = some what) :
      Faulty t (.format (.missingValue what))

/-- The reason of its own for which the tag cannot be written. -/
def fault? (t : Tag) : Option TagError :=
  (Header.fault? t.id t.valueSize).or
    (t.payload.emptySlot?.map fun what => .format (.missingValue what))

end Tag

theorem Id.sizing_eq_unassigned_iff (id : UInt64) : sizing id = .unassigned ↔ id = 15 := by
  rw [← UInt64.toNat_inj]
  unfold sizing
  split <;> simp_all

theorem Header.fault?_eq_none_iff {id : UInt64} {size : Nat} : fault? id size = none ↔
    (∀ n, Id.sizing id = .fixed n → n = size) ∧ id ≠ 15 := by
  rw [fault?, ne_eq, ← Id.sizing_eq_unassigned_iff]
  cases Id.sizing id with
  | fixed n => simp
  | _ => simp

theorem Header.fault?_eq_some_iff {id : UInt64} {size : Nat} {error : TagError} :
    fault? id size = some error ↔
      (∃ n, Id.sizing id = .fixed n ∧ n ≠ size ∧
        error = .format (.implicitSizeMismatch id.toNat n size)) ∨
      id = 15 ∧ error = .unsupportedId 15 := by
  rw [fault?, ← Id.sizing_eq_unassigned_iff]
  cases hs : Id.sizing id with
  | fixed n =>
    by_cases hn : n = size
    · simp [hn]
    · simp [hn, Ne.symm hn, eq_comm]
  | unassigned =>
    have hid : id.toNat = 15 := by rw [(Id.sizing_eq_unassigned_iff id).mp hs]; rfl
    simp [hid, eq_comm]
  | _ => simp

namespace Tag

theorem fault?_eq_none_iff {t : Tag} : t.fault? = none ↔ t.Faultless := by
  rw [fault?, Option.or_eq_none_iff, Header.fault?_eq_none_iff, Option.map_eq_none_iff]
  exact ⟨fun ⟨⟨hs, hid⟩, hf⟩ => ⟨hs, hid, hf⟩, fun h => ⟨⟨h.size, h.assigned⟩, h.filled⟩⟩

theorem fault?_eq_some_iff {t : Tag} {error : TagError} :
    t.fault? = some error ↔ t.Faulty error := by
  rw [fault?, Option.or_eq_some_iff, Header.fault?_eq_some_iff, Header.fault?_eq_none_iff,
    Option.map_eq_some_iff]
  constructor
  · rintro ((⟨n, hn, hne, rfl⟩ | ⟨hid, rfl⟩) | ⟨⟨hs, hid⟩, what, hw, rfl⟩)
    · exact .size hn hne
    · exact .unassigned hid
    · exact .missing hs hid hw
  · rintro (⟨hn, hne⟩ | hid | ⟨hs, hid, hw⟩)
    · exact .inl (.inl ⟨_, hn, hne, rfl⟩)
    · exact .inl (.inr ⟨hid, rfl⟩)
    · exact .inr ⟨⟨hs, hid⟩, _, hw, rfl⟩

/-- Text in a tag of its own can always be written. -/
theorem faultless_ofString (s : String) : (ofString s).Faultless :=
  ⟨by rintro n ⟨⟩, by change (17 : UInt64) ≠ 15; decide, rfl⟩

end Tag

/-! ### The first fault -/

theorem findSome?_flatMap {α β γ : Type} {f : α → Option γ} {g : α → List β} {h : β → Option γ} :
    ∀ {l : List α}, (∀ a ∈ l, f a = (g a).findSome? h) →
      l.findSome? f = (l.flatMap g).findSome? h
  | [], _ => rfl
  | a :: l, hl => by
    obtain ⟨ha, hl⟩ := List.forall_mem_cons.mp hl
    rw [List.flatMap_cons, List.findSome?_append, ← ha, ← findSome?_flatMap hl,
      List.findSome?_cons]
    cases f a <;> rfl

/-- A payload fails for its own empty slot, or else where the first of its children does. -/
theorem Payload.failure_writing (p : Payload) : p.writing.failure =
    (p.emptySlot?.map fun what => .format (.missingValue what)).or
      (p.children.findSome? fun u => u.writing.failure) := by
  cases p with
  | tagArray tags =>
    rw [writing, Tag.writings_eq, failure_append, failure_concat]
    rfl
  | tagSequence tags =>
    rw [writing, Tag.writings_eq, failure_concat]
    rfl
  | dictionary m =>
    have hkey : ∀ e : String × Tag, (Tag.stringWriting e.1 ++ e.2.writing).failure =
        e.2.writing.failure := fun e => by
      rw [failure_append, Tag.failure_stringWriting, Option.none_or]
    rw [writing_dictionary, failure_append, failure_concat, children, InsertionMap.values,
      List.findSome?_map]
    simp only [hkey]
    rfl
  | stringDictionary m =>
    have hall : (concat (m.toList.map fun e =>
        Tag.stringWriting e.1 ++ Tag.stringWriting e.2)).failure = none :=
      failure_concat_eq_none.mpr fun e _ => failure_append_eq_none.mpr
        ⟨Tag.failure_stringWriting e.1, Tag.failure_stringWriting e.2⟩
    rw [writing_stringDictionary, failure_append, hall]
    rfl
  | document v =>
    rw [writing, failure_append, children, List.findSome?_singleton]
    rfl
  | nested slot =>
    obtain ⟨id, _ | t⟩ := slot
    · rfl
    · rw [writing]
      exact List.findSome?_singleton.symm
  | coordinates slot | fixed width slot | text slot => obtain ⟨id, _ | value⟩ := slot <;> rfl
  | _ => rfl

theorem Header.failure_framing (id : UInt64) (size : Nat) (payload : Writing) :
    (framing id size payload).failure = (fault? id size).or payload.failure := by
  rw [framing]
  cases fault? id size with
  | some error => rfl
  | none =>
    have hw : (writing id (UInt64.ofNat size)).failure = none := by
      rw [writing]
      split_ifs <;> rfl
    rw [failure_append, hw]

namespace Tag

/-- A tag fails for a reason of its own, or else where the first of its children does. -/
theorem failure_writing (t : Tag) : t.writing.failure =
    t.fault?.or (t.children.findSome? fun u => u.writing.failure) := by
  obtain ⟨id, p⟩ := t
  rw [writing_mk, Header.failure_framing, Payload.failure_writing, fault?, Option.or_assoc]
  rfl

/-- **The failure of a tag** is that of the first tag that is at fault. -/
theorem failure_writing_eq_findSome : ∀ t : Tag,
    t.writing.failure = t.inOrder.findSome? fault? := by
  refine Tag.induction fun t ih => ?_
  have hchildren : (t.children.findSome? fun u => u.writing.failure) =
      (t.children.flatMap inOrder).findSome? fault? := by
    exact findSome?_flatMap ih
  rw [failure_writing, hchildren, inOrder_eq, List.findSome?_cons]
  cases t.fault? <;> rfl

end Tag

theorem Writing.writeTo_of_unlimited {s : Sink} (h : s.capacity = none) (w : Writing) :
    w.writeTo s = (match w.failure with | none => .ok w.bytes.length | some error => .error error,
      s.take w.bytes) := by
  rw [writeTo, runCounted_of_unlimited h]
  cases w.failure <;> rfl

/-- **When a tag cannot be written, and why.** A sink that takes everything takes a tag if no tag
inside it, the tag itself included, has an id of a fixed size other than that of its payload, the id
fifteen or an empty slot. Otherwise the error is that of the first tag of this sort: one comes
before its children, and what is inside one child before the next. The bytes of the tag, asked for
on their own, are the ones that the sink took, or there is the same error in their place. The texts
that are written as tags of their own are never to blame. -/
theorem writeTo_first_fault {s : Sink} (hs : s.capacity = none) (t : Tag) :
    ((∃ n, (t.writeTo s).1 = .ok n) ↔ ∀ u : Tag, u.Inside t → u.Faultless) ∧
    (∀ error, (t.writeTo s).1 = .error error ↔ ∃ before u after,
      t.inOrder = before ++ u :: after ∧ (∀ v ∈ before, v.Faultless) ∧ u.Faulty error) ∧
    (∀ error, t.toBytes = .error error ↔ (t.writeTo s).1 = .error error) ∧
    (∀ n s', t.writeTo s = (.ok n, s') → ∃ bytes, t.toBytes = .ok bytes ∧ s' = s.take bytes) ∧
    ∀ u : Tag, u.Inside t → ∀ text ∈ u.payload.strings, (Tag.ofString text).Faultless := by
  have hw : t.writeTo s = (match t.writing.failure with
      | none => .ok t.writing.bytes.length
      | some error => .error error, s.take t.writing.bytes) := writeTo_of_unlimited hs _
  have hfirst := t.failure_writing_eq_findSome
  have hok : t.writing.failure = none ↔ ∀ u : Tag, u.Inside t → u.Faultless := by
    simp only [hfirst, List.findSome?_eq_none_iff, Tag.mem_inOrder, Tag.fault?_eq_none_iff]
  have herror : ∀ error, t.writing.failure = some error ↔ ∃ before u after,
      t.inOrder = before ++ u :: after ∧ (∀ v ∈ before, v.Faultless) ∧ u.Faulty error := by
    intro error
    simp only [hfirst, List.findSome?_eq_some_iff, Tag.fault?_eq_none_iff, Tag.fault?_eq_some_iff,
      and_comm]
  refine ⟨?_, fun error => ?_, fun error => ?_, fun n s' h => ?_,
    fun _ _ text _ => Tag.faultless_ofString text⟩
  · rw [← hok, hw]
    cases t.writing.failure <;> simp
  · rw [← herror, hw]
    cases t.writing.failure <;> simp
  · rw [hw, Tag.toBytes, toBytes]
    cases t.writing.failure <;> simp
  · obtain ⟨hf, -, rfl⟩ := writeTo_eq_ok hs h
    refine ⟨t.writing.bytes, ?_, rfl⟩
    rw [Tag.toBytes, toBytes, hf]

/-- An array whose second element holds the id fifteen, and whose third would not fit its id
either. -/
theorem writeTo_first_fault_array :
    (Tag.mk 40 (.tagArray [.mk 1 (.bool true), .mk 41 (.tagSequence [.mk 15 .null]),
      .mk 2 (.text ⟨⟨42, by decide⟩, none⟩)])).toBytes = .error (.unsupportedId 15) ∧
    (Tag.mk 2 (.text ⟨⟨42, by decide⟩, none⟩)).toBytes =
      .error (.format (.implicitSizeMismatch 2 1 0)) ∧
    (Tag.mk 42 (.text ⟨⟨42, by decide⟩, none⟩)).toBytes =
      .error (.format (.missingValue "text")) := by
  have hfirst := fun t : Tag => (writeTo_first_fault (s := {}) rfl t).2.1
  have hbytes := fun t : Tag => (writeTo_first_fault (s := {}) rfl t).2.2.1
  refine ⟨?_, ?_, ?_⟩
  · rw [hbytes, hfirst]
    refine ⟨_ :: _ :: [_], .mk 15 .null, _, rfl, ?_, .unassigned rfl⟩
    simp only [List.forall_mem_cons, ← Tag.fault?_eq_none_iff]
    refine ⟨?_, ?_, ?_, List.forall_mem_nil _⟩ <;> cbv
  · rw [hbytes, hfirst]
    exact ⟨[], _, _, rfl, List.forall_mem_nil _, .size (n := 1) rfl (by decide)⟩
  · rw [hbytes, hfirst]
    exact ⟨[], _, _, rfl, List.forall_mem_nil _, .missing (by rintro n ⟨⟩) (by decide) rfl⟩

end TagFormat
