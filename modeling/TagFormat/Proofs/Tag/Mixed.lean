import TagFormat.Proofs.Tag.Size

/-! # Tags with guests

A *mixed* tag may hold, at any depth and in any of the payloads that hold tags, values of another
type under ids of their own, its guests. All that is made for what is held out of what was made for
the things in it is made for mixed tags (`Mixed.fold`). So they are written once it is known how
guests are, and where guests are payloads, that is how the tag is written which they make
(`Mixed.written_toTag`). If the guests have as many bytes as they say, so has every mixed tag and
all inside it (`Mixed.honest`), and the count that comes back from writing is the size
(`writeTo_count`). -/

namespace TagFormat

open Writing

variable {α γ : Type}

/-- A tag with guests in it. -/
inductive Mixed (α : Type) where
  /-- A value of another type. -/
  | guest (id : UInt64) (a : α)
  /-- A tag without guests. -/
  | plain (t : Tag)
  | holding (id : UInt64) (h : Holding (Mixed α))

/-! ### Recursion and induction -/

section Fold

variable (guest : UInt64 → α → γ) (plain : Tag → γ) (holding : UInt64 → Holding γ → γ)

mutual

/-- The results of a recursion over mixed tags for those that are held. -/
def Holding.foldMixed : Holding (Mixed α) → Holding γ
  | .array ms => .array (Mixed.foldAll ms)
  | .sequence ms => .sequence (Mixed.foldAll ms)
  | .dictionary ⟨⟨slots⟩, index, size⟩ =>
    .dictionary ⟨⟨Mixed.foldSlots slots⟩, index, size⟩
  | .document ⟨version, m⟩ => .document ⟨version, m.fold⟩
  | .nested ⟨id, none⟩ => .nested ⟨id, none⟩
  | .nested ⟨id, some m⟩ => .nested ⟨id, some m.fold⟩
termination_by structural h => h

/-- The recursion over mixed tags that makes the result for what is held out of those for the things
in it. -/
def Mixed.fold : Mixed α → γ
  | .guest id a => guest id a
  | .plain t => plain t
  | .holding id h => holding id h.foldMixed
termination_by structural m => m

/-- The results of a recursion over mixed tags for those side by side. -/
def Mixed.foldAll : List (Mixed α) → List γ
  | [] => []
  | m :: ms => m.fold :: Mixed.foldAll ms
termination_by structural ms => ms

/-- The results of a recursion over mixed tags for those in the slots of a dictionary. -/
def Mixed.foldSlots : List (Option (String × Mixed α)) → List (Option (String × γ))
  | [] => []
  | none :: slots => none :: Mixed.foldSlots slots
  | some (key, m) :: slots =>
    some (key, m.fold) :: Mixed.foldSlots slots
termination_by structural slots => slots

end

theorem Mixed.foldAll_eq : ∀ ms : List (Mixed α),
    foldAll guest plain holding ms = ms.map (fold guest plain holding)
  | [] => by rw [foldAll, List.map_nil]
  | m :: ms => by rw [foldAll, foldAll_eq ms, List.map_cons]

theorem Mixed.foldSlots_eq : ∀ slots : List (Option (String × Mixed α)),
    foldSlots guest plain holding slots =
      slots.map (Option.map fun e => (e.1, fold guest plain holding e.2))
  | [] => by rw [foldSlots, List.map_nil]
  | none :: slots => by rw [foldSlots, foldSlots_eq slots, List.map_cons, Option.map_none]
  | some (_, _) :: slots => by rw [foldSlots, foldSlots_eq slots, List.map_cons, Option.map_some]

/-- **The result for what holds mixed tags** is made out of the results for these. -/
theorem Mixed.fold_holding (id : UInt64) (h : Holding (Mixed α)) :
    (Mixed.holding id h).fold guest plain holding =
      holding id (h.map (fold guest plain holding)) := by
  rw [fold]
  congr 1
  cases h with
  | array | sequence => rw [Holding.foldMixed, foldAll_eq, Holding.map]
  | dictionary m =>
    obtain ⟨⟨slots⟩, index, size⟩ := m
    rw [Holding.foldMixed, foldSlots_eq, Holding.map, InsertionMap.map, List.map_toArray]
  | document v => rfl
  | nested slot => obtain ⟨id, _ | m⟩ := slot <;> rfl

end Fold

/-- The property holds of guests and of tags, and passes from mixed tags to what holds them. -/
structure Mixed.Ascends (property : Mixed α → Prop) : Prop where
  guest : ∀ id a, property (.guest id a)
  plain : ∀ t, property (.plain t)
  holding : ∀ id (h : Holding (Mixed α)), (∀ m ∈ h.items, property m) → property (.holding id h)

variable {motive : Mixed α → Prop}

mutual

theorem Holding.forall_items (h : Mixed.Ascends motive) : ∀ held : Holding (Mixed α),
    ∀ m ∈ held.items, motive m
  | .array ms | .sequence ms => Mixed.forall_list h ms
  | .dictionary ⟨⟨slots⟩, _, _⟩ => fun _ hm => by
    obtain ⟨e, he, rfl⟩ := List.mem_map.mp hm
    exact Mixed.forall_slots h slots e he
  | .document ⟨_, m⟩ => List.forall_mem_singleton.mpr (Mixed.induction h m)
  | .nested ⟨_, none⟩ => List.forall_mem_nil _
  | .nested ⟨_, some m⟩ => List.forall_mem_singleton.mpr (Mixed.induction h m)
termination_by structural held => held

/-- **What passes from mixed tags to what holds them** holds of every mixed tag. -/
theorem Mixed.induction (h : Mixed.Ascends motive) : ∀ m : Mixed α, motive m
  | .guest id a => h.guest id a
  | .plain t => h.plain t
  | .holding id held => h.holding id held (Holding.forall_items h held)
termination_by structural m => m

theorem Mixed.forall_list (h : Mixed.Ascends motive) : ∀ ms : List (Mixed α), ∀ m ∈ ms, motive m
  | [] => List.forall_mem_nil _
  | m :: ms => List.forall_mem_cons.mpr ⟨Mixed.induction h m, Mixed.forall_list h ms⟩
termination_by structural ms => ms

theorem Mixed.forall_slots (h : Mixed.Ascends motive) :
    ∀ slots : List (Option (String × Mixed α)), ∀ e ∈ InsertionMap.entries slots, motive e.2
  | [] => List.forall_mem_nil _
  | none :: slots => Mixed.forall_slots h slots
  | some (_, m) :: slots =>
    List.forall_mem_cons.mpr ⟨Mixed.induction h m, Mixed.forall_slots h slots⟩
termination_by structural slots => slots

end

namespace Mixed

/-! ### Any level -/

/-- The id of a mixed tag. -/
def id : Mixed α → UInt64
  | guest id _ => id
  | plain t => t.id
  | holding id _ => id

/-- The mixed tags one level further down. -/
def children : Mixed α → List (Mixed α)
  | guest _ _ => []
  | plain t => t.children.map plain
  | holding _ h => h.items

/-- `Inside u m`: the mixed tag `u` is `m`, or stands inside it at some depth. -/
inductive Inside (u : Mixed α) : Mixed α → Prop where
  | self : Inside u u
  | child {v m : Mixed α} (h : v ∈ m.children) (inside : Inside u v) : Inside u m

/-- `AtDepth u d m`: the mixed tag `u` stands inside `m` at depth `d`, where `m` itself has depth
one. -/
inductive AtDepth (u : Mixed α) : Nat → Mixed α → Prop where
  | self : AtDepth u 1 u
  | child {v m : Mixed α} {d : Nat} (h : v ∈ m.children) (inside : AtDepth u d v) :
    AtDepth u (d + 1) m

theorem Inside.exists_atDepth {u m : Mixed α} (h : u.Inside m) : ∃ d, u.AtDepth d m := by
  induction h with
  | self => exact ⟨1, .self⟩
  | child hv _ ih =>
    obtain ⟨d, hd⟩ := ih
    exact ⟨d + 1, .child hv hd⟩

theorem inside_plain {u : Mixed α} {t : Tag} (h : u.Inside (.plain t)) :
    ∃ v : Tag, v.Inside t ∧ u = .plain v := by
  generalize hm : Mixed.plain t = m at h
  induction h generalizing t with
  | self => exact ⟨t, .self, hm.symm⟩
  | child hv _ ih =>
    subst hm
    obtain ⟨w, hw, rfl⟩ := List.mem_map.mp hv
    obtain ⟨v, hin, rfl⟩ := ih rfl
    exact ⟨v, .child hw hin, rfl⟩

/-! ### Writing -/

variable (w : α → Written)

/-- How a mixed tag is written, where it is told how guests are. -/
def written (m : Mixed α) : Written :=
  m.fold (fun id a => (w a).framed id) Tag.written fun id h => h.written.framed id

/-- How what stands under the id is written. -/
def payload : Mixed α → Written
  | guest _ a => w a
  | plain t => t.payload.written
  | holding _ h => (h.map (written w)).written

theorem written_holding (id : UInt64) (h : Holding (Mixed α)) :
    (holding id h).written w = (h.map (written w)).written.framed id := by
  rw [written, fold_holding]
  rfl

theorem written_eq (m : Mixed α) : m.written w = (m.payload w).framed m.id := by
  cases m with
  | guest id a => rfl
  | plain t =>
    obtain ⟨id, p⟩ := t
    exact Tag.written_mk id p
  | holding id h => exact written_holding w id h

/-- The tag that a mixed tag becomes where guests are payloads. -/
def toTag (p : α → Payload) (m : Mixed α) : Tag :=
  m.fold (fun id a => .mk id (p a)) (fun t => t) fun id h => .mk id h.payload

theorem toTag_holding (p : α → Payload) (id : UInt64) (h : Holding (Mixed α)) :
    (holding id h).toTag p = .mk id (h.map (toTag p)).payload := by
  rw [toTag, fold_holding]
  rfl

/-- **Where guests are payloads**, a mixed tag is written as the tag that it becomes. -/
theorem written_toTag (p : α → Payload) : ∀ m : Mixed α,
    m.written (fun a => (p a).written) = (m.toTag p).written := by
  refine induction ⟨fun id a => ?_, fun t => rfl, fun id h ih => ?_⟩
  · exact (Tag.written_mk id (p a)).symm
  · have hitems : h.map (written fun a => (p a).written) = (h.map (toTag p)).map Tag.written := by
      rw [Holding.map_map]
      exact Holding.map_congr ih
    rw [written_holding, toTag_holding, Tag.written_mk, ← Holding.written_payload, hitems]

variable {w} {m u : Mixed α}

theorem honest_payload : ∀ m : Mixed α, (∀ id a, (guest id a).Inside m → (w a).Honest) →
    (m.payload w).Honest := by
  refine induction ⟨fun id a h => ?_, fun t _ => ?_, fun id h ih hw => ?_⟩
  · exact h id a .self
  · exact t.payload.fills_writing fun u _ => u.fills
  · refine Holding.honest ?_
    rw [Holding.items_map, List.forall_mem_map]
    intro m hm
    rw [written_eq]
    exact (ih m hm fun id a ha => hw id a (.child hm ha)).framed m.id

/-- **A mixed tag has as many bytes as it says** if its guests have. -/
theorem honest (h : ∀ id a, (guest id a).Inside m → (w a).Honest) : (m.written w).Honest := by
  rw [written_eq]
  exact (honest_payload m h).framed m.id

theorem within_of_mem (h : u ∈ m.children) :
    (u.written w).writing.Within (m.written w).writing := by
  cases m with
  | guest id a => exact absurd h List.not_mem_nil
  | plain t =>
    obtain ⟨v, hv, rfl⟩ := List.mem_map.mp h
    exact Tag.within_of_mem hv
  | holding id held =>
    have hmem : u.written w ∈ (held.map (written w)).items := by
      rw [Holding.items_map]
      exact List.mem_map_of_mem h
    rw [written_holding]
    exact (Holding.within_of_mem hmem).trans Header.within_framing

/-- **What is inside a mixed tag** is written as a part of it. -/
theorem Inside.within (h : u.Inside m) : (u.written w).writing.Within (m.written w).writing := by
  induction h with
  | self => exact .refl _
  | child hv _ ih => exact ih.trans (within_of_mem hv)

theorem Inside.trans {v : Mixed α} (h : u.Inside v) (h' : v.Inside m) : u.Inside m := by
  induction h' with
  | self => exact h
  | child hw _ ih => exact .child hw ih

/-- What stands inside a mixed tag that can be written is a part of its bytes: a header, and a
payload of the size that the header is for. -/
theorem exists_frames (hw : ∀ id a, (guest id a).Inside m → (w a).Honest)
    (hf : (m.written w).writing.failure = none) (hu : u.Inside m) :
    ∃ part, part <:+: (m.written w).writing.bytes ∧ part.length = (u.written w).size ∧
      Header.Frames u.id (u.payload w).size (u.payload w).writing.bytes part := by
  have hwu : ∀ id a, (guest id a).Inside u → (w a).Honest := fun id a ha => hw id a (ha.trans hu)
  obtain ⟨hfu, hpart⟩ := hu.within hf
  refine ⟨_, hpart, honest hwu hfu, ?_⟩
  rw [written_eq] at hfu ⊢
  exact Header.frames_framing (honest_payload u hwu) hfu

end Mixed

/-- **The count of the bytes written is the size.** Where a sink without a limit takes a tag, it
takes as many bytes as are counted, which is the size of the tag and that of its header and its
payload; so it is with every tag inside it, whose bytes are a part of these. So it is too with the
value of a slot under any codec, and with a versioned value of any body, that writes values of the
size that it tells; and where such values, or others that have as many bytes as they say, stand
among tags at any depth. Where they are payloads of tags, nothing is new. -/
theorem writeTo_count {s s' : Sink} (hs : s.capacity = none) {n : Nat} :
    (∀ t : Tag, t.writeTo s = (.ok n, s') → ∃ bytes, s' = s.take bytes ∧ bytes.length = n ∧
      n = t.size ∧ n = t.headerSize + t.valueSize ∧ ∀ u : Tag, u.Inside t → ∃ part,
        part <:+: bytes ∧ part.length = u.size ∧
        Header.Frames u.id u.valueSize u.payload.writing.bytes part) ∧
    (∀ (α : Type) (c : Codec α), c.Honest → ∀ (id : UInt64) (slot : Slot α),
      (Header.framing id (c.valueSize slot) (c.valueWriting slot)).writeTo s = (.ok n, s') →
      ∃ bytes, s' = s.take bytes ∧ bytes.length = n ∧
        Header.Frames id (c.valueSize slot) (c.valueWriting slot).bytes bytes) ∧
    (∀ (α : Type) (b : Body α), b.Honest → ∀ (id : UInt64) (v : Versioned α),
      (Header.framing id (b.versionedSize v) (b.versionedWriting v)).writeTo s = (.ok n, s') →
      ∃ bytes, s' = s.take bytes ∧ bytes.length = n ∧
        Header.Frames id (b.versionedSize v) (b.versionedWriting v).bytes bytes) ∧
    (∀ (α : Type) (w : α → Written) (m : Mixed α),
      (∀ id a, (Mixed.guest id a).Inside m → (w a).Honest) →
      (m.written w).writing.writeTo s = (.ok n, s') →
      ∃ bytes, s' = s.take bytes ∧ bytes.length = n ∧ n = (m.written w).size ∧
        ∀ u : Mixed α, u.Inside m → ∃ part, part <:+: bytes ∧ part.length = (u.written w).size ∧
          Header.Frames u.id (u.payload w).size (u.payload w).writing.bytes part) ∧
    (∀ (α : Type), (∀ c : Codec α, c.Honest → ∀ slot, (c.written slot).Honest) ∧
      ∀ b : Body α, b.Honest → ∀ v, (b.written v).Honest) ∧
    ∀ (α : Type) (p : α → Payload) (m : Mixed α),
      m.written (fun a => (p a).written) = (m.toTag p).written := by
  refine ⟨fun t h => ?_, fun α c hc id slot h => ?_, fun α b hb id v h => ?_,
    fun α w m hw h => ?_, fun α => ⟨fun c hc => hc.written, fun b hb => hb.written⟩,
    fun α p m => m.written_toTag p⟩
  · obtain ⟨hf, rfl, rfl⟩ := writeTo_eq_ok hs h
    have hsize := t.fills hf
    refine ⟨_, rfl, rfl, hsize, hsize.trans t.size_eq, fun u hu => ?_⟩
    obtain ⟨hfu, hpart⟩ := hu.within hf
    exact ⟨_, hpart, u.fills hfu, Tag.frames hfu⟩
  · obtain ⟨hf, rfl, rfl⟩ := writeTo_eq_ok hs h
    exact ⟨_, rfl, rfl, Header.frames_framing (hc.fills_valueWriting slot) hf⟩
  · obtain ⟨hf, rfl, rfl⟩ := writeTo_eq_ok hs h
    exact ⟨_, rfl, rfl, Header.frames_framing (hb.fills_versionedWriting v) hf⟩
  · obtain ⟨hf, rfl, rfl⟩ := writeTo_eq_ok hs h
    exact ⟨_, rfl, rfl, Mixed.honest hw hf, fun u hu => Mixed.exists_frames hw hf hu⟩

/-- An array with one element, a slot with text and a point; and an array with a slot under another
codec, which writes as many zeros as its value tells. -/
theorem writeTo_count_array :
    let zeros : Codec Nat :=
      { name := "zeros", size n := n, writing n := block (List.replicate n 0)
        read _ _ := .done 0 }
    let slot : Slot Nat := ⟨⟨33, by decide⟩, some 2⟩
    (Tag.mk 40 (.tagArray [.mk 1 (.bool true)])).writeTo {} =
      (.ok 5, { taken := [40, 3, 1, 1, 1] }) ∧
    5 = (Tag.mk 40 (.tagArray [.mk 1 (.bool true)])).size ∧
    (∃ part : Bytes, part <:+: [40, 3, 1, 1, 1] ∧ part.length = (Tag.mk 1 (.bool true)).size) ∧
    (∃ bytes, bytes.length = 3 ∧ Header.Frames 33 1 [97] bytes) ∧
    (∃ bytes, bytes.length = 6 ∧ Header.Frames 41 4 [0, 2, 3, 4] bytes) ∧
    ((Mixed.holding 21 (.array [.guest 33 slot, .plain .null])).written zeros.written).writing.writeTo
      {} = (.ok 8, { taken := [21, 6, 2, 33, 2, 0, 0, 0] }) ∧
    8 = ((Mixed.holding 21 (.array [.guest 33 slot, .plain .null])).written zeros.written).size ∧
    ∃ part : Bytes, part <:+: [21, 6, 2, 33, 2, 0, 0, 0] ∧ Header.Frames 33 2 [0, 0] part := by
  intro zeros slot
  have ht : (Tag.mk 40 (.tagArray [.mk 1 (.bool true)])).writeTo {} =
      (.ok 5, { taken := [40, 3, 1, 1, 1] }) := by cbv
  have hc : (Header.framing 33 (Codec.text.valueSize ⟨⟨33, by decide⟩, some "a"⟩)
      (Codec.text.valueWriting ⟨⟨33, by decide⟩, some "a"⟩)).writeTo {} =
        (.ok 3, { taken := [33, 1, 97] }) := by cbv
  have hb : (Header.framing 41 (Body.point.versionedSize ⟨2, ⟨3, 4⟩⟩)
      (Body.point.versionedWriting ⟨2, ⟨3, 4⟩⟩)).writeTo {} =
        (.ok 6, { taken := [41, 4, 0, 2, 3, 4] }) := by cbv
  have hm : ((Mixed.holding 21 (.array [.guest 33 slot, .plain .null])).written
      zeros.written).writing.writeTo {} = (.ok 8, { taken := [21, 6, 2, 33, 2, 0, 0, 0] }) := by
    simp only [slot, zeros]
    cbv
  have hzeros : zeros.Honest := fun n => by
    have hfills := fills_block (List.replicate n 0)
    rwa [List.length_replicate] at hfills
  obtain ⟨bytes, hs, -, hsize, -, hinside⟩ := (writeTo_count rfl).1 _ ht
  obtain rfl : bytes = [40, 3, 1, 1, 1] := (congrArg Sink.taken hs).symm
  obtain ⟨part, hpart, hlen, -⟩ := hinside (.mk 1 (.bool true)) (.of_mem (by simp [Tag.children,
    Payload.children]))
  obtain ⟨c, -, hcl, hcf⟩ := (writeTo_count rfl).2.1 _ _ Codec.honest_text 33 _ hc
  obtain ⟨b, -, hbl, hbf⟩ := (writeTo_count rfl).2.2.1 _ _ Body.honest_point 41 _ hb
  obtain ⟨m, hms, -, hmsize, hmin⟩ := (writeTo_count rfl).2.2.2.1 _ zeros.written
    (.holding 21 (.array [.guest 33 slot, .plain .null])) (fun _ a _ => hzeros.written a) hm
  obtain rfl : m = [21, 6, 2, 33, 2, 0, 0, 0] := (congrArg Sink.taken hms).symm
  obtain ⟨guest, hguest, -, hframes⟩ := hmin (.guest 33 slot) (.child List.mem_cons_self .self)
  exact ⟨ht, hsize, ⟨part, hpart, hlen⟩, ⟨c, hcl, hcf⟩, ⟨b, hbl, hbf⟩, hm, hmsize,
    guest, hguest, hframes⟩

end TagFormat
