import TagFormat.Proofs.Input.Rounds
import TagFormat.Proofs.Registry.Reading
import TagFormat.Proofs.Registry.Locality
import TagFormat.Registry.Slots

/-! # Batches

A batch of values under one id. A codec *keeps* a value if it writes as many bytes as it tells and
reads from exactly these a value that is as good (`Codec.Keeps`). Of such values, some of which may
be missing, the bytes of a batch are those of the slots as tags, one after another, with a tag
without a value for each that is missing (`Codec.Stands`); the writers put them out
(`writeEach_of_fits`), their number is the size of the batch, and the readers give the values back
whatever follows (`run_times_of_yields`). Where values go through the slot, this is empty again
after each of them, and after one that fails (`readEach_eq`). So it is empty after a batch, however
the batch ended. The theorem is `batches`. -/

namespace TagFormat

open Reading

variable {α β : Type}

theorem ExplicitId.isImplicit_val (id : ExplicitId) : Id.isImplicit id.val = false := by
  have := UInt64.le_iff_toNat_le.mp id.le_val
  unfold Id.isImplicit
  rw [decide_eq_false_iff_not, UInt64.lt_iff_toNat_lt]
  change 16 ≤ id.val.toNat at this
  change ¬id.val.toNat < 16
  omega

theorem ExplicitId.val_ne_null (id : ExplicitId) : id.val ≠ Standard.null.id := by
  intro h
  have := id.isImplicit_val
  rw [h] at this
  cases this

/-! ### Values that a codec keeps -/

/-- The codec writes as many bytes of the value as it tells, within the limit of the registry, and in
a frame of exactly these bytes it reads a value that `Same` relates to it. -/
structure Codec.Keeps (c : Codec α) (r : Registry) (Same : α → α → Prop) (a : α) : Prop where
  failure : (c.writing a).failure = none
  length : (c.writing a).bytes.length = c.size a
  limit : c.size a ≤ r.settings.maxTagSize.toNat
  read : ∃ b, Same a b ∧ (c.read (r.inner r.levels) (.exact (c.size a))).run [c.size a]
    (.ofBytes (c.writing a).bytes) = (.ok b, (Source.ofBytes (c.writing a).bytes).advance (c.size a))

/-- The bytes of a slot as a tag, among whatever other tags. -/
def Codec.toBytes (c : Codec α) (slot : Slot α) : Except TagError Bytes :=
  (Header.framing slot.id.val (c.valueSize slot) (c.valueWriting slot)).toBytes

/-- The tags that hold slots are such. -/
theorem Tag.toBytes_slot (id : ExplicitId) :
    (∀ a, (mk id.val (.coordinates ⟨id, a⟩)).toBytes = Codec.coordinates.toBytes ⟨id, a⟩) ∧
    (∀ width a, (mk id.val (.fixed width ⟨id, a⟩)).toBytes =
      (Codec.fixed width).toBytes ⟨id, a⟩) ∧
    (∀ a, (mk id.val (.text ⟨id, a⟩)).toBytes = Codec.text.toBytes ⟨id, a⟩) ∧
    ∀ a, (mk id.val (.nested ⟨id, a⟩)).toBytes = Codec.nested.toBytes ⟨id, a⟩ := by
  refine ⟨fun a => ?_, fun width a => ?_, fun a => ?_, fun a => ?_⟩
  all_goals
    rw [toBytes, writing_mk, Codec.toBytes]
    rcases a with _ | a
    all_goals
      rw [Payload.valueSize, Payload.writing]
      rfl

/-! ### Writing -/

namespace Codec

variable {c : Codec α} {r : Registry} {Same : α → α → Prop} {id : ExplicitId} {a : α}

/-- The bytes of a slot that holds the value, or of a tag without a value. -/
def part (c : Codec α) (id : ExplicitId) : Option α → Bytes
  | none => [0]
  | some a => (c.tagWriting id a).bytes

/-- What stands in a batch for a value that may be missing: the slot that holds it, as a tag, or one
byte. -/
def Stands (c : Codec α) (id : ExplicitId) : Option α → Bytes → Prop
  | none, part => part = [0]
  | some a, part => c.toBytes ((Slot.empty id).set a) = .ok part

theorem failure_tagWriting (h : (c.writing a).failure = none) :
    (c.tagWriting id a).failure = none := by
  rw [tagWriting, Writing.failure_append_eq_none, Header.writing]
  split_ifs <;> exact ⟨rfl, h⟩

/-- Under an id with a written size, nothing is refused because of its size. -/
theorem toBytes_set (h : (c.writing a).failure = none) :
    c.toBytes ((Slot.empty id).set a) = .ok (c.tagWriting id a).bytes := by
  have hfault : Header.fault? id.val (c.size a) = none := by
    rw [Header.fault?, (Id.sizing_eq_explicit_iff id.val).mpr id.isImplicit_val]
  have hframing : Header.framing id.val (c.size a) (c.writing a) = c.tagWriting id a := by
    rw [Header.framing, hfault, tagWriting]
  change (Header.framing id.val (c.size a) (c.writing a)).toBytes = _
  rw [hframing, Writing.toBytes, failure_tagWriting h]

theorem stands_part {element : Option α} (h : ∀ a ∈ element, (c.writing a).failure = none) :
    c.Stands id element (c.part id element) := by
  cases element with
  | none => rfl
  | some a => exact toBytes_set (h a rfl)

theorem Keeps.length_tagWriting (h : c.Keeps r Same a) :
    (c.tagWriting id a).bytes.length = c.tagSize id a :=
  (Header.fills_writing id.val _).append (fun _ => h.length) (failure_tagWriting h.failure)

theorem length_part {element : Option α} (h : ∀ a ∈ element, c.Keeps r Same a) :
    (c.part id element).length = c.elementSize id element := by
  cases element with
  | none => rfl
  | some a => exact (h a rfl).length_tagWriting

theorem writeValue_of_fits (h : c.Keeps r Same a) {s : Sink}
    (hs : s.Fits (c.tagWriting id a).bytes.length) : c.writeValue id a s =
      (.ok (c.tagWriting id a).bytes.length, s.take (c.tagWriting id a).bytes) := by
  rw [writeValue, Writing.run, Writing.runCounted_of_fits hs, failure_tagWriting h.failure,
    h.length_tagWriting]
  rfl

theorem writeElement_of_fits {element : Option α} (h : ∀ a ∈ element, c.Keeps r Same a)
    {s : Sink} (hs : s.Fits (c.part id element).length) : c.writeElement id element s =
      (.ok (c.part id element).length, s.take (c.part id element)) := by
  cases element with
  | none =>
    rw [writeElement, Writing.writeTo, Writing.runCounted_of_fits hs]
    rfl
  | some a => exact writeValue_of_fits (h a rfl) hs

/-- **Elements that are written whole** are written one after another. -/
theorem writeEach_of_fits {write : β → Sink → Except TagError Nat × Sink} {part : β → Bytes} :
    ∀ {elements : List β} {written : Nat} {s : Sink},
      (∀ b ∈ elements, ∀ s : Sink, s.Fits (part b).length →
        write b s = (.ok (part b).length, s.take (part b))) →
      s.Fits (elements.flatMap part).length →
      writeEach write elements written s =
        (.ok (written + (elements.flatMap part).length), s.take (elements.flatMap part))
  | [], written, s, _, _ => by
    rw [writeEach, List.flatMap_nil, Sink.take_nil]
    rfl
  | b :: elements, written, s, h, hs => by
    obtain ⟨hb, h⟩ := List.forall_mem_cons.mp h
    rw [List.flatMap_cons, List.length_append] at hs ⊢
    rw [writeEach, hb s (hs.of_le (Nat.le_add_right ..))]
    simp only
    rw [writeEach_of_fits h hs.take, Sink.take_take, Nat.add_assoc]

/-! ### Reading -/

/-- Reads a value in a tag of its own. -/
def readOne (c : Codec α) (r : Registry) (id : ExplicitId) : Reading α :=
  (Registry.expectId id.val).bind fun _ => c.readBody r id

theorem Keeps.yields_readBody (h : c.Keeps r Same a) (id : ExplicitId) : ∃ b, Same a b ∧ ∀ left,
    (c.readBody r id).Yields left (Header.sizeBytes id.val (c.size a) ++ (c.writing a).bytes) b := by
  obtain ⟨b, hsame, hrun⟩ := h.read
  refine ⟨b, hsame, fun left => ?_⟩
  have hsize : (UInt64.ofNat (c.size a)).toNat = c.size a :=
    UInt64.toNat_ofNat_of_lt' (lt_of_le_of_lt h.limit r.settings.maxTagSize.toNat_lt)
  have hlimit : UInt64.ofNat (c.size a) ≤ r.settings.maxTagSize := by
    rw [UInt64.le_iff_toNat_le, hsize]
    exact h.limit
  have hread : (c.read (r.inner r.levels) (.exact (c.size a))).Yields (some (c.size a))
      (c.writing a).bytes b := by
    have hstop : ∀ stop ∈ [c.size a], (Source.ofBytes (c.writing a).bytes).pos ≤ stop :=
      fun stop _ => Nat.zero_le stop
    obtain ⟨n, hn, hs, -, hy⟩ := (run_eq_ok_iff hstop).mp hrun
    have hpos : c.size a = n := by
      have := congrArg Source.pos hs
      rw [Source.advance_pos, Source.advance_pos] at this
      omega
    rw [← hpos, ← h.length] at hy
    have htake : (Source.ofBytes (c.writing a).bytes).rest.take (c.writing a).bytes.length =
        (c.writing a).bytes := List.take_length
    rw [htake, h.length] at hy
    exact hy
  unfold readBody
  rw [bind_eq, yields_bind]
  refine ⟨_, _, .exact (c.size a), rfl, ?_, yields_readValue.mpr ⟨h.length, hread⟩⟩
  rw [Header.yields_readSize_of_explicit id.isImplicit_val, Header.sizeBytes, id.isImplicit_val]
  exact ⟨_, hlimit, rfl, by rw [hsize]⟩

theorem bytes_tagWriting : (c.tagWriting id a).bytes =
    Varint.encode id.val ++ (Header.sizeBytes id.val (c.size a) ++ (c.writing a).bytes) := by
  have hf : (Header.writing id.val (UInt64.ofNat (c.size a))).failure = none := by
    rw [Header.writing]
    split_ifs <;> rfl
  rw [tagWriting, Writing.bytes_append hf, ← Header.bytes, Header.bytes_eq, List.append_assoc]

theorem Keeps.yields_readOne (h : c.Keeps r Same a) : ∃ b, Same a b ∧ ∀ left,
    (c.readOne r id).Yields left (c.tagWriting id a).bytes b := by
  obtain ⟨b, hsame, hbody⟩ := h.yields_readBody id
  refine ⟨b, hsame, fun left => ?_⟩
  rw [bytes_tagWriting, readOne, yields_bind]
  exact ⟨_, _, (), rfl, Registry.yields_expectId.mpr rfl, hbody _⟩

theorem yields_readElement {element : Option α} (h : ∀ a ∈ element, c.Keeps r Same a) :
    ∃ e, Option.Rel Same element e ∧ ∀ left,
      (c.readElement r id).Yields left (c.part id element) e := by
  unfold readElement
  simp only [bind_eq, pure_eq, yields_bind_varint]
  cases element with
  | none => exact ⟨none, .none, fun left => ⟨0, [], by rfl, rfl, rfl⟩⟩
  | some a =>
    obtain ⟨b, hsame, hbody⟩ := (h a rfl).yields_readBody id
    refine ⟨some b, .some hsame, fun left => ⟨id.val, _, bytes_tagWriting, ?_⟩⟩
    rw [if_neg id.val_ne_null, if_pos rfl, yields_map]
    exact ⟨b, hbody _, rfl⟩

/-- **Items that are read from parts of the bytes** are read one after another. -/
theorem yields_timesFrom_flatMap {γ : Type} {item : Reading γ} {Rel : β → γ → Prop}
    {part : β → Bytes} : ∀ {elements : List β},
      (∀ b ∈ elements, ∃ e, Rel b e ∧ ∀ left, item.Yields left (part b) e) →
      ∃ es, List.Forall₂ Rel elements es ∧ ∀ left read,
        (item.timesFrom elements.length read).Yields left (elements.flatMap part)
          (read.reverse ++ es)
  | [], _ => ⟨[], .nil, fun left read => ⟨rfl, List.append_nil _⟩⟩
  | b :: elements, h => by
    obtain ⟨hb, h⟩ := List.forall_mem_cons.mp h
    obtain ⟨e, he, hitem⟩ := hb
    obtain ⟨es, hes, htimes⟩ := yields_timesFrom_flatMap h
    refine ⟨e :: es, .cons he hes, fun left read => ?_⟩
    rw [List.length_cons, timesFrom, List.flatMap_cons, yields_bind]
    have hrest := htimes (left.map (· - (part b).length)) (e :: read)
    rw [List.reverse_cons, List.append_assoc, List.singleton_append] at hrest
    exact ⟨_, _, e, rfl, hitem left, hrest⟩

/-! ### The slot -/

variable {slot : Slot α} {s : Source}

theorem fill_eq (c : Codec α) (r : Registry) (slot : Slot α) (s : Source) : c.fill r slot s =
    match (c.readOne r slot.id).run [] s with
    | (.ok a, t) => (.ok (), slot.set a, t)
    | (.error error, t) => (.error error, slot, t) := by
  have htag : (c.readTag r slot).run [] s =
      ((c.readOne r slot.id).bind fun a => done (slot.set a)).run [] s :=
    (run_bind_assoc (Registry.expectId slot.id.val) _ _ [] s).symm
  rw [fill, htag, run_bind]
  rcases (c.readOne r slot.id).run [] s with ⟨error | a, t⟩ <;> rfl

/-- **Values that go through an empty slot** are those that are read one after another, and the slot
is empty again, also after an error. -/
theorem readEach_eq (h : slot.value = none) : ∀ {count : Nat} {read : List α} {s : Source},
    c.readEach r count read slot s =
      ((((c.readOne r slot.id).timesFrom count read).run [] s).1, slot,
        (((c.readOne r slot.id).timesFrom count read).run [] s).2)
  | 0, read, s => rfl
  | count + 1, read, s => by
    have hempty : slot.clear = slot := by
      unfold Slot.clear
      rw [← h]
    rw [readEach, fill_eq, timesFrom, run_bind]
    rcases (c.readOne r slot.id).run [] s with ⟨error | a, t⟩
    · rfl
    · -- the value is taken out before the next one is read
      have htake : (slot.set a).take = (some a, slot) := by
        rw [Slot.take]
        exact congrArg (Prod.mk (some a)) hempty
      simp only [htake]
      exact readEach_eq h

theorem readBatch_eq (c : Codec α) (r : Registry) (slot : Slot α) (count : Nat) (s : Source) :
    c.readBatch r slot count s =
      ((((c.readOne r slot.id).times count).run [] s).1, slot.clear,
        (((c.readOne r slot.id).times count).run [] s).2) :=
  readEach_eq rfl

theorem readSparseBatch_eq (c : Codec α) (r : Registry) (slot : Slot α) (count : Nat) (s : Source) :
    c.readSparseBatch r slot count s =
      ((((c.readElement r slot.id).times count).run [] s).1, slot.clear,
        (((c.readElement r slot.id).times count).run [] s).2) :=
  rfl

theorem writeBatch_eq (c : Codec α) (slot : Slot α) (values : List α) (s : Sink) :
    c.writeBatch slot values s =
      ((writeEach (c.writeValue slot.id) values 0 s).1, slot.clear,
        (writeEach (c.writeValue slot.id) values 0 s).2) :=
  rfl

theorem writeSparseBatch_eq (c : Codec α) (slot : Slot α) (values : List (Option α)) (s : Sink) :
    c.writeSparseBatch slot values s =
      ((writeEach (c.writeElement slot.id) values 0 s).1, slot.clear,
        (writeEach (c.writeElement slot.id) values 0 s).2) :=
  rfl

/-! ### Batches -/

theorem totalSize_map {f : β → Nat} {part : β → Bytes} : ∀ {elements : List β},
    (∀ b ∈ elements, (part b).length = f b) →
      totalSize (elements.map f) = (elements.flatMap part).length
  | [], _ => rfl
  | b :: elements, h => by
    obtain ⟨hb, h⟩ := List.forall_mem_cons.mp h
    have := totalSize_map h
    rw [List.flatMap_cons, List.length_append, ← this, hb]
    rfl

/-- Items that are read from parts of the bytes are read from a source that starts with these. -/
theorem run_times_of_yields {γ : Type} {item : Reading γ} {Rel : β → γ → Prop}
    {part : β → Bytes} {elements : List β}
    (h : ∀ b ∈ elements, ∃ e, Rel b e ∧ ∀ left, item.Yields left (part b) e) {suffix : Bytes}
    (hs : s.rest = elements.flatMap part ++ suffix) :
    ∃ es, List.Forall₂ Rel elements es ∧ (item.times elements.length).run [] s =
      (.ok es, s.advance (elements.flatMap part).length) := by
  obtain ⟨es, hes, hyields⟩ := yields_timesFrom_flatMap h
  exact ⟨es, hes, (run_eq_ok_advance_iff hs).mpr (hyields none [])⟩

theorem forall₂_stands {values : List (Option α)}
    (h : ∀ a, some a ∈ values → (c.writing a).failure = none) :
    List.Forall₂ (c.Stands id) values (values.map (c.part id)) := by
  rw [List.forall₂_map_right_iff, List.forall₂_same]
  intro element hmem
  exact stands_part fun a ha => h a (ha ▸ hmem)

/-- What stands in a batch under `id` is `parts`, one after another: the size of the batch is their
number of bytes, a sink with room for them takes them and this number is told, and from a source that
starts with them `Good` values are read and what follows is left. The slot is left empty. -/
structure Batched {γ : Type} (id : ExplicitId) (parts : List Bytes) (size : Nat)
    (write : Sink → Except TagError Nat × Slot α × Sink)
    (read : Source → Except TagError γ × Slot α × Source) (Good : γ → Prop) : Prop where
  size_eq : size = parts.flatten.length
  write_eq : ∀ sink : Sink, sink.Fits parts.flatten.length →
    write sink = (.ok parts.flatten.length, .empty id, sink.take parts.flatten)
  read_eq : ∀ (s : Source) (suffix : Bytes), s.rest = parts.flatten ++ suffix →
    ∃ values, Good values ∧ read s = (.ok values, .empty id, s.advance parts.flatten.length) ∧
      (s.advance parts.flatten.length).rest = suffix

theorem batched_sparse {values : List (Option α)} (h : ∀ a, some a ∈ values → c.Keeps r Same a)
    (held : Option α) : Batched id (values.map (c.part id)) (c.sparseBatchSize id values)
      (c.writeSparseBatch ⟨id, held⟩ values) (c.readSparseBatch r ⟨id, held⟩ values.length)
      (List.Forall₂ (Option.Rel Same) values) := by
  have hkeeps : ∀ element ∈ values, ∀ a ∈ element, c.Keeps r Same a :=
    fun element hmem a ha => h a (ha ▸ hmem)
  constructor
  all_goals rw [← List.flatMap_def]
  case size_eq => exact totalSize_map fun e he => length_part (hkeeps e he)
  case write_eq =>
    intro sink hs
    have hwrite : writeEach (c.writeElement id) values 0 sink = (.ok (0 + _), sink.take _) :=
      writeEach_of_fits (fun e he s hs => writeElement_of_fits (hkeeps e he) hs) hs
    rw [writeSparseBatch_eq, hwrite, Nat.zero_add]
    rfl
  case read_eq =>
    intro s suffix hs
    obtain ⟨es, hes, hrun⟩ := run_times_of_yields (fun e he => yields_readElement (hkeeps e he)) hs
    rw [readSparseBatch_eq, hrun]
    exact ⟨es, hes, rfl, Source.rest_advance hs⟩

theorem batched_dense {values : List α} (h : ∀ a ∈ values, c.Keeps r Same a) (held : Option α) :
    Batched id ((values.map some).map (c.part id)) (c.batchSize id values)
      (c.writeBatch ⟨id, held⟩ values) (c.readBatch r ⟨id, held⟩ values.length)
      (List.Forall₂ Same values) := by
  constructor
  all_goals rw [List.map_map, ← List.flatMap_def]
  case size_eq => exact totalSize_map fun a ha => (h a ha).length_tagWriting
  case write_eq =>
    intro sink hs
    have hwrite : writeEach (c.writeValue id) values 0 sink = (.ok (0 + _), sink.take _) :=
      writeEach_of_fits (fun a ha s hs => writeValue_of_fits (h a ha) hs) hs
    rw [writeBatch_eq, hwrite, Nat.zero_add]
    rfl
  case read_eq =>
    intro s suffix hs
    obtain ⟨es, hes, hrun⟩ := run_times_of_yields (fun a ha => (h a ha).yields_readOne) hs
    rw [readBatch_eq, hrun]
    exact ⟨es, hes, rfl, Source.rest_advance hs⟩

/-- **Batches.** For every codec, every registry and every id with a written size, and whatever the
slot held before: where the codec keeps the values of a list, some of which may be missing, a batch
of them consists of the slots with these values as tags, and of one zero byte for each that is
missing. So it is with lists in which no value is missing. After each of the calls the slot is empty,
whether it succeeded or failed, from whatever source and to whatever sink, with whatever codec. -/
theorem batches (c : Codec α) (r : Registry) (Same : α → α → Prop) (id : ExplicitId)
    (held : Option α) :
    (∀ values : List (Option α), (∀ a, some a ∈ values → c.Keeps r Same a) →
      ∃ parts, List.Forall₂ (c.Stands id) values parts ∧
        Batched id parts (c.sparseBatchSize id values) (c.writeSparseBatch ⟨id, held⟩ values)
          (c.readSparseBatch r ⟨id, held⟩ values.length)
          (List.Forall₂ (Option.Rel Same) values)) ∧
    (∀ values : List α, (∀ a ∈ values, c.Keeps r Same a) →
      ∃ parts, List.Forall₂ (c.Stands id) (values.map some) parts ∧
        Batched id parts (c.batchSize id values) (c.writeBatch ⟨id, held⟩ values)
          (c.readBatch r ⟨id, held⟩ values.length) (List.Forall₂ Same values)) ∧
    (∀ values sink, (c.writeSparseBatch ⟨id, held⟩ values sink).2.1 = .empty id) ∧
    (∀ count s, (c.readSparseBatch r ⟨id, held⟩ count s).2.1 = .empty id) ∧
    (∀ values sink, (c.writeBatch ⟨id, held⟩ values sink).2.1 = .empty id) ∧
    ∀ count s, (c.readBatch r ⟨id, held⟩ count s).2.1 = .empty id := by
  refine ⟨fun values h => ⟨_, forall₂_stands fun a ha => (h a ha).failure, batched_sparse h held⟩,
    fun values h => ⟨_, forall₂_stands fun a ha => ?_, batched_dense h held⟩,
    fun _ _ => rfl, fun _ _ => rfl, fun _ _ => rfl, fun count s => ?_⟩
  · obtain ⟨b, hb, hba⟩ := List.mem_map.mp ha
    exact Option.some.inj hba ▸ (h b hb).failure
  · rw [readBatch_eq]
    rfl

/-- Text is kept as long as it is within the limit. -/
theorem keeps_text {t : String} (h : (Utf8.encode t).length ≤ r.settings.maxTagSize.toNat) :
    text.Keeps r Eq t where
  failure := rfl
  length := congrArg List.length (Writing.bytes_block _)
  limit := h
  read := by
    have hbytes : (text.writing t).bytes = Utf8.encode t := Writing.bytes_block _
    have hyields : (text.read (r.inner r.levels) (.exact (Utf8.encode t).length)).Yields
        (some (Utf8.encode t).length) (Utf8.encode t) t := yields_text.mpr ⟨rfl, rfl⟩
    refine ⟨t, rfl, (run_eq_ok_iff fun stop _ => Nat.zero_le stop).mpr ?_⟩
    rw [hbytes]
    refine ⟨(Utf8.encode t).length, le_rfl, rfl, fun stop hmem => ?_, ?_⟩
    · rw [List.mem_singleton.mp hmem]
      exact (Nat.zero_add _).le
    · rw [Source.ofBytes, List.take_length]
      exact hyields

/-- Two texts and between them one that is missing, through a slot that held another. -/
theorem batches_text :
    let id : ExplicitId := ⟨40, by decide⟩
    let values := [some "ab", none, some ""]
    let bytes : Bytes := [40, 2, 97, 98, 0, 40, 0]
    let s : Source := { rest := bytes ++ [7] }
    (∀ t, some t ∈ values → text.Keeps {} Eq t) ∧
    text.writeSparseBatch ⟨id, some "x"⟩ values {} = (.ok 7, .empty id, { taken := bytes }) ∧
    text.readSparseBatch {} ⟨id, some "x"⟩ 3 s = (.ok values, .empty id, s.advance 7) := by
  intro id values bytes s
  have hkeeps : ∀ t, some t ∈ values → text.Keeps {} Eq t := by
    intro t ht
    simp only [values, List.mem_cons, Option.some.injEq, reduceCtorEq, false_or,
      List.not_mem_nil, or_false] at ht
    rcases ht with rfl | rfl
    all_goals exact keeps_text (by decide)
  obtain ⟨parts, hparts, hbatch⟩ := (batches text {} Eq id (some "x")).1 values hkeeps
  have hab : text.toBytes ⟨id, some "ab"⟩ = .ok [40, 2, 97, 98] := by cbv
  have hempty : text.toBytes ⟨id, some ""⟩ = .ok [40, 0] := by cbv
  have hflatten : parts.flatten = bytes := by
    change List.Forall₂ _ [some "ab", none, some ""] parts at hparts
    rcases hparts with _ | ⟨h₁, _ | ⟨h₂, _ | ⟨h₃, _ | _⟩⟩⟩
    obtain rfl := Except.ok.inj (hab.symm.trans h₁)
    obtain rfl := h₂
    obtain rfl := Except.ok.inj (hempty.symm.trans h₃)
    rfl
  refine ⟨hkeeps, ?_, ?_⟩
  · have hwrite := hbatch.write_eq {} (Sink.fits_of_unlimited rfl _)
    rw [hflatten] at hwrite
    exact hwrite
  · obtain ⟨read, hread, hrun, -⟩ := hbatch.read_eq s [7] (by rw [hflatten])
    rw [hflatten] at hrun
    have hsame : values = read := by
      change List.Forall₂ _ [some "ab", none, some ""] read at hread
      rcases hread with _ | ⟨h₁, _ | ⟨h₂, _ | ⟨h₃, _ | _⟩⟩⟩
      rcases h₁ with h₁ | _
      cases h₂
      rcases h₃ with h₃ | _
      rw [← h₁, ← h₃]
    rw [← hsame] at hrun
    exact hrun

end Codec

end TagFormat
