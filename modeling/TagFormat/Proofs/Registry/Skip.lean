import TagFormat.Proofs.Registry.Accepts
import TagFormat.Proofs.Varint.Decoding

/-! # Passing over tags

The header of a tag tells where the tag ends (`Header.Delimits`), and passing over a tag looks for
nothing else (`Registry.yields_skip`). A tag that a registry reads ends where its header tells, so
reading it and passing over it come to the same place, and of the tags in a stream any may be
passed over (`Registry.skip_read`). A tag that is written ends there too, but for one whose id
implies that the payload finds its own end: what is written under such an id need not be a number
(`Registry.skip_writing`). -/

namespace TagFormat

open Cell Reading

/-! ### Where a header tells the end -/

namespace Header

/-- The bytes after an id are a size, where the header has one, and a payload that ends where the
header tells. -/
def Delimits (id limit : UInt64) (c : Bytes) : Prop :=
  match Id.sizing id with
  | .fixed size => c.length = size
  | .selfDelimited => ∃ n, c = Varint.encode n
  | .unassigned => False
  | .explicit => ∃ size ≤ limit, ∃ body : Bytes,
      c = Varint.encode size ++ body ∧ body.length = size.toNat

variable {id limit : UInt64} {left : Option Nat} {c : Bytes} {α : Type} {a : α}

theorem size_of_implicit (h : Id.sizing id ≠ .explicit) (size : UInt64) :
    Header.size id size = Varint.encodedSize id := by
  unfold Header.size
  rw [if_pos (Id.isImplicit_of_sizing_ne h)]

theorem size_of_explicit (h : Id.sizing id = .explicit) (size : UInt64) :
    Header.size id size = Varint.encodedSize id + Varint.encodedSize size := by
  have hi := (Id.sizing_eq_explicit_iff id).mp h
  unfold Header.size
  rw [if_neg (Bool.eq_false_iff.mp hi)]

/-- What a program reads that takes all of a payload of known size, and none of unknown size. -/
theorem delimits_of_yields {payload : Declared → Reading α}
    (hexact : ∀ size left c, (payload (.exact size)).Yields left c a → c.length = size)
    (hself : ∀ left c, ¬(payload .selfDelimited).Yields left c a)
    (h : ((readSize id limit).bind payload).Yields left c a) : Delimits id limit c := by
  obtain ⟨c₁, c₂, declared, rfl, hsize, hpayload⟩ := (yields_bind ..).mp h
  unfold Delimits
  cases hs : Id.sizing id with
  | fixed size =>
    obtain ⟨rfl, rfl⟩ := (yields_readSize_of_fixed hs).mp hsize
    exact hexact _ _ _ hpayload
  | selfDelimited =>
    obtain ⟨rfl, rfl⟩ := (yields_readSize_of_selfDelimited hs).mp hsize
    exact absurd hpayload (hself _ _)
  | unassigned =>
    rw [readSize, hs] at hsize
    exact hsize
  | explicit =>
    have hi := (Id.sizing_eq_explicit_iff id).mp hs
    obtain ⟨size, hle, rfl, rfl⟩ := (yields_readSize_of_explicit hi).mp hsize
    exact ⟨size, hle, c₂, rfl, hexact _ _ _ hpayload⟩

/-- A payload of which the size suits the id ends where the header tells, unless it should find its
own end and does not. -/
theorem delimits_iff {size : Nat} (hc : c.length = size) (hfault : fault? id size = none)
    (hlimit : Id.isImplicit id = false → size ≤ limit.toNat) :
    Delimits id limit (sizeBytes id size ++ c) ↔
      (Id.sizing id = .selfDelimited → ∃ n, c = Varint.encode n) := by
  unfold fault? at hfault
  unfold Delimits sizeBytes
  cases hs : Id.sizing id with
  | fixed expected =>
    rw [hs] at hfault
    simp only [ite_eq_left_iff, reduceCtorEq, imp_false, not_not] at hfault
    rw [if_pos (Id.isImplicit_of_sizing_ne (by rw [hs]; simp))]
    simp only [List.nil_append, reduceCtorEq, false_imp_iff, iff_true]
    rw [hc, hfault]
  | selfDelimited =>
    rw [if_pos (Id.isImplicit_of_sizing_ne (by rw [hs]; simp))]
    simp only [List.nil_append, forall_const]
  | unassigned =>
    rw [hs] at hfault
    cases hfault
  | explicit =>
    have hi := (Id.sizing_eq_explicit_iff id).mp hs
    have hle := hlimit hi
    have hlt : size < 2 ^ 64 := lt_of_le_of_lt hle limit.toNat_lt
    have hn : (UInt64.ofNat size).toNat = size := UInt64.toNat_ofNat_of_lt' hlt
    simp only [reduceCtorEq, false_imp_iff, iff_true]
    rw [if_neg (Bool.eq_false_iff.mp hi)]
    exact ⟨UInt64.ofNat size, by rwa [UInt64.le_iff_toNat_le, hn], c, rfl, by rw [hn, hc]⟩

end Header

/-- A payload of a type that finds its own end is a number. -/
theorem Payload.cells_of_selfDelimited {p : Payload} {type : Standard}
    (hk : p.kind = .standard type) (h : Id.sizing type.id = .selfDelimited) :
    ∃ n, p.cells = exacts (Varint.encode n) := by
  cases p <;> cases hk <;> cases h
  case varint n => exact ⟨n, Payload.cells_of_block rfl rfl⟩
  case signedVarint n => exact ⟨Varint.zigzag n, Payload.cells_of_block rfl rfl⟩

namespace Registry

variable {r : Registry} {left : Option Nat} {c : Bytes}

/-! ### Passing over -/

/-- What follows the id when a tag is passed over. -/
theorem yields_skipBody {id limit : UInt64} {n : Nat} :
    ((Header.readSize id limit).bind fun
      | .selfDelimited => Reading.varint.bind fun v =>
          done (Header.size id 0 + Varint.encodedSize v)
      | .exact size => (Reading.block size).bind fun _ =>
          done (Header.size id (UInt64.ofNat size) + size)).Yields left c n ↔
      Varint.encodedSize id + c.length = n ∧ Header.Delimits id limit c := by
  rw [yields_bind]
  unfold Header.Delimits
  cases hs : Id.sizing id with
  | fixed size =>
    have hsize : ∀ size, Header.size id size = Varint.encodedSize id :=
      Header.size_of_implicit (by rw [hs]; simp)
    simp only [Header.yields_readSize_of_fixed hs, hsize]
    constructor
    · rintro ⟨_, _, _, rfl, ⟨rfl, rfl⟩, h⟩
      obtain ⟨_, hblock, rfl⟩ := yields_map.mp h
      obtain ⟨hl, -⟩ := yields_block.mp hblock
      exact ⟨by rw [List.nil_append, hl], hl⟩
    · rintro ⟨rfl, hl⟩
      refine ⟨[], c, _, rfl, ⟨rfl, rfl⟩, yields_map.mpr ⟨c, yields_block.mpr ⟨hl, rfl⟩, ?_⟩⟩
      rw [hl]
  | selfDelimited =>
    have hsize : ∀ size, Header.size id size = Varint.encodedSize id :=
      Header.size_of_implicit (by rw [hs]; simp)
    simp only [Header.yields_readSize_of_selfDelimited hs, hsize]
    constructor
    · rintro ⟨_, _, _, rfl, ⟨rfl, rfl⟩, h⟩
      obtain ⟨v, hv, rfl⟩ := yields_map.mp h
      obtain rfl := yields_varint.mp hv
      exact ⟨by rw [List.nil_append, Varint.length_encode], v, rfl⟩
    · rintro ⟨rfl, v, rfl⟩
      refine ⟨[], _, _, rfl, ⟨rfl, rfl⟩, yields_map.mpr ⟨v, yields_varint.mpr rfl, ?_⟩⟩
      rw [Varint.length_encode]
  | unassigned =>
    simp only [Header.readSize, hs, yields_fail, false_and, and_false, exists_false]
  | explicit =>
    have hi := (Id.sizing_eq_explicit_iff id).mp hs
    have hsize := Header.size_of_explicit hs
    simp only [Header.yields_readSize_of_explicit hi, hsize]
    constructor
    · rintro ⟨_, body, _, rfl, ⟨size, hle, rfl, rfl⟩, h⟩
      obtain ⟨_, hblock, rfl⟩ := yields_map.mp h
      obtain ⟨hl, -⟩ := yields_block.mp hblock
      refine ⟨?_, size, hle, body, rfl, hl⟩
      rw [UInt64.ofNat_toNat, List.length_append, Varint.length_encode, hl, Nat.add_assoc]
    · rintro ⟨rfl, size, hle, body, rfl, hl⟩
      refine ⟨_, body, _, rfl, ⟨size, hle, rfl, rfl⟩,
        yields_map.mpr ⟨body, yields_block.mpr ⟨hl, rfl⟩, ?_⟩⟩
      rw [UInt64.ofNat_toNat, List.length_append, Varint.length_encode, hl, Nat.add_assoc]

/-- **Passing over a tag** takes an id and what the header tells, and gives the number of bytes. -/
theorem yields_skip {n : Nat} : r.skip.Yields left c n ↔ c.length = n ∧
    ∃ id rest, c = Varint.encode id ++ rest ∧ Header.Delimits id r.settings.maxTagSize rest := by
  unfold skip
  simp only [bind_eq, pure_eq, yields_bind_varint]
  constructor
  · rintro ⟨id, rest, rfl, h⟩
    obtain ⟨rfl, hd⟩ := yields_skipBody.mp h
    exact ⟨by rw [List.length_append, Varint.length_encode], id, rest, rfl, hd⟩
  · rintro ⟨rfl, id, rest, rfl, hd⟩
    refine ⟨id, rest, rfl, yields_skipBody.mpr ⟨?_, hd⟩⟩
    rw [List.length_append, Varint.length_encode]

/-! ### Tags that are read -/

/-- A tag that a registry allows ends where its header tells. -/
theorem Allows.delimits {t : Tag} (h : r.Allows t) (hc : Spells t.cells c) :
    ∃ rest, c = Varint.encode t.id ++ rest ∧
      Header.Delimits t.id r.settings.maxTagSize rest := by
  obtain ⟨id, p⟩ := t
  have hkind : r.kindOf id = .ok p.kind := h.kind
  rw [Tag.cells_mk, spells_append, Header.bytes_eq] at hc
  simp only [spells_exacts] at hc
  obtain ⟨_, body, rfl, rfl, hbody⟩ := hc
  have hfault : Header.fault? id p.cells.length = none :=
    fault?_of_kindOf hkind fun hk hs => Payload.length_cells_of_fixed hk hs
  refine ⟨_, List.append_assoc .., ?_⟩
  rw [Tag.id_mk, Header.delimits_iff hbody.length_eq.symm hfault h.size]
  -- only numbers stand under ids of payloads that find their own end
  intro hs
  obtain ⟨type, rfl, hk⟩ := exists_standard hkind (Id.isImplicit_of_sizing_ne (by rw [hs]; simp))
  obtain ⟨n, hn⟩ := Payload.cells_of_selfDelimited hk hs
  rw [hn, spells_exacts] at hbody
  exact ⟨n, hbody⟩

/-- What a registry reads as a tag, every registry of the same greatest size passes over. -/
theorem yields_skip_of_readTag {r' : Registry}
    (hr : r'.settings.maxTagSize = r.settings.maxTagSize) {depth : Nat} {t : Tag}
    (h : (r.readTag depth).Yields left c t) : r'.skip.Yields left c c.length := by
  obtain ⟨ha, hc⟩ := ((r.readsBy depth).tag left c t).mp h
  have hallows := (ha.inside t .self).1
  obtain ⟨rest, rfl, hd⟩ := hallows.delimits hc
  exact yields_skip.mpr ⟨rfl, t.id, rest, rfl, hr ▸ hd⟩

/-! ### Streams of tags -/

/-- From `s` to `s'`, a registry of the given greatest size passes over a tag, whatever else it
knows. -/
def SkipsTo (limit : UInt64) (stops : List Nat) (s s' : Source) : Prop :=
  ∃ n ≤ s.rest.length, s' = s.advance n ∧
    ∀ r : Registry, r.settings.maxTagSize = limit → r.skip.run stops s = (.ok n, s')

/-- Reads a tag of the given id, with a payload that is told only what the header declares. -/
def readAs {α : Type} (r : Registry) (id : UInt64) (payload : Declared → Reading α) :
    Reading α := do
  expectId id
  let declared ← Header.readSize id r.settings.maxTagSize
  payload declared

/-- Goes through tags one after another, reads those that are kept, and passes over the others. -/
def sift (r : Registry) (depth : Nat) : (keep : List Bool) → Reading (List Tag)
  | [] => return []
  | true :: keep => do
    let t ← r.readTag depth
    return t :: (← r.sift depth keep)
  | false :: keep => do
    let _ ← r.skip
    r.sift depth keep

/-- What succeeds on bytes that registries pass over leads where they go. -/
theorem skipsTo_of_yields {α : Type} {p : Reading α} {a : α} {stops : List Nat} {s s' : Source}
    {limit : UInt64} (hs : ∀ stop ∈ stops, s.pos ≤ stop) (h : p.run stops s = (.ok a, s'))
    (hp : ∀ {left c}, p.Yields left c a → ∀ r : Registry, r.settings.maxTagSize = limit →
      r.skip.Yields left c c.length) : SkipsTo limit stops s s' := by
  obtain ⟨n, hn, rfl, hstops, hy⟩ := (run_eq_ok_iff hs).mp h
  refine ⟨n, hn, rfl, fun r hr => (run_eq_ok_iff hs).mpr ⟨n, hn, rfl, hstops, ?_⟩⟩
  have hskip := hp hy r hr
  rwa [List.length_take, Nat.min_eq_left hn] at hskip

theorem yields_skip_of_readAs {α : Type} {id : UInt64} {payload : Declared → Reading α} {a : α}
    (hexact : ∀ size left c, (payload (.exact size)).Yields left c a → c.length = size)
    (hself : ∀ left c, ¬(payload .selfDelimited).Yields left c a)
    (h : (r.readAs id payload).Yields left c a) {r' : Registry}
    (hr : r'.settings.maxTagSize = r.settings.maxTagSize) : r'.skip.Yields left c c.length := by
  unfold readAs at h
  simp only [bind_eq] at h
  obtain ⟨_, rest, _, rfl, hid, hbody⟩ := (yields_bind ..).mp h
  obtain rfl := yields_expectId.mp hid
  have hd := Header.delimits_of_yields hexact hself hbody
  exact yields_skip.mpr ⟨rfl, id, rest, rfl, hr ▸ hd⟩

/-- Where tags stand one after another, those that are kept are read, whichever they are. -/
theorem yields_sift {depth : Nat} : ∀ {keep : List Bool} {tags : List Tag} {left : Option Nat}
    {c : Bytes}, tags.length = keep.length →
    Parts (Formed (r.Accepts depth) Tag.cells) c tags →
    (r.sift depth keep).Yields left c (((keep.zip tags).filter Prod.fst).map Prod.snd)
  | [], [], _, _, _, hp => ⟨hp, rfl⟩
  | k :: keep, t :: tags, left, _, hl, ⟨c₁, c₂, hc, ht, hp⟩ => by
    have hread := ((r.readsBy depth).tag left c₁ t).mpr ht
    have hrest : (r.sift depth keep).Yields (left.map (· - c₁.length)) c₂ _ :=
      yields_sift (Nat.succ_inj.mp hl) hp
    subst hc
    cases k with
    | true =>
      refine (yields_bind ..).mpr ⟨c₁, c₂, t, rfl, hread, ?_⟩
      exact yields_map.mpr ⟨_, hrest, rfl⟩
    | false =>
      have hskip := yields_skip_of_readTag rfl hread
      exact (yields_bind ..).mpr ⟨c₁, c₂, _, rfl, hskip, hrest⟩

/-- **Passing over a tag agrees with reading it.** Where a tag can be read, with any number of
levels left, passing over it comes to the same place and tells how far that is, whatever is
registered. So it is with the value of a slot under any codec, and with a versioned value of any
body, however they read what stands inside. Where tags can be read one after another, any of them
may be passed over, and the others are read as before. The number that is told is always that of
the bytes passed over. -/
theorem skip_read {stops : List Nat} {s s' : Source} (hs : ∀ stop ∈ stops, s.pos ≤ stop)
    (r : Registry) (depth : Nat) :
    (∀ t, (r.readTag depth).run stops s = (.ok t, s') →
      SkipsTo r.settings.maxTagSize stops s s') ∧
    (∀ keep tags, ((r.readTag depth).times keep.length).run stops s = (.ok tags, s') →
      (r.sift depth keep).run stops s =
        (.ok (((keep.zip tags).filter Prod.fst).map Prod.snd), s')) ∧
    (∀ (α : Type) (codec : Codec α) (inner : Inner) (id : UInt64) (a : α),
      (r.readAs id (codec.readValue inner)).run stops s = (.ok a, s') →
      SkipsTo r.settings.maxTagSize stops s s') ∧
    (∀ (α : Type) (body : Body α) (inner : Inner) (id : UInt64) (v : Versioned α),
      (r.readAs id (body.readVersioned inner)).run stops s = (.ok v, s') →
      SkipsTo r.settings.maxTagSize stops s s') ∧
    ∀ n, r.skip.run stops s = (.ok n, s') → n ≤ s.rest.length ∧ s' = s.advance n := by
  refine ⟨fun t h => ?_, fun keep tags h => ?_, fun α codec inner id a h => ?_,
    fun α body inner id v h => ?_, fun n h => ?_⟩
  · exact skipsTo_of_yields hs h fun hy r' hr => yields_skip_of_readTag hr hy
  · obtain ⟨n, hn, rfl, hstops, hy⟩ := (run_eq_ok_iff hs).mp h
    obtain ⟨hl, hp⟩ := (yields_times (r.readsBy depth).tag).mp hy
    exact (run_eq_ok_iff hs).mpr ⟨n, hn, rfl, hstops, yields_sift hl hp⟩
  · refine skipsTo_of_yields hs h fun hy r' hr => yields_skip_of_readAs ?_ ?_ hy hr
    · exact fun size left c hv => (Codec.yields_readValue.mp hv).1
    · exact fun left c hv => hv
  · refine skipsTo_of_yields hs h fun hy r' hr => yields_skip_of_readAs ?_ ?_ hy hr
    · exact fun size left c hv => (Body.yields_readVersioned.mp hv).1
    · exact fun left c hv => hv
  · obtain ⟨m, hm, rfl, -, hy⟩ := (run_eq_ok_iff hs).mp h
    obtain ⟨hl, -⟩ := yields_skip.mp hy
    rw [List.length_take, Nat.min_eq_left hm] at hl
    exact ⟨hl ▸ hm, by rw [hl]⟩

/-- An array that is read and passed over, a point of the first version, and an array of which the
first element is left out. -/
theorem skip_read_array :
    (readTag { settings := { unknown := .permissive } } 2).run []
        { rest := [21, 6, 2, 1, 1, 40, 1, 9, 5] } =
      (.ok (.mk 21 (.tagArray [.mk 1 (.bool true), .mk 40 (.bytes [9])])),
        { rest := [5], pos := 8 }) ∧
    SkipsTo 0x20000000 [] { rest := [21, 6, 2, 1, 1, 40, 1, 9, 5] } { rest := [5], pos := 8 } ∧
    SkipsTo 0x20000000 [] { rest := [33, 3, 0, 1, 7, 5] } { rest := [5], pos := 5 } ∧
    (sift { settings := { unknown := .permissive } } 2 [false, true]).run []
        { rest := [1, 1, 40, 1, 9, 5] } =
      (.ok [.mk 40 (.bytes [9])], { rest := [5], pos := 5 }) := by
  have hread : (readTag { settings := { unknown := .permissive } } 2).run []
      { rest := [21, 6, 2, 1, 1, 40, 1, 9, 5] } =
        (.ok (.mk 21 (.tagArray [.mk 1 (.bool true), .mk 40 (.bytes [9])])),
          { rest := [5], pos := 8 }) := by cbv
  have hpoint : (readAs {} 33 (Body.point.readVersioned (inner {} 1))).run []
      { rest := [33, 3, 0, 1, 7, 5] } =
        (.ok ⟨1, ⟨7, 0⟩⟩, { rest := [5], pos := 5 }) := by cbv
  have htimes : ((readTag { settings := { unknown := .permissive } } 2).times 2).run []
      { rest := [1, 1, 40, 1, 9, 5] } =
        (.ok [.mk 1 (.bool true), .mk 40 (.bytes [9])], { rest := [5], pos := 5 }) := by cbv
  refine ⟨hread, ?_, ?_, ?_⟩
  · exact (skip_read (List.forall_mem_nil _) _ 2).1 _ hread
  · exact (skip_read (List.forall_mem_nil _) {} 1).2.2.2.1 _ Body.point _ 33 _ hpoint
  · exact (skip_read (List.forall_mem_nil _) _ 2).2.1 [false, true] _ htimes

/-! ### Tags that are written -/

/-- **What is written can be passed over**, whatever its id and its payload, unless the id implies
that the payload finds its own end and the payload is not written as a number. -/
theorem skip_writing {t : Tag} {sink sink' : Sink} (hsink : sink.capacity = none) {n : Nat}
    (hw : t.writeTo sink = (.ok n, sink')) : ∃ bytes, sink' = sink.take bytes ∧
      bytes.length = n ∧ ∀ (r : Registry) (s : Source) (rest : Bytes),
        t.valueSize ≤ r.settings.maxTagSize.toNat → s.rest = bytes ++ rest →
        (r.skip.run [] s = (.ok n, s.advance n) ↔
          (Id.sizing t.id = .selfDelimited → ∃ v, t.payload.writing.bytes = Varint.encode v)) := by
  obtain ⟨hf, rfl, rfl⟩ := Writing.writeTo_eq_ok hsink hw
  refine ⟨_, rfl, rfl, fun r s rest hlimit hrest => ?_⟩
  have hfault := (Tag.failure_writing_eq_none.mp hf).1
  have hframes := Tag.frames hf
  have hbytes : t.writing.bytes = Varint.encode t.id ++
      (Header.sizeBytes t.id t.valueSize ++ t.payload.writing.bytes) := by
    rw [hframes.eq, ← Header.bytes, Header.bytes_eq, List.append_assoc]
  rw [run_eq_ok_advance_iff hrest, yields_skip, and_iff_right rfl,
    ← Header.delimits_iff hframes.payload_length hfault fun _ => hlimit]
  constructor
  · rintro ⟨id, body, he, hd⟩
    -- no id starts another, so the header that is read is the one that was written
    rw [hbytes, Varint.encode_append_inj] at he
    obtain ⟨rfl, rfl⟩ := he
    exact hd
  · exact fun hd => ⟨t.id, _, hbytes, hd⟩

/-- A number under its id and bytes under a free id. -/
theorem skip_writing_varint :
    (Tag.mk 10 (.varint 300)).writeTo {} = (.ok 3, { taken := [10, 248, 52] }) ∧
    (skip {}).run [] { rest := [10, 248, 52, 9] } = (.ok 3, { rest := [9], pos := 3 }) ∧
    (Tag.mk 40 (.bytes [1, 2, 3])).writeTo {} = (.ok 5, { taken := [40, 3, 1, 2, 3] }) ∧
    (skip {}).run [] { rest := [40, 3, 1, 2, 3, 9] } = (.ok 5, { rest := [9], pos := 5 }) := by
  have hnumber : (Tag.mk 10 (.varint 300)).writeTo {} = (.ok 3, { taken := [10, 248, 52] }) := by
    cbv
  have hblock : (Tag.mk 40 (.bytes [1, 2, 3])).writeTo {} =
      (.ok 5, { taken := [40, 3, 1, 2, 3] }) := by cbv
  obtain ⟨number, hn, -, hskip⟩ := skip_writing rfl hnumber
  obtain rfl : number = [10, 248, 52] := (congrArg Sink.taken hn).symm
  obtain ⟨block, hb, -, hskip'⟩ := skip_writing rfl hblock
  obtain rfl : block = [40, 3, 1, 2, 3] := (congrArg Sink.taken hb).symm
  refine ⟨hnumber, ?_, hblock, ?_⟩
  · exact (hskip {} { rest := [10, 248, 52, 9] } [9] (by cbv) rfl).mpr fun _ => ⟨300, by cbv⟩
  · refine (hskip' {} { rest := [40, 3, 1, 2, 3, 9] } [9] (by cbv) rfl).mpr fun h => ?_
    exact absurd h (by decide)

/-- Bytes under the id of numbers that find their own end are written, but what is passed over is
the number at their start. -/
theorem skip_writing_misframed :
    (Tag.mk 10 (.bytes [1, 2, 3])).writeTo {} = (.ok 4, { taken := [10, 1, 2, 3] }) ∧
    (Tag.mk 10 (.bytes [1, 2, 3])).valueSize ≤ ({} : Registry).settings.maxTagSize.toNat ∧
    (skip {}).run [] { rest := [10, 1, 2, 3] } = (.ok 2, { rest := [2, 3], pos := 2 }) := by
  refine ⟨by cbv, by cbv, by cbv⟩

end Registry

end TagFormat
