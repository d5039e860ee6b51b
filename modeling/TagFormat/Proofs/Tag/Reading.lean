import TagFormat.Proofs.Tag.Forms

/-! # Payloads are read by their form

Whatever is read as the payload of a kind, from exactly a declared number of bytes, is a payload of
this kind that spells its own cells on these bytes, and every payload of the kind that could have
been read is read from every spelling of its cells (`Payload.yields_read`). So nothing of the bytes
is lost but which of the bytes for `true` stood there. -/

namespace TagFormat

open Cell Reading

/-! ### What can come out of reading -/

/-- A payload as readers make it, as far as it can be told without the tags inside: dictionaries are
built from their entries, versions are supported ones, and slots are filled. -/
def Payload.IsReadable : Payload → Prop
  | .dictionary m => m = .ofList m.toList
  | .stringDictionary m => m = .ofList m.toList
  | .point v => v.version = 1 ∧ v.inner.y = 0 ∨ v.version = Point.currentVersion
  | .document v => v.version = documentVersion
  | .coordinates slot => slot.value.isSome
  | .fixed width slot => slot.value.map List.length = some width
  | .text slot => slot.value.isSome
  | .nested slot => slot.value.isSome
  | _ => True

/-- The payload is readable, with tags and texts inside that have the given properties. -/
structure Payload.Holds (A : Tag → Prop) (S : String → Prop) (p : Payload) : Prop where
  readable : p.IsReadable
  children : ∀ u ∈ p.children, A u
  strings : ∀ s ∈ p.strings, S s

/-- The programs for the level below read tags and texts by their form, and only those that have the
given properties. -/
structure Inner.ReadsBy (A : Tag → Prop) (S : String → Prop) (inner : Inner) : Prop where
  tag : inner.tag.Reads (Formed A Tag.cells)
  string : inner.string.Reads (Formed S fun s => exacts (Tag.stringBytes s))

variable {A : Tag → Prop} {S : String → Prop} {inner : Inner} {left : Option Nat} {c : Bytes}
  {size : Nat} {p : Payload}

/-! ### Kinds -/

theorem Kind.of_yields_bind {α : Type} {kind : Kind} {q : Reading α} {f : α → Reading Payload}
    (hf : ∀ a left c p, (f a).Yields left c p → p.kind = kind)
    (h : (q.bind f).Yields left c p) : p.kind = kind := by
  obtain ⟨c₁, c₂, a, -, -, h⟩ := (yields_bind ..).mp h
  exact hf _ _ _ _ h

theorem Kind.of_yields_map {α : Type} {kind : Kind} {q : Reading α} {f : α → Payload}
    (hf : ∀ a, (f a).kind = kind) (h : (q.bind fun a => done (f a)).Yields left c p) :
    p.kind = kind := by
  obtain ⟨a, -, rfl⟩ := yields_map.mp h
  exact hf a

/-- **What is read as of a kind** is of this kind. -/
theorem Kind.kind_of_yields {kind : Kind} (h : (kind.read inner (.exact size)).Yields left c p) :
    p.kind = kind := by
  cases kind with
  | standard type =>
    cases type <;> simp only [read, Standard.read, bind_eq, pure_eq] at h
    case null => exact congrArg Payload.kind (yields_ofSize.mp h).2.2
    case bytes | string | bigInt =>
      exact of_yields_bind (fun _ _ _ _ => of_yields_map fun _ => rfl) h
    case bigDecimal | range =>
      exact of_yields_bind (fun _ _ _ _ => of_yields_map fun _ => rfl) (yields_framed.mp h).2.2
    case version =>
      refine of_yields_bind (fun _ _ _ _ => ?_) (yields_ofSize.mp h).2
      exact of_yields_bind fun _ _ _ _ => of_yields_bind fun _ _ _ _ => of_yields_map fun _ => rfl
    all_goals exact of_yields_map (fun _ => rfl) h
  | _ =>
    simp only [read, bind_eq, pure_eq] at h
    exact of_yields_map (fun _ => rfl) h

/-! ### Payloads of one size -/

theorem Payload.holds_of_leaf (h : p.IsReadable) (hc : p.children = []) (hs : p.strings = []) :
    p.Holds A S where
  readable := h
  children := by
    rw [hc]
    exact List.forall_mem_nil _
  strings := by
    rw [hs]
    exact List.forall_mem_nil _

/-- A payload without tags inside, of which all bytes are fixed. -/
theorem Payload.formed_iff_eq {b : Bytes} (hp : p.Holds A S) (hc : p.cells = exacts b) :
    Formed (Holds A S) cells c p ↔ c = b := by
  rw [Formed, and_iff_right hp, hc, spells_exacts]

theorem Payload.cells_of_block {b : Bytes} (hc : p.cells = exacts p.writing.bytes)
    (hw : p.writing = .block b) : p.cells = exacts b := by
  rw [hc, hw, Writing.bytes_block]

theorem Reading.yields_ofSize_map {α : Type} {what : String} {expected : Nat} {item : Reading α}
    {f : α → Payload} :
    ((ofSize what expected (.exact size) item).bind fun a => done (f a)).Yields left c p ↔
      size = expected ∧ (item.bind fun a => done (f a)).Yields left c p := by
  rw [yields_map, yields_map]
  simp only [yields_ofSize, and_assoc, exists_and_left]

/-- A payload of one size that is written as one block. -/
theorem Payload.yields_scalar {α : Type} {what : String} {expected : Nat} {item : Reading α}
    {f : α → Payload} {b : Bytes}
    (hitem : (item.bind fun a => done (f a)).Yields left c p ↔ c = b) (hb : b.length = expected)
    (hp : p.Holds A S) (hc : p.cells = exacts p.writing.bytes) (hw : p.writing = .block b) :
    ((ofSize what expected (.exact size) item).bind fun a => done (f a)).Yields left c p ↔
      c.length = size ∧ Formed (Holds A S) cells c p := by
  rw [yields_ofSize_map, hitem, formed_iff_eq hp (cells_of_block hc hw)]
  constructor
  · rintro ⟨rfl, rfl⟩
    exact ⟨hb, rfl⟩
  · rintro ⟨rfl, rfl⟩
    exact ⟨hb, rfl⟩

theorem Reading.yields_bits128 {n : BitVec 128} :
    ((number 16).bind fun m => done (BitVec.ofNat 128 m)).Yields left c n ↔
      c = BigEndian.encode 16 n.toNat :=
  yields_word (fun n : BitVec 128 => n.isLt) (fun n => BitVec.eq_of_toNat_eq (by simp))
    (fun _ h => Nat.mod_eq_of_lt h)

/-! ### Sequences of items -/

theorem BigInt.eq_ofBytes_iff {n : BigInt} (hc : c ≠ []) : n = ofBytes c ↔ c = n.bytes := by
  cases c with
  | nil => exact absurd rfl hc
  | cons b bs =>
    rw [BigInt.ext_iff]
    exact eq_comm

theorem Declared.atLeast_exact_eq_ok_iff {what : String} {minimum n : Nat} :
    (exact size).atLeast what minimum = .ok n ↔ minimum ≤ size ∧ n = size := by
  have hr : (exact size).atLeast what minimum =
      if size < minimum then .error (.format (.tooShort what minimum size)) else .ok size := rfl
  rw [hr]
  split_ifs with h
  · simp
    omega
  · simp [eq_comm]
    omega

theorem Reading.yields_bigInt {what : String} {n : BigInt} :
    ((ofExcept ((Declared.exact size).atLeast what 1)).bind fun m => (block m).bind fun b =>
      done (Payload.bigInt (.ofBytes b))).Yields left c (.bigInt n) ↔
      c.length = size ∧ c = n.bytes := by
  have hpos : 0 < n.bytes.length := List.length_pos_iff.mpr n.bytes_ne_nil
  rw [yields_ofExcept_bind]
  simp only [Declared.atLeast_exact_eq_ok_iff, yields_map, yields_block, Payload.bigInt.injEq]
  constructor
  · rintro ⟨m, ⟨hm, rfl⟩, b, ⟨rfl, rfl⟩, hn⟩
    exact ⟨rfl, (BigInt.eq_ofBytes_iff (List.ne_nil_of_length_pos hm)).mp hn⟩
  · rintro ⟨rfl, h⟩
    have hl := congrArg List.length h
    refine ⟨_, ⟨by omega, rfl⟩, _, ⟨rfl, rfl⟩, (BigInt.eq_ofBytes_iff ?_).mpr h⟩
    exact List.ne_nil_of_length_pos (by omega)

theorem Reading.yields_bigDecimal {what : String} {d : BigDecimal} :
    (framed what 5 (.exact size) fun size => (block (size - 4)).bind fun b =>
      int32.bind fun scale => done (Payload.bigDecimal ⟨.ofBytes b, scale⟩)).Yields left c
        (.bigDecimal d) ↔
      c.length = size ∧ c = d.unscaled.bytes ++ BigEndian.encode 4 d.scale.toUInt32.toNat := by
  obtain ⟨n, scale⟩ := d
  have hpos : 0 < n.bytes.length := List.length_pos_iff.mpr n.bytes_ne_nil
  rw [yields_framed, yields_bind]
  simp only [yields_map, yields_block, yields_int32, Payload.bigDecimal.injEq, BigDecimal.mk.injEq]
  constructor
  · rintro ⟨hm, hl, c₁, c₂, b, rfl, ⟨h₁, rfl⟩, _, rfl, hn, rfl⟩
    have : b ≠ [] := List.ne_nil_of_length_pos (by omega)
    rw [(BigInt.eq_ofBytes_iff this).mp hn] at hl ⊢
    exact ⟨hl, rfl⟩
  · rintro ⟨hl, rfl⟩
    rw [List.length_append, BigEndian.length_encode] at hl
    refine ⟨by omega, by simpa using hl, _, _, n.bytes, rfl, ⟨by omega, rfl⟩, scale, rfl, ?_, rfl⟩
    exact (BigInt.eq_ofBytes_iff n.bytes_ne_nil).mpr rfl

theorem Reading.yields_range {what : String} {r : NumberRange} :
    (framed what 3 (.exact size) fun _ => varint.bind fun start => uint16.bind fun count =>
      done (Payload.range ⟨start, count⟩)).Yields left c (.range r) ↔
      c.length = size ∧ c = Varint.encode r.start ++ BigEndian.encode 2 r.count.toNat := by
  obtain ⟨start, count⟩ := r
  rw [yields_framed, yields_bind_varint]
  simp only [yields_map, yields_uint16, Payload.range.injEq, NumberRange.mk.injEq]
  constructor
  · rintro ⟨-, hl, _, _, rfl, _, rfl, rfl, rfl⟩
    exact ⟨hl, rfl⟩
  · rintro ⟨hl, rfl⟩
    have := Varint.encodedSize_pos start
    rw [List.length_append, BigEndian.length_encode, Varint.length_encode] at hl
    exact ⟨by omega, by simpa using hl, start, _, rfl, count, rfl, rfl, rfl⟩

theorem Reading.yields_version {what : String} {v : VersionNumber} :
    (ofSize what 16 (.exact size) (int32.bind fun major => int32.bind fun minor =>
      int32.bind fun patch => int32.bind fun build =>
        done (Payload.version ⟨major, minor, patch, build⟩))).Yields left c (.version v) ↔
      c.length = size ∧ c = BigEndian.encode 4 v.major.toUInt32.toNat ++
        (BigEndian.encode 4 v.minor.toUInt32.toNat ++ (BigEndian.encode 4 v.patch.toUInt32.toNat ++
          BigEndian.encode 4 v.build.toUInt32.toNat)) := by
  obtain ⟨major, minor, patch, build⟩ := v
  rw [yields_ofSize]
  simp only [yields_bind_int32, yields_done, Payload.version.injEq, VersionNumber.mk.injEq]
  constructor
  · rintro ⟨rfl, _, _, rfl, _, _, rfl, _, _, rfl, _, _, rfl, rfl, rfl, rfl, rfl, rfl⟩
    exact ⟨by simp, by rw [List.append_nil]⟩
  · rintro ⟨hl, rfl⟩
    simp only [List.length_append, BigEndian.length_encode] at hl
    refine ⟨hl.symm, major, _, rfl, minor, _, rfl, patch, _, rfl, build, [], ?_, rfl, rfl, rfl, rfl,
      rfl⟩
    rw [List.append_nil]

/-! ### Bodies and codecs -/

section Codec

variable {α : Type}

/-- A version, and a body as it is read in this version. -/
theorem Body.yields_readVersioned {b : Body α} {v : Versioned α} :
    (b.readVersioned inner (.exact size)).Yields left c v ↔ c.length = size ∧
      b.supports v.version = true ∧ ∃ c₂, c = BigEndian.encode 2 v.version.toNat ++ c₂ ∧
        (b.read v.version inner).Yields (some c₂.length) c₂ v.inner := by
  have hq : ∀ (version : UInt16) left c, Reading.Yields (if b.supports version = true then
      (b.read version inner).bind fun a => done (Versioned.mk version a)
      else .fail (.format (.unsupportedVersion what version.toNat))) left c v ↔
        b.supports version = true ∧ version = v.version ∧
          (b.read version inner).Yields left c v.inner := by
    intro version left c
    split_ifs with h
    · obtain ⟨version', a⟩ := v
      rw [yields_map]
      simp only [Versioned.mk.injEq, h, true_and]
      constructor
      · rintro ⟨a', hr, rfl, rfl⟩
        exact ⟨rfl, hr⟩
      · rintro ⟨rfl, hr⟩
        exact ⟨a, hr, rfl, rfl⟩
    · simp [h]
  rw [readVersioned_eq, bind_eq, yields_ofExcept_bind]
  simp only [bind_eq, pure_eq, Declared.atLeast_exact_eq_ok_iff, yields_exactly, yields_bind_uint16,
    hq]
  constructor
  · rintro ⟨_, ⟨-, rfl⟩, rfl, version, c₂, rfl, hs, rfl, hr⟩
    rw [Option.map_some, List.length_append, Nat.add_sub_cancel_left] at hr
    exact ⟨rfl, hs, c₂, rfl, hr⟩
  · rintro ⟨rfl, hs, c₂, rfl, hr⟩
    refine ⟨_, ⟨?_, rfl⟩, rfl, _, c₂, rfl, hs, rfl, ?_⟩
    · rw [List.length_append, BigEndian.length_encode]
      omega
    · rwa [Option.map_some, List.length_append, Nat.add_sub_cancel_left]

theorem Codec.yields_readValue {codec : Codec α} {a : α} :
    (codec.readValue inner (.exact size)).Yields left c a ↔
      c.length = size ∧ (codec.read inner (.exact size)).Yields (some size) c a := by
  rw [readValue, bind_eq, yields_ofExcept_bind]
  simp only [Declared.bytes, Except.ok.injEq, yields_exactly]
  constructor
  · rintro ⟨_, rfl, rfl, h⟩
    exact ⟨rfl, h⟩
  · rintro ⟨rfl, h⟩
    exact ⟨_, rfl, rfl, h⟩

end Codec

theorem Coordinates.yields_read {a : Coordinates} :
    (Codec.coordinates.read inner (.exact size)).Yields left c a ↔
      size = 8 ∧ c = a.writing.bytes := by
  obtain ⟨lat, lon⟩ := a
  change ((ofSize Slot.coordinatesName 8 (.exact size) (int32.bind fun lat => int32.bind fun lon =>
    done (Coordinates.mk lat lon))).Yields left c ⟨lat, lon⟩) ↔ _
  rw [yields_ofSize]
  simp only [yields_bind_int32, yields_done, Coordinates.mk.injEq]
  have hb : (Coordinates.writing ⟨lat, lon⟩).bytes =
      BigEndian.encode 4 lat.toUInt32.toNat ++ BigEndian.encode 4 lon.toUInt32.toNat := by
    rw [writing, Writing.bytes_append rfl, Writing.int32, Writing.int32, Writing.bytes_block,
      Writing.bytes_block]
  rw [hb]
  constructor
  · rintro ⟨rfl, _, _, rfl, _, _, rfl, rfl, rfl, rfl⟩
    exact ⟨rfl, by rw [List.append_nil]⟩
  · rintro ⟨rfl, rfl⟩
    exact ⟨rfl, lat, _, rfl, lon, [], (List.append_nil _).symm, rfl, rfl, rfl⟩

theorem Point.yields_read {version : UInt16} {a : Point} :
    (Body.point.read version inner).Yields left c a ↔
      (version < 2 → a.y = 0) ∧
        c = Varint.encode a.x ++ if version < 2 then [] else Varint.encode a.y := by
  obtain ⟨x, y⟩ := a
  change (varint.bind fun x => if version < 2 then done (Point.mk x 0) else
    varint.bind fun y => done (Point.mk x y)).Yields left c ⟨x, y⟩ ↔ _
  rw [yields_bind_varint]
  by_cases hv : version < 2
  · simp only [if_pos hv, yields_done, Point.mk.injEq]
    constructor
    · rintro ⟨_, _, rfl, rfl, rfl, rfl⟩
      exact ⟨fun _ => rfl, rfl⟩
    · rintro ⟨hy, rfl⟩
      exact ⟨x, _, rfl, rfl, rfl, hy hv⟩
  · simp only [if_neg hv, yields_varint, yields_map, Point.mk.injEq]
    constructor
    · rintro ⟨_, _, rfl, _, rfl, rfl, rfl⟩
      exact ⟨fun h => absurd h hv, rfl⟩
    · rintro ⟨-, rfl⟩
      exact ⟨x, _, rfl, y, rfl, rfl, rfl⟩

/-! ### All payloads -/

theorem Header.bytes_length_pos (id : UInt64) (size : Nat) : 0 < (bytes id size).length := by
  have := Varint.encodedSize_pos id
  rw [bytes, fills_writing id _ (by rw [writing]; split_ifs <;> rfl), Header.size]
  split_ifs <;> omega

theorem Tag.cells_length_pos (t : Tag) : 0 < t.cells.length := by
  obtain ⟨id, p⟩ := t
  rw [cells_mk, List.length_append, length_exacts]
  have := Header.bytes_length_pos id p.cells.length
  omega

theorem Tag.stringBytes_eq (s : String) : stringBytes s =
    Header.bytes Standard.string.id (Utf8.encode s).length ++ Utf8.encode s := by
  rw [stringBytes, stringWriting, Writing.bytes_append, Writing.bytes_block, Header.bytes]
  rw [Header.writing]
  split_ifs <;> rfl

theorem Tag.length_stringWriting_pos (s : String) : 0 < (stringWriting s).bytes.length := by
  have hpos := Header.bytes_length_pos Standard.string.id (Utf8.encode s).length
  have hbytes : (stringWriting s).bytes = stringBytes s := rfl
  rw [hbytes, stringBytes_eq, List.length_append]
  omega

theorem Varint.bytes_listWriting (ns : List UInt64) : (listWriting ns).bytes =
    encode (UInt64.ofNat ns.length) ++ ns.flatMap encode := by
  rw [Writing.bytes, listWriting, List.flatten_cons, List.flatMap_def]

theorem Varint.yields_numbers {what : String} (hsize : size < 2 ^ 64) {ns : List UInt64} :
    (counted what (.exact size) Reading.varint).Yields left c ns ↔
      c.length = size ∧ c = (listWriting ns).bytes := by
  have hv : Reading.varint.Reads (Formed (fun _ => True) fun n => exacts (encode n)) := by
    intro left c n
    rw [yields_varint, Formed, spells_exacts, true_and]
  have hf : ∀ n : UInt64, True → 0 < (exacts (encode n)).length := by
    intro n _
    rw [length_exacts, length_encode]
    exact encodedSize_pos n
  have he : (ns.flatMap fun n => exacts (encode n)) = exacts (ns.flatMap encode) := by
    rw [exacts, List.map_flatMap]
    rfl
  rw [yields_counted hv hf hsize, he, ← exacts_append, spells_exacts, ← bytes_listWriting,
    and_iff_right fun n _ => trivial]

/-- What comes of one item alone is read from its bytes. -/
theorem Reading.yields_map_iff {α : Type} {item : Reading α} {f : α → Payload} {a : α}
    (hf : ∀ x, p = f x ↔ x = a) :
    (item.bind fun a => done (f a)).Yields left c p ↔ item.Yields left c a := by
  rw [yields_map]
  simp only [hf]
  constructor
  · rintro ⟨_, h, rfl⟩
    exact h
  · exact fun h => ⟨a, h, rfl⟩

namespace Payload

/-- **Scalars** are read by their form. -/
theorem yields_read_scalar (hp : p.Holds A S) {type : Standard} (hk : p.kind = .standard type)
    {n : Nat} (hn : Id.sizing type.id = .fixed n) :
    (type.read inner (.exact size)).Yields left c p ↔
      c.length = size ∧ Formed (Holds A S) cells c p := by
  cases p <;> cases hk <;> cases hn
  all_goals simp only [Standard.read, bind_eq, pure_eq]
  case null =>
    rw [yields_ofSize, yields_done, formed_iff_eq (b := []) hp rfl]
    constructor
    · rintro ⟨rfl, rfl, -⟩
      exact ⟨rfl, rfl⟩
    · rintro ⟨rfl, rfl⟩
      exact ⟨rfl, rfl, rfl⟩
  case bool v =>
    rw [yields_ofSize_map, yields_map, Formed, and_iff_right hp]
    change _ ↔ c.length = size ∧ Spells [.truth v] c
    simp only [yields_byte, spells_truth, Payload.bool.injEq]
    constructor
    · rintro ⟨rfl, b, rfl, rfl⟩
      exact ⟨rfl, b, rfl, rfl⟩
    · rintro ⟨rfl, b, rfl, rfl⟩
      exact ⟨rfl, b, rfl, rfl⟩
  case uint8 n =>
    refine yields_scalar ((yields_map_iff fun x => ?_).trans yields_byte) rfl hp rfl rfl
    rw [uint8.injEq, eq_comm]
  case int8 n =>
    refine yields_scalar ((yields_map_iff (a := n.toUInt8) fun x => ?_).trans yields_byte) rfl hp
      rfl rfl
    rw [int8.injEq]
    exact ⟨fun h => by rw [h]; rfl, fun h => by rw [h]; rfl⟩
  case uint16 n =>
    refine yields_scalar ((yields_map_iff fun x => ?_).trans yields_uint16) rfl hp rfl rfl
    rw [uint16.injEq, eq_comm]
  case int16 n =>
    refine yields_scalar ((yields_map_iff (a := n.toUInt16) fun x => ?_).trans yields_uint16) rfl hp
      rfl rfl
    rw [int16.injEq]
    exact ⟨fun h => by rw [h]; rfl, fun h => by rw [h]; rfl⟩
  case uint32 n =>
    refine yields_scalar ((yields_map_iff fun x => ?_).trans yields_uint32) rfl hp rfl rfl
    rw [uint32.injEq, eq_comm]
  case int32 n =>
    refine yields_scalar ((yields_map_iff fun x => ?_).trans yields_int32) rfl hp rfl rfl
    rw [int32.injEq, eq_comm]
  case uint64 n =>
    refine yields_scalar ((yields_map_iff fun x => ?_).trans yields_uint64) rfl hp rfl rfl
    rw [uint64.injEq, eq_comm]
  case int64 n =>
    refine yields_scalar ((yields_map_iff (a := n.toUInt64) fun x => ?_).trans yields_uint64) rfl hp
      rfl rfl
    rw [int64.injEq]
    exact ⟨fun h => by rw [h]; rfl, fun h => by rw [h]; rfl⟩
  case float32 n =>
    refine yields_scalar ((yields_map_iff fun x => ?_).trans yields_uint32) rfl hp rfl rfl
    rw [float32.injEq, eq_comm]
  case float64 n =>
    refine yields_scalar ((yields_map_iff fun x => ?_).trans yields_uint64) rfl hp rfl rfl
    rw [float64.injEq, eq_comm]
  case float128 n =>
    change ((ofSize "float128" 16 (.exact size) (number 16)).bind fun m =>
      done (Payload.float128 (BitVec.ofNat 128 m))).Yields left c (float128 n) ↔ _
    have hbits : ((number 16).bind fun m => done (BitVec.ofNat 128 m)).Yields left c n ↔
        c = BigEndian.encode 16 n.toNat := yields_bits128
    refine yields_scalar ?_ (BigEndian.length_encode 16 n.toNat) hp rfl rfl
    rw [← hbits, yields_map, yields_map]
    simp only [float128.injEq]

/-- A payload with all bytes fixed that is read from its bytes. -/
theorem yields_leaf {q : Reading Payload} {b : Bytes} (hp : p.Holds A S)
    (hc : p.cells = exacts p.writing.bytes) (hb : p.writing.bytes = b)
    (h : q.Yields left c p ↔ c.length = size ∧ c = b) :
    q.Yields left c p ↔ c.length = size ∧ Formed (Holds A S) cells c p := by
  rw [h, formed_iff_eq hp (by rw [hc, hb])]

/-- **Payloads of a standard kind** are read by their form. -/
theorem yields_read_standard (hi : inner.ReadsBy A S) (hsize : size < 2 ^ 64) {type : Standard}
    (hk : p.kind = .standard type) :
    (type.read inner (.exact size)).Yields left c p ↔
      c.length = size ∧ Formed (Holds A S) cells c p := by
  cases p <;> cases hk
  case null | bool | uint8 | int8 | uint16 | int16 | uint32 | int32 | uint64 | int64 | float32
    | float64 | float128 =>
    refine yields_read_scalar ?_ rfl rfl
    exact holds_of_leaf trivial rfl rfl
  all_goals simp only [Standard.read, bind_eq, pure_eq]
  case varint n =>
    refine yields_leaf (holds_of_leaf trivial rfl rfl) rfl (Writing.bytes_block _) ?_
    rw [yields_map_iff (a := n) (by simp [eq_comm])]
    exact yields_exactly.trans (and_congr_right fun _ => yields_varint)
  case signedVarint n =>
    refine yields_leaf (holds_of_leaf trivial rfl rfl) rfl (Writing.bytes_block _) ?_
    rw [yields_map_iff (a := n) (by simp [eq_comm])]
    exact yields_exactly.trans (and_congr_right fun _ => yields_signedVarint)
  case bytes b =>
    refine yields_leaf (holds_of_leaf trivial rfl rfl) rfl (Writing.bytes_block _) ?_
    change ((block size).bind fun b => done (Payload.bytes b)).Yields left c (bytes b) ↔ _
    rw [yields_map_iff (a := b) (by simp [eq_comm]), yields_block, eq_comm (a := b)]
  case string s =>
    refine yields_leaf (holds_of_leaf trivial rfl rfl) rfl (Writing.bytes_block _) ?_
    change ((Reading.text size).bind fun s => done (Payload.string s)).Yields left c (string s) ↔ _
    rw [yields_map_iff (a := s) (by simp [eq_comm]), yields_text]
  case bigInt n =>
    exact yields_leaf (holds_of_leaf trivial rfl rfl) rfl (Writing.bytes_block _) yields_bigInt
  case bigDecimal d =>
    refine yields_leaf (holds_of_leaf trivial rfl rfl) rfl ?_ yields_bigDecimal
    rw [writing, Writing.bytes_append rfl, Writing.bytes_block, Writing.int32, Writing.bytes_block]
  case varintArray ns =>
    refine yields_leaf (holds_of_leaf trivial rfl rfl) rfl rfl ?_
    rw [yields_map_iff (a := ns) (by simp [eq_comm]), Varint.yields_numbers hsize]
    rfl
  case oid o =>
    obtain ⟨arcs⟩ := o
    refine yields_leaf (holds_of_leaf trivial rfl rfl) rfl rfl ?_
    rw [yields_map_iff (a := arcs) (by simp [eq_comm]), Varint.yields_numbers hsize]
    rfl
  case range r =>
    refine yields_leaf (holds_of_leaf trivial rfl rfl) rfl ?_ yields_range
    rw [writing, Writing.bytes_append rfl, Writing.bytes_block, Writing.uint16, Writing.bytes_block]
  case version v =>
    refine yields_leaf (holds_of_leaf trivial rfl rfl) rfl ?_ yields_version
    rw [writing, Writing.bytes_append rfl, Writing.bytes_append rfl, Writing.bytes_append rfl]
    simp [Writing.int32]
  case tagArray tags =>
    rw [yields_map_iff (a := tags) (by simp [eq_comm]),
      yields_counted hi.tag (fun t _ => t.cells_length_pos) hsize, Formed, cells_tagArray]
    refine and_congr_right fun _ => and_congr_left fun _ => ?_
    exact ⟨fun h => ⟨trivial, h, List.forall_mem_nil _⟩, Holds.children⟩
  case tagSequence tags =>
    rw [yields_map_iff (a := tags) (by simp [eq_comm]), yields_framed, Formed, cells_tagSequence]
    have hends : (∀ t ∈ tags, A t) ↔ (tagSequence tags).Holds A S :=
      ⟨fun h => ⟨trivial, h, List.forall_mem_nil _⟩, Holds.children⟩
    have hpos : ∀ c t, Formed A Tag.cells c t → 0 < c.length :=
      fun c t => Formed.length_pos fun t _ => t.cells_length_pos
    rw [← hends, ← parts_formed_iff]
    constructor
    · rintro ⟨-, rfl, h⟩
      exact ⟨rfl, (yields_untilEnd hi.tag hpos).mp h⟩
    · rintro ⟨rfl, h⟩
      exact ⟨Nat.zero_le _, rfl, (yields_untilEnd hi.tag hpos).mpr h⟩
  case dictionary m =>
    rw [yields_map_iff (a := m) (by simp [eq_comm]),
      yields_entries hi.string hi.tag (fun t _ => t.cells_length_pos) hsize, Formed,
      cells_dictionary]
    refine and_congr_right fun _ => and_congr_left fun _ => ?_
    constructor
    · rintro ⟨hm, he⟩
      exact ⟨hm, List.forall_mem_map.mpr fun e h => (he e h).2,
        List.forall_mem_map.mpr fun e h => (he e h).1⟩
    · rintro ⟨hm, hc, hs⟩
      exact ⟨hm, fun e h => ⟨List.forall_mem_map.mp hs e h, List.forall_mem_map.mp hc e h⟩⟩
  case stringDictionary m =>
    have hpos : ∀ s : String, S s → 0 < (exacts (Tag.stringBytes s)).length := fun s _ => by
      rw [length_exacts, Tag.stringBytes_eq, List.length_append]
      have := Header.bytes_length_pos Standard.string.id (Utf8.encode s).length
      omega
    rw [yields_map_iff (a := m) (by simp [eq_comm]),
      yields_entries hi.string hi.string hpos hsize, Formed, cells_stringDictionary]
    refine and_congr_right fun _ => and_congr_left fun _ => ?_
    constructor
    · rintro ⟨hm, he⟩
      refine ⟨hm, List.forall_mem_nil _, fun s hs => ?_⟩
      obtain ⟨e, h, hs⟩ := List.mem_flatMap.mp hs
      simp only [List.mem_cons, List.not_mem_nil, or_false] at hs
      rcases hs with rfl | rfl
      · exact (he e h).1
      · exact (he e h).2
    · rintro ⟨hm, -, hs⟩
      exact ⟨hm, fun e h => ⟨hs _ (List.mem_flatMap.mpr ⟨e, h, by simp⟩),
        hs _ (List.mem_flatMap.mpr ⟨e, h, by simp⟩)⟩⟩

/-- **A slot** is read by its form if its codec reads values so. -/
theorem yields_slot {α : Type} {codec : Codec α} {f : Slot α → Payload}
    (hf : Function.Injective f) {slot : Slot α} (hnone : slot.value = none → ¬(f slot).IsReadable)
    (hsome : ∀ a, slot.value = some a → c.length = size →
      ((codec.read inner (.exact size)).Yields (some size) c a ↔
        Formed (Holds A S) cells c (f slot))) :
    ((codec.readValue inner (.exact size)).bind fun a => done (f ⟨slot.id, some a⟩)).Yields left c
      (f slot) ↔ c.length = size ∧ Formed (Holds A S) cells c (f slot) := by
  rw [yields_map]
  simp only [hf.eq_iff, Codec.yields_readValue]
  constructor
  · rintro ⟨a, ⟨hl, h⟩, ha⟩
    exact ⟨hl, (hsome a (congrArg Slot.value ha) hl).mp h⟩
  · rintro ⟨hl, h⟩
    cases hv : slot.value with
    | none => exact absurd h.1.readable (hnone hv)
    | some a => exact ⟨a, ⟨hl, (hsome a hv hl).mpr h⟩, by rw [← hv]⟩

theorem isReadable_point_iff {v : Versioned Point} : (point v).IsReadable ↔
    Body.point.supports v.version = true ∧ (v.version < 2 → v.inner.y = 0) := by
  obtain ⟨version, x, y⟩ := v
  change (version = 1 ∧ y = 0 ∨ version = 2) ↔
    (version == 1 || version == 2) = true ∧ (version < 2 → y = 0)
  rw [Bool.or_eq_true, beq_iff_eq, beq_iff_eq]
  constructor
  · rintro (⟨rfl, rfl⟩ | rfl)
    · exact ⟨.inl rfl, fun _ => rfl⟩
    · exact ⟨.inr rfl, fun h => absurd h (by decide)⟩
  · rintro ⟨rfl | rfl, hy⟩
    · exact .inl ⟨rfl, hy (by decide)⟩
    · exact .inr rfl

theorem yields_read_of_standard (hi : inner.ReadsBy A S) (hsize : size < 2 ^ 64) {type : Standard}
    (hk : p.kind = .standard type) : (p.kind.read inner (.exact size)).Yields left c p ↔
      c.length = size ∧ Formed (Holds A S) cells c p := by
  rw [hk]
  exact yields_read_standard hi hsize hk

/-- **Payloads are read by their form**, each under its own kind, in exactly the declared size. -/
theorem yields_read (hi : inner.ReadsBy A S) (hsize : size < 2 ^ 64) :
    (p.kind.read inner (.exact size)).Yields left c p ↔
      c.length = size ∧ Formed (Holds A S) cells c p := by
  cases p
  case point v =>
    simp only [kind, Kind.read, bind_eq, pure_eq]
    rw [yields_map_iff (a := v) (by simp [eq_comm]), Body.yields_readVersioned]
    simp only [Point.yields_read, Formed]
    refine and_congr_right fun _ => ?_
    rw [cells, spells_exacts]
    constructor
    · rintro ⟨hs, c₂, rfl, hy, rfl⟩
      exact ⟨holds_of_leaf (isReadable_point_iff.mpr ⟨hs, hy⟩) rfl rfl,
        (List.append_assoc ..).symm⟩
    · rintro ⟨hp, rfl⟩
      obtain ⟨hs, hy⟩ := isReadable_point_iff.mp hp.readable
      exact ⟨hs, _, List.append_assoc .., hy, rfl⟩
  case document v =>
    simp only [kind, Kind.read, bind_eq, pure_eq]
    rw [yields_map_iff (a := v) (by simp [eq_comm]), Body.yields_readVersioned, Formed,
      cells_document, spells_append]
    refine and_congr_right fun _ => ?_
    constructor
    · rintro ⟨hs, c₂, rfl, ht⟩
      obtain ⟨hA, hc⟩ := (hi.tag _ _ _).mp ht
      have hp : (document v).Holds A S :=
        ⟨beq_iff_eq.mp hs, List.forall_mem_singleton.mpr hA, List.forall_mem_nil _⟩
      exact ⟨hp, _, c₂, rfl, spells_exacts.mpr rfl, hc⟩
    · rintro ⟨hp, c₁, c₂, rfl, h₁, hc⟩
      obtain rfl := spells_exacts.mp h₁
      have hA := List.forall_mem_singleton.mp hp.children
      exact ⟨beq_iff_eq.mpr hp.readable, c₂, rfl, (hi.tag _ _ _).mpr ⟨hA, hc⟩⟩
  case coordinates slot =>
    simp only [kind, Kind.read, bind_eq, pure_eq]
    refine yields_slot (fun _ _ => coordinates.inj) (fun hv => ?_) fun a hv hl => ?_
    · simp [IsReadable, hv]
    · obtain ⟨id, _⟩ := slot
      subst hv
      rw [Coordinates.yields_read, formed_iff_eq (b := a.writing.bytes) ?_ rfl]
      · refine ⟨And.right, fun h => ⟨?_, h⟩⟩
        rw [← hl, h, a.fills_writing rfl]
      · exact holds_of_leaf rfl rfl rfl
  case fixed width slot =>
    simp only [kind, Kind.read, bind_eq, pure_eq]
    refine yields_slot (fun _ _ h => (fixed.inj h).2) (fun hv => ?_) fun b hv _ => ?_
    · simp [IsReadable, hv]
    · obtain ⟨id, _⟩ := slot
      subst hv
      change (block width).Yields _ c b ↔ _
      rw [yields_block, Formed]
      change _ ↔ _ ∧ Spells (exacts (Writing.block b).bytes) c
      rw [Writing.bytes_block, spells_exacts]
      constructor
      · rintro ⟨rfl, rfl⟩
        exact ⟨holds_of_leaf rfl rfl rfl, rfl⟩
      · rintro ⟨hp, rfl⟩
        exact ⟨Option.some.inj hp.readable, rfl⟩
  case text slot =>
    simp only [kind, Kind.read, bind_eq, pure_eq]
    refine yields_slot (fun _ _ => text.inj) (fun hv => ?_) fun s hv hl => ?_
    · simp [IsReadable, hv]
    · obtain ⟨id, _⟩ := slot
      subst hv
      change (Reading.text size).Yields _ c s ↔ _
      rw [yields_text, and_iff_right hl, formed_iff_eq (b := Utf8.encode s) ?_ ?_]
      · exact holds_of_leaf rfl rfl rfl
      · exact cells_of_block rfl rfl
  case nested slot =>
    simp only [kind, Kind.read, bind_eq, pure_eq]
    refine yields_slot (fun _ _ => nested.inj) (fun hv => ?_) fun t hv _ => ?_
    · simp [IsReadable, hv]
    · obtain ⟨id, _⟩ := slot
      subst hv
      change inner.tag.Yields _ c t ↔ _
      rw [hi.tag, Formed, Formed, cells]
      refine and_congr_left fun _ => ?_
      exact ⟨fun h => ⟨rfl, List.forall_mem_singleton.mpr h, List.forall_mem_nil _⟩,
        fun h => List.forall_mem_singleton.mp h.children⟩
  all_goals exact yields_read_of_standard hi hsize rfl

end Payload

end TagFormat
