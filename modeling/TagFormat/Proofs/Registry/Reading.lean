import TagFormat.Proofs.Tag.Reading
import TagFormat.Registry.Reading

/-! # Tags are read by their form

With some levels left, a registry reads a tag from exactly the bytes that spell its cells, and it
reads each tag that it *accepts*: kinds are the registry's, sizes are within the limit, nesting is
within the levels, and payloads are as readers make them (`Registry.readsBy`). -/

namespace TagFormat

open Cell Reading

variable {left : Option Nat} {c : Bytes}

/-! ### Headers -/

namespace Header

/-- The bytes of the size in a header, if it is written. -/
def sizeBytes (id : UInt64) (size : Nat) : Bytes :=
  if Id.isImplicit id then [] else Varint.encode (UInt64.ofNat size)

theorem bytes_eq (id : UInt64) (size : Nat) :
    bytes id size = Varint.encode id ++ sizeBytes id size := by
  rw [bytes, writing, sizeBytes]
  split_ifs
  · rw [Writing.bytes_block, List.append_nil]
  · simp [Writing.bytes]

variable {id limit : UInt64} {declared : Declared}

theorem yields_readSize_of_explicit (h : Id.isImplicit id = false) :
    (readSize id limit).Yields left c declared ↔
      ∃ size ≤ limit, c = Varint.encode size ∧ declared = .exact size.toNat := by
  rw [readSize, (Id.sizing_eq_explicit_iff id).mpr h]
  simp only [yields_bind_varint]
  constructor
  · rintro ⟨size, c₂, rfl, h₂⟩
    split_ifs at h₂ with hlt
    · exact h₂.elim
    · obtain ⟨rfl, rfl⟩ := yields_done.mp h₂
      exact ⟨size, UInt64.not_lt.mp hlt, List.append_nil _, rfl⟩
  · rintro ⟨size, hle, rfl, rfl⟩
    refine ⟨size, [], (List.append_nil _).symm, ?_⟩
    rw [if_neg (UInt64.not_lt.mpr hle)]
    exact ⟨rfl, rfl⟩

theorem yields_readSize_of_fixed {n : Nat} (h : Id.sizing id = .fixed n) :
    (readSize id limit).Yields left c declared ↔ c = [] ∧ declared = .exact n := by
  rw [readSize, h]
  exact yields_done

theorem yields_readSize_of_selfDelimited (h : Id.sizing id = .selfDelimited) :
    (readSize id limit).Yields left c declared ↔ c = [] ∧ declared = .selfDelimited := by
  rw [readSize, h]
  exact yields_done

end Header

/-! ### Ids that imply a size -/

theorem Id.isImplicit_of_sizing_ne {id : UInt64} (h : sizing id ≠ .explicit) :
    isImplicit id = true := by
  rw [← Bool.not_eq_false, ← sizing_eq_explicit_iff]
  exact h

theorem Standard.id_of_ofId? {id : UInt64} {type : Standard} (h : ofId? id = some type) :
    type.id = id := by
  have := List.find?_some h
  exact beq_iff_eq.mp this

theorem Id.isReserved_of_isImplicit {id : UInt64} (h : isImplicit id = true) :
    isReserved id = true := by
  rw [isImplicit, decide_eq_true_iff] at h
  rw [isReserved, decide_eq_true_iff]
  exact UInt64.lt_trans h (by decide)

/-- An id that implies the size of its payload is that of a standard type. -/
theorem Registry.exists_standard {r : Registry} {id : UInt64} {kind : Kind}
    (h : r.kindOf id = .ok kind) (hi : Id.isImplicit id = true) :
    ∃ type : Standard, type.id = id ∧ kind = .standard type := by
  rw [kindOf_eq] at h
  cases ho : Standard.ofId? id with
  | some type =>
    rw [ho] at h
    exact ⟨type, Standard.id_of_ofId? ho, (Except.ok.inj h).symm⟩
  | none =>
    rw [ho, if_pos (Id.isReserved_of_isImplicit hi)] at h
    cases h

/-- A payload of a type of one size has that many cells. -/
theorem Payload.length_cells_of_fixed {p : Payload} {type : Standard} (hk : p.kind = .standard type)
    {n : Nat} (h : Id.sizing type.id = .fixed n) : p.cells.length = n := by
  cases p <;> cases hk <;> cases h
  case null | bool => rfl
  all_goals exact (length_exacts _).trans (fills_writing _ (List.forall_mem_nil _) rfl)

/-- What comes of one item that has one form is read by this form. -/
theorem Payload.yields_of_form {A : Tag → Prop} {S : String → Prop} {α : Type} {kind : Kind}
    {item : Reading α} {f : α → Payload} {form : α → Bytes} {p : Payload}
    (hitem : ∀ a, item.Yields left c a ↔ c = form a) (hkind : p.kind = kind ↔ ∃ a, p = f a)
    (hform : ∀ a, Formed (Holds A S) cells c (f a) ↔ c = form a) :
    (item.bind fun a => done (f a)).Yields left c p ↔
      p.kind = kind ∧ Formed (Holds A S) cells c p := by
  rw [yields_map, hkind]
  constructor
  · rintro ⟨a, h, rfl⟩
    exact ⟨⟨a, rfl⟩, (hform a).mpr ((hitem a).mp h)⟩
  · rintro ⟨⟨a, rfl⟩, h⟩
    exact ⟨a, (hitem a).mpr ((hform a).mp h), rfl⟩

/-- Numbers that find their own end are read by their form. -/
theorem Standard.yields_read_of_selfDelimited {A : Tag → Prop} {S : String → Prop} {inner : Inner}
    {type : Standard} (h : Id.sizing type.id = .selfDelimited) {p : Payload} :
    (type.read inner .selfDelimited).Yields left c p ↔
      p.kind = .standard type ∧ Formed (Payload.Holds A S) Payload.cells c p := by
  cases type <;> cases h
  case varint =>
    refine Payload.yields_of_form (fun n => yields_varint) ?_ fun n => ?_
    · cases p <;> simp [Payload.kind]
    · exact Payload.formed_iff_eq (Payload.holds_of_leaf trivial rfl rfl)
        (Payload.cells_of_block rfl rfl)
  case signedVarint =>
    refine Payload.yields_of_form (fun n => yields_signedVarint) ?_ fun n => ?_
    · cases p <;> simp [Payload.kind]
    · exact Payload.formed_iff_eq (Payload.holds_of_leaf trivial rfl rfl)
        (Payload.cells_of_block rfl rfl)

/-! ### What a registry accepts -/

namespace Registry

variable (r : Registry)

/-- The kind of the tag is the one that belongs to its id, and its size, if it is written, is within
the limit. -/
structure Allows (t : Tag) : Prop where
  kind : r.kindOf t.id = .ok t.payload.kind
  size : Id.isImplicit t.id = false → t.payload.cells.length ≤ r.settings.maxTagSize.toNat

/-- Text is accepted where a level is left, up to the greatest size. -/
def AcceptsString (depth : Nat) (s : String) : Prop :=
  0 < depth ∧ (Utf8.encode s).length ≤ r.settings.maxTagSize.toNat

/-- A tag is accepted if it is allowed, its payload is such as readers make, and what is inside it
is accepted with one level less. -/
def Accepts : (depth : Nat) → Tag → Prop
  | 0, _ => False
  | depth + 1, t => r.Allows t ∧ t.payload.Holds (Accepts depth) (r.AcceptsString depth)

variable {r} {A : Tag → Prop} {S : String → Prop} {inner : Inner} {id : UInt64} {kind : Kind}
  {p : Payload}

theorem yields_read_iff (hi : inner.ReadsBy A S) {size : Nat} (hsize : size < 2 ^ 64) :
    (kind.read inner (.exact size)).Yields left c p ↔
      p.kind = kind ∧ c.length = size ∧ Formed (Payload.Holds A S) Payload.cells c p := by
  constructor
  · intro h
    obtain rfl := Kind.kind_of_yields h
    exact ⟨rfl, (Payload.yields_read hi hsize).mp h⟩
  · rintro ⟨rfl, h⟩
    exact (Payload.yields_read hi hsize).mpr h

/-- What follows an id that implies the size of its payload. -/
theorem yields_readBody_of_implicit (hi : inner.ReadsBy A S) (hk : r.kindOf id = .ok kind)
    (h : Id.isImplicit id = true) : (r.readBody inner id kind).Yields left c (.mk id p) ↔
      p.kind = kind ∧ Formed (Payload.Holds A S) Payload.cells c p := by
  obtain ⟨type, rfl, rfl⟩ := exists_standard hk h
  have hp : ∀ declared left c, ((Kind.read inner declared (.standard type)).bind fun p =>
      done (Tag.mk type.id p)).Yields left c (.mk type.id p) ↔
        (Kind.read inner declared (.standard type)).Yields left c p := fun _ _ _ =>
    yields_map_of_injective fun _ _ h => (Tag.mk.inj h).2
  rw [readBody]
  simp only [bind_eq, pure_eq, yields_bind (Header.readSize _ _), hp]
  cases hs : Id.sizing type.id with
  | explicit =>
    rw [Id.sizing_eq_explicit_iff, h] at hs
    cases hs
  | unassigned => cases type <;> cases hs
  | fixed n =>
    have hn : n < 2 ^ 64 := by
      cases type <;> cases hs <;> decide
    simp only [Header.yields_readSize_of_fixed hs]
    constructor
    · rintro ⟨_, _, _, rfl, ⟨rfl, rfl⟩, hr⟩
      obtain ⟨hk, -, hf⟩ := (yields_read_iff hi hn).mp hr
      exact ⟨hk, hf⟩
    · rintro ⟨hk, hf⟩
      refine ⟨[], c, _, rfl, ⟨rfl, rfl⟩, (yields_read_iff hi hn).mpr ⟨hk, ?_, hf⟩⟩
      rw [← hf.2.length_eq, Payload.length_cells_of_fixed hk hs]
  | selfDelimited =>
    simp only [Header.yields_readSize_of_selfDelimited hs]
    constructor
    · rintro ⟨_, _, _, rfl, ⟨rfl, rfl⟩, hr⟩
      exact (Standard.yields_read_of_selfDelimited hs).mp hr
    · intro h
      exact ⟨[], c, _, rfl, ⟨rfl, rfl⟩, (Standard.yields_read_of_selfDelimited hs).mpr h⟩

/-- What follows an id under which the size is written. -/
theorem yields_readBody_of_explicit (hi : inner.ReadsBy A S) (h : Id.isImplicit id = false) :
    (r.readBody inner id kind).Yields left c (.mk id p) ↔ p.kind = kind ∧
      p.cells.length ≤ r.settings.maxTagSize.toNat ∧ p.Holds A S ∧
        ∃ c₂, c = Varint.encode (UInt64.ofNat p.cells.length) ++ c₂ ∧ Spells p.cells c₂ := by
  have hp : ∀ declared left c, ((kind.read inner declared).bind fun p =>
      done (Tag.mk id p)).Yields left c (.mk id p) ↔ (kind.read inner declared).Yields left c p :=
    fun _ _ _ => yields_map_of_injective fun _ _ h => (Tag.mk.inj h).2
  rw [readBody]
  simp only [bind_eq, pure_eq, yields_bind (Header.readSize _ _), hp,
    Header.yields_readSize_of_explicit h]
  constructor
  · rintro ⟨_, c₂, _, rfl, ⟨size, hle, rfl, rfl⟩, hr⟩
    obtain ⟨hk, hl, hf⟩ := (yields_read_iff hi size.toNat_lt).mp hr
    rw [← hf.2.length_eq] at hl
    rw [hl]
    exact ⟨hk, UInt64.le_iff_toNat_le.mp hle, hf.1, c₂, by rw [UInt64.ofNat_toNat], hf.2⟩
  · rintro ⟨hk, hle, hh, c₂, rfl, hs⟩
    have hlt : p.cells.length < 2 ^ 64 := lt_of_le_of_lt hle r.settings.maxTagSize.toNat_lt
    have hn : (UInt64.ofNat p.cells.length).toNat = p.cells.length := UInt64.toNat_ofNat_of_lt' hlt
    refine ⟨_, c₂, _, rfl, ⟨UInt64.ofNat p.cells.length, ?_, rfl, rfl⟩, ?_⟩
    · rwa [UInt64.le_iff_toNat_le, hn]
    · rw [hn]
      exact (yields_read_iff hi hlt).mpr ⟨hk, hs.length_eq.symm, hh, hs⟩

theorem id_of_yields_readBody {t : Tag} (h : (r.readBody inner id kind).Yields left c t) :
    t.id = id := by
  rw [readBody] at h
  simp only [bind_eq, pure_eq, yields_bind (Header.readSize _ _)] at h
  obtain ⟨_, _, declared, -, -, h⟩ := h
  obtain ⟨p, -, rfl⟩ := yields_map.mp h
  exact Tag.id_mk id p

/-! ### Tags and text -/

theorem yields_expectId {expected : UInt64} :
    (expectId expected).Yields left c () ↔ c = Varint.encode expected := by
  simp only [expectId, bind_eq, pure_eq, yields_bind_varint]
  constructor
  · rintro ⟨id, c₂, rfl, h⟩
    split_ifs at h with he
    · obtain ⟨rfl, -⟩ := yields_done.mp h
      rw [he, List.append_nil]
    · exact h.elim
  · rintro rfl
    refine ⟨expected, [], (List.append_nil _).symm, ?_⟩
    rw [if_pos rfl]
    exact ⟨rfl, rfl⟩

/-- **Text** in a tag of its own has one form. -/
theorem yields_readString {depth : Nat} {s : String} :
    (r.readString (depth + 1)).Yields left c s ↔
      (Utf8.encode s).length ≤ r.settings.maxTagSize.toNat ∧ c = Tag.stringBytes s := by
  have hs : Tag.stringBytes s = Varint.encode Standard.string.id ++
      (Varint.encode (UInt64.ofNat (Utf8.encode s).length) ++ Utf8.encode s) := by
    rw [Tag.stringBytes_eq, Header.bytes_eq, List.append_assoc]
    rfl
  have hi : Id.isImplicit Standard.string.id = false := rfl
  rw [readString, hs]
  simp only [bind_eq, yields_bind (expectId _), yields_bind (Header.readSize _ _),
    Header.yields_readSize_of_explicit hi]
  constructor
  · rintro ⟨_, _, _, rfl, h₁, _, c₂, _, rfl, ⟨size, hle, rfl, rfl⟩, h₂⟩
    obtain ⟨hl, rfl⟩ := yields_text.mp h₂
    rw [yields_expectId.mp h₁, hl, UInt64.ofNat_toNat]
    exact ⟨UInt64.le_iff_toNat_le.mp hle, rfl⟩
  · rintro ⟨hle, rfl⟩
    have hn : (UInt64.ofNat (Utf8.encode s).length).toNat = (Utf8.encode s).length :=
      UInt64.toNat_ofNat_of_lt' (lt_of_le_of_lt hle r.settings.maxTagSize.toNat_lt)
    have hlimit : UInt64.ofNat (Utf8.encode s).length ≤ r.settings.maxTagSize := by
      rwa [UInt64.le_iff_toNat_le, hn]
    refine ⟨_, _, (), rfl, yields_expectId.mpr rfl, _, _, _, rfl, ⟨_, hlimit, rfl, rfl⟩, ?_⟩
    · rw [hn]
      exact yields_text.mpr ⟨rfl, rfl⟩

/-- What follows the id of a tag that may stand there. -/
theorem yields_readBody (hi : inner.ReadsBy A S) (hk : r.kindOf id = .ok kind) :
    (r.readBody inner id kind).Yields left c (.mk id p) ↔ r.Allows (.mk id p) ∧ p.Holds A S ∧
      ∃ c₂, c = Header.sizeBytes id p.cells.length ++ c₂ ∧ Spells p.cells c₂ := by
  have hkind : r.kindOf id = .ok p.kind ↔ p.kind = kind := by
    rw [hk, Except.ok.injEq, eq_comm]
  cases h : Id.isImplicit id with
  | true =>
    have hb : Header.sizeBytes id p.cells.length = [] := if_pos h
    rw [yields_readBody_of_implicit hi hk h, hb]
    constructor
    · rintro ⟨hp, hh, hs⟩
      exact ⟨⟨hkind.mpr hp, fun hn => absurd hn (by rw [Tag.id_mk, h]; decide)⟩, hh, c, rfl, hs⟩
    · rintro ⟨ha, hh, c₂, rfl, hs⟩
      exact ⟨hkind.mp ha.kind, hh, hs⟩
  | false =>
    have hb : Header.sizeBytes id p.cells.length = Varint.encode (UInt64.ofNat p.cells.length) := by
      rw [Header.sizeBytes, h]
      rfl
    rw [yields_readBody_of_explicit hi h, hb]
    constructor
    · rintro ⟨hp, hle, hh, hs⟩
      exact ⟨⟨hkind.mpr hp, fun _ => hle⟩, hh, hs⟩
    · rintro ⟨ha, hh, hs⟩
      exact ⟨hkind.mp ha.kind, ha.size h, hh, hs⟩

/-- **A tag is read by its form** if the level below is. -/
theorem yields_readTag {depth : Nat} (hi : (r.inner depth).ReadsBy A S) {t : Tag} :
    (r.readTag (depth + 1)).Yields left c t ↔
      (r.Allows t ∧ t.payload.Holds A S) ∧ Spells t.cells c := by
  obtain ⟨id, p⟩ := t
  change (Reading.varint.bind fun id => (ofExcept (r.kindOf id)).bind fun kind =>
    r.readBody (r.inner depth) id kind).Yields left c (.mk id p) ↔ _
  simp only [yields_bind_varint, yields_ofExcept_bind]
  rw [Tag.cells_mk, spells_append, Header.bytes_eq]
  simp only [spells_exacts]
  constructor
  · rintro ⟨id', c₂, rfl, kind, hk, h⟩
    obtain rfl := id_of_yields_readBody h
    obtain ⟨ha, hh, c₃, rfl, hs⟩ := (yields_readBody hi hk).mp h
    exact ⟨⟨ha, hh⟩, _, c₃, (List.append_assoc ..).symm, rfl, hs⟩
  · rintro ⟨⟨ha, hh⟩, _, c₂, rfl, rfl, hs⟩
    refine ⟨id, _, List.append_assoc .., _, ha.kind, ?_⟩
    exact (yields_readBody hi ha.kind).mpr ⟨ha, hh, c₂, rfl, hs⟩

/-- **Tags are read by their form**, with any number of levels left: from the bytes that spell the
tag, and exactly those that are accepted. -/
theorem readsBy (r : Registry) : ∀ depth,
    (r.inner depth).ReadsBy (r.Accepts depth) (r.AcceptsString depth)
  | 0 => {
    tag := fun _ _ _ => ⟨False.elim, fun h => h.1.elim⟩
    string := fun _ _ _ => ⟨False.elim, fun h => absurd h.1.1 (Nat.lt_irrefl 0)⟩ }
  | depth + 1 => {
    tag := fun left c t => yields_readTag (r.readsBy depth)
    string := fun left c s => by
      change (r.readString (depth + 1)).Yields left c s ↔ _
      rw [yields_readString, Formed, spells_exacts, AcceptsString,
        and_iff_right (Nat.succ_pos depth)] }

end Registry

end TagFormat
