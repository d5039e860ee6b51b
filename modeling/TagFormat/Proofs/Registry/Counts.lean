import TagFormat.Proofs.Registry.Overwriting
import TagFormat.Proofs.Tag.Entries
import TagFormat.Proofs.Tag.Items

/-! # Counts that claim too much

Before the items of a payload stands their number, and a number that the frame cannot hold is refused
before the first of them (`Reading.checked`). The programs that just go on and read the items
(`Reading.unchecked`) read the same from the same bytes, since every item takes a byte
(`Reading.Counts`): a number above that of the bytes left is never borne out by what follows
(`Reading.yields_checked`). So it is with payloads whose own count is not checked, and with tags in
which no count is checked on any level (`Registry.yields_readTagUnchecked`). Where a count is
refused, nothing but the count has been read (`Reading.run_checked_of_lt`). -/

namespace TagFormat

namespace Reading

open Cell

variable {α : Type} {what : String} {size : Nat} {left : Option Nat} {c : Bytes} {a : α}
  {items : Nat → Reading α}

/-! ### The check of a count -/

/-- Reads a number, which has to be one that the frame can hold, and so many items. -/
def checked (what : String) (declared : Declared) (items : Nat → Reading α) : Reading α :=
  framed what 1 declared fun _ => varint.bind fun count =>
    (ensureFits what count.toNat).bind fun _ => items count.toNat

/-- Reads a number and so many items. -/
def unchecked (what : String) (declared : Declared) (items : Nat → Reading α) : Reading α :=
  framed what 1 declared fun _ => varint.bind fun count => items count.toNat

/-- What is read as so many items takes a byte for each of them. -/
def Counts (items : Nat → Reading α) : Prop :=
  ∀ count left c a, (items count).Yields left c a → count ≤ c.length

theorem counts_times {R : Bytes → α → Prop} {item : Reading α} (h : item.Reads R)
    (hR : ∀ c a, R c a → 0 < c.length) : Counts item.times := by
  intro count left c as has
  obtain ⟨rfl, hp⟩ := (yields_times h).mp has
  exact hp.length_le hR

theorem counts_entriesInto {R : Bytes → α → Prop} {K : Bytes → String → Prop} {key : Reading String}
    {item : Reading α} (hk : key.Reads K) (h : item.Reads R) (hR : ∀ c a, R c a → 0 < c.length) :
    Counts fun count => entriesInto what key item count ∅ := by
  intro count left c m hm
  obtain ⟨l, rfl, hp, -⟩ := (yields_entriesInto hk h).mp hm
  refine hp.length_le fun c e he => ?_
  obtain ⟨c₁, c₂, rfl, -, h₂⟩ := he
  have hpos := hR c₂ e.2 h₂
  rw [List.length_append]
  omega

theorem yields_ensureFits_bind {count n : Nat} {p : Reading α} :
    ((ensureFits what count).bind fun _ => p).Yields (some n) c a ↔
      count ≤ n ∧ p.Yields (some n) c a := by
  rw [yields_bind]
  constructor
  · rintro ⟨_, c₂, ⟨⟩, rfl, hfits, hp⟩
    obtain ⟨rfl, hle⟩ := yields_ensureFits.mp hfits
    exact ⟨hle, hp⟩
  · rintro ⟨hle, hp⟩
    exact ⟨[], c, (), rfl, yields_ensureFits.mpr ⟨rfl, hle⟩, hp⟩

/-- **The check refuses nothing that could be read.** -/
theorem yields_checked (h : Counts items) (declared : Declared) :
    (checked what declared items).Yields left c a ↔
      (unchecked what declared items).Yields left c a := by
  cases declared with
  | selfDelimited =>
    have hsize : Declared.selfDelimited.atLeast what 1 =
        .error (.format (.sizeRequired what)) := rfl
    simp only [checked, unchecked, framed, hsize, ofExcept, bind]
  | exact size =>
    simp only [checked, unchecked, yields_framed, yields_bind_varint, Option.map_some,
      yields_ensureFits_bind]
    refine and_congr_right fun _ => and_congr_right fun hsize => ?_
    refine exists_congr fun count => exists_congr fun c₂ => and_congr_right fun hc => ?_
    rw [and_iff_right_iff_imp]
    intro hitems
    have hcount := h _ _ _ _ hitems
    have hlen := congrArg List.length hc
    rw [List.length_append] at hlen
    omega

/-! ### Runs -/

variable {stops : List Nat} {s t : Source} {count : UInt64}

/-- Programs that read the same from the same bytes succeed alike. -/
theorem run_congr {p q : Reading α} (h : ∀ left c a, p.Yields left c a ↔ q.Yields left c a)
    (hs : ∀ stop ∈ stops, s.pos ≤ stop) :
    p.run stops s = (.ok a, t) ↔ q.run stops s = (.ok a, t) := by
  simp only [run_eq_ok_iff hs, h]

theorem run_checked (what : String) (hsize : 1 ≤ size) (items : Nat → Reading α)
    (hcount : varint.run ((s.pos + size) :: stops) s = (.ok count, t)) :
    (checked what (.exact size) items).run stops s = leave what size (s.pos + size)
      (((ensureFits what count.toNat).bind fun _ => items count.toNat).run
        ((s.pos + size) :: stops) t) := by
  rw [checked, run_framed what hsize, run_bind_of_ok hcount]

theorem run_unchecked (what : String) (hsize : 1 ≤ size) (items : Nat → Reading α)
    (hcount : varint.run ((s.pos + size) :: stops) s = (.ok count, t)) :
    (unchecked what (.exact size) items).run stops s =
      leave what size (s.pos + size) ((items count.toNat).run ((s.pos + size) :: stops) t) := by
  rw [unchecked, run_framed what hsize, run_bind_of_ok hcount]

/-- A count that the frame can hold changes nothing. -/
theorem run_checked_of_le (hsize : 1 ≤ size)
    (hcount : varint.run ((s.pos + size) :: stops) s = (.ok count, t))
    (hfits : t.pos + count.toNat ≤ s.pos + size) :
    (checked what (.exact size) items).run stops s =
      (unchecked what (.exact size) items).run stops s := by
  rw [run_checked what hsize items hcount, run_unchecked what hsize items hcount,
    run_bind_of_ok (run_ensureFits hfits)]

/-- **A count that the frame cannot hold** is refused before the first item. -/
theorem run_checked_of_lt (hsize : 1 ≤ size)
    (hcount : varint.run ((s.pos + size) :: stops) s = (.ok count, t))
    (hover : s.pos + size - t.pos < count.toNat) :
    (checked what (.exact size) items).run stops s =
      (.error (.format (.countOverrun what count.toNat (s.pos + size - t.pos))), t) := by
  have hcheck : (ensureFits what count.toNat).run ((s.pos + size) :: stops) t =
      (.error (.format (.countOverrun what count.toNat (s.pos + size - t.pos))), t) := by
    unfold ensureFits
    simp only [run, List.head?_cons, Option.map_some, if_pos hover]
  rw [run_checked what hsize items hcount, run_bind_of_error hcheck]
  rfl

end Reading

open Cell Reading

/-! ### Payloads with a count -/

namespace Standard

/-- The name under which errors report the payloads of a type that start with a count. -/
def countedAs? : Standard → Option String
  | varintArray => some "varint array"
  | oid => some "oid"
  | tagArray => some "tag array"
  | dictionary => some "dictionary"
  | stringDictionary => some "string dictionary"
  | _ => none

/-- Reads the payload of a standard type and does not check a count at its start. -/
def readUnchecked (inner : Inner) (declared : Declared) : Standard → Reading Payload
  | varintArray => do
    return .varintArray (← unchecked "varint array" declared Reading.varint.times)
  | oid => do return .oid ⟨← unchecked "oid" declared Reading.varint.times⟩
  | tagArray => do return .tagArray (← unchecked "tag array" declared inner.tag.times)
  | dictionary => do
    return .dictionary (← unchecked "dictionary" declared fun count =>
      entriesInto "dictionary" inner.string inner.tag count ∅)
  | stringDictionary => do
    return .stringDictionary (← unchecked "string dictionary" declared fun count =>
      entriesInto "string dictionary" inner.string inner.string count ∅)
  | type => type.read inner declared

variable {A : Tag → Prop} {S : String → Prop} {inner : Inner} {type : Standard} {what : String}
  {declared : Declared} {left : Option Nat} {c : Bytes} {p : Payload}

/-- A payload with a count is read as items that take a byte each, with the check or without. -/
theorem exists_checked (hi : inner.ReadsBy A S) (h : type.countedAs? = some what) :
    ∃ (α : Type) (items : Nat → Reading α) (f : α → Payload), Counts items ∧
      (∀ declared, type.read inner declared =
        (checked what declared items).bind fun a => done (f a)) ∧
      ∀ declared, type.readUnchecked inner declared =
        (unchecked what declared items).bind fun a => done (f a) := by
  have hnumbers : Counts Reading.varint.times := by
    refine counts_times (R := fun c n => c = Varint.encode n) (fun _ _ _ => yields_varint) ?_
    rintro _ n rfl
    exact List.length_pos_of_ne_nil (Varint.encode_ne_nil n)
  have htag : ∀ c t, Formed A Tag.cells c t → 0 < c.length :=
    fun _ _ => Formed.length_pos fun t _ => t.cells_length_pos
  have hstring : ∀ c s, Formed S (fun s => exacts (Tag.stringBytes s)) c s → 0 < c.length := by
    refine fun _ _ => Formed.length_pos fun s _ => ?_
    rw [length_exacts]
    exact Tag.stringBytes_length_pos s
  cases type <;> cases h
  case varintArray => exact ⟨_, _, _, hnumbers, fun _ => rfl, fun _ => rfl⟩
  case oid => exact ⟨_, _, _, hnumbers, fun _ => rfl, fun _ => rfl⟩
  case tagArray => exact ⟨_, _, _, counts_times hi.tag htag, fun _ => rfl, fun _ => rfl⟩
  case dictionary =>
    exact ⟨_, _, _, counts_entriesInto hi.string hi.tag htag, fun _ => rfl, fun _ => rfl⟩
  case stringDictionary =>
    exact ⟨_, _, _, counts_entriesInto hi.string hi.string hstring, fun _ => rfl, fun _ => rfl⟩

/-- **A payload is read all the same** if the count at its start is not checked. -/
theorem yields_readUnchecked (hi : inner.ReadsBy A S) :
    (type.readUnchecked inner declared).Yields left c p ↔
      (type.read inner declared).Yields left c p := by
  cases h : type.countedAs? with
  | none => cases type <;> cases h <;> exact Iff.rfl
  | some what =>
    obtain ⟨α, items, f, hcounts, hread, hreadUnchecked⟩ := exists_checked hi h
    rw [hread, hreadUnchecked, yields_map, yields_map]
    exact exists_congr fun a => and_congr_left fun _ => (yields_checked hcounts declared).symm

end Standard

/-- Reads the payload of a kind and does not check a count at its start. -/
def Kind.readUnchecked (inner : Inner) (declared : Declared) : Kind → Reading Payload
  | standard type => type.readUnchecked inner declared
  | kind => kind.read inner declared

theorem Kind.yields_readUnchecked {A : Tag → Prop} {S : String → Prop} {inner : Inner}
    (hi : inner.ReadsBy A S) {kind : Kind} {declared : Declared} {left : Option Nat} {c : Bytes}
    {p : Payload} : (kind.readUnchecked inner declared).Yields left c p ↔
      (kind.read inner declared).Yields left c p := by
  cases kind with
  | standard type => exact Standard.yields_readUnchecked hi
  | _ => exact Iff.rfl

/-! ### Tags in which no count is checked -/

namespace Registry

/-- Reads a tag with `depth` levels left and checks no count in it. -/
def readTagUnchecked (r : Registry) : (depth : Nat) → Reading Tag
  | 0 => r.refuseDepth
  | depth + 1 => do
    let id ← Reading.varint
    let kind ← Reading.ofExcept (r.kindOf id)
    let declared ← Header.readSize id r.settings.maxTagSize
    return .mk id (← kind.readUnchecked ⟨r.readTagUnchecked depth, r.readString depth⟩ declared)

/-- The programs that read tags with `depth` levels left and check no count. -/
def innerUnchecked (r : Registry) (depth : Nat) : Inner where
  tag := r.readTagUnchecked depth
  string := r.readString depth

variable {r : Registry} {left : Option Nat} {c : Bytes} {t : Tag}

/-- What follows an id is read all the same if no count in it is checked: with the same forms one
level further down, it makes no difference which programs read them. -/
theorem yields_readBodyUnchecked {depth : Nat} {id id' : UInt64} {kind : Kind} {p : Payload}
    (hi : (r.innerUnchecked depth).ReadsBy (r.Accepts depth) (r.AcceptsString depth))
    (hk : r.kindOf id' = .ok kind) :
    ((Header.readSize id' r.settings.maxTagSize).bind fun declared =>
      (kind.readUnchecked (r.innerUnchecked depth) declared).bind fun p =>
        done (Tag.mk id' p)).Yields left c (.mk id p) ↔
      (r.readBody (r.inner depth) id' kind).Yields left c (.mk id p) := by
  have hsame : (r.readBody (r.innerUnchecked depth) id' kind).Yields left c (.mk id p) ↔
      (r.readBody (r.inner depth) id' kind).Yields left c (.mk id p) := by
    by_cases hid : id = id'
    · subst hid
      rw [yields_readBody hi hk, yields_readBody (r.readsBy depth) hk]
    · exact ⟨fun h => absurd (id_of_yields_readBody h) hid,
        fun h => absurd (id_of_yields_readBody h) hid⟩
  rw [← hsame]
  simp only [readBody, bind_eq, pure_eq, yields_bind (Header.readSize _ _), yields_map,
    Kind.yields_readUnchecked hi]

/-- **A tag is read all the same** if no count in it is checked on any level. -/
theorem yields_readTagUnchecked : ∀ {depth : Nat} {left : Option Nat} {c : Bytes} {t : Tag},
    (r.readTagUnchecked depth).Yields left c t ↔ (r.readTag depth).Yields left c t
  | 0, _, _, _ => Iff.rfl
  | depth + 1, left, c, .mk id p => by
    have hi : (r.innerUnchecked depth).ReadsBy (r.Accepts depth) (r.AcceptsString depth) :=
      ⟨fun left c t => yields_readTagUnchecked.trans ((r.readsBy depth).tag left c t),
        (r.readsBy depth).string⟩
    change (Reading.varint.bind fun id => (ofExcept (r.kindOf id)).bind fun kind =>
      (Header.readSize id r.settings.maxTagSize).bind fun declared =>
        (kind.readUnchecked (r.innerUnchecked depth) declared).bind fun p =>
          done (Tag.mk id p)).Yields left c (.mk id p) ↔
      (Reading.varint.bind fun id => (ofExcept (r.kindOf id)).bind fun kind =>
        r.readBody (r.inner depth) id kind).Yields left c (.mk id p)
    simp only [yields_bind_varint, yields_ofExcept_bind]
    refine exists_congr fun id' => exists_congr fun c₂ => and_congr_right fun _ =>
      exists_congr fun kind => and_congr_right fun hk => ?_
    exact yields_readBodyUnchecked hi hk

theorem readsByUnchecked (r : Registry) (depth : Nat) :
    (r.innerUnchecked depth).ReadsBy (r.Accepts depth) (r.AcceptsString depth) where
  tag left c t := yields_readTagUnchecked.trans ((r.readsBy depth).tag left c t)
  string := (r.readsBy depth).string

/-! ### The check -/

/-- **The check of a count refuses nothing that could be read.** A payload with a count at its start
is read with the check exactly if it is read without it, to the same result and up to the same
place, whether only this check is left out or all those in the tags inside it as well. Let the count
be read. If it is above the number of the bytes that are left of the declared size, the error tells
both, and nothing but the count has been taken; if it is not, the check changes nothing. -/
theorem read_iff_unchecked {type : Standard} {what : String} (h : type.countedAs? = some what)
    (r : Registry) (depth : Nat) (size : UInt64) {stops : List Nat} {s : Source}
    (hs : ∀ stop ∈ stops, s.pos ≤ stop) :
    (∀ declared p t, (type.read (r.inner depth) declared).run stops s = (.ok p, t) ↔
      (type.readUnchecked (r.inner depth) declared).run stops s = (.ok p, t)) ∧
    (∀ p t, (type.read (r.inner depth) (.exact size.toNat)).run stops s = (.ok p, t) ↔
      (type.readUnchecked (r.innerUnchecked depth) (.exact size.toNat)).run stops s = (.ok p, t)) ∧
    ∀ count t, 1 ≤ size → Reading.varint.run ((s.pos + size.toNat) :: stops) s = (.ok count, t) →
      t = s.advance (Varint.encodedSize count) ∧
      (size.toNat - Varint.encodedSize count < count.toNat →
        (type.read (r.inner depth) (.exact size.toNat)).run stops s =
          (.error (.format (.countOverrun what count.toNat
            (size.toNat - Varint.encodedSize count))), t)) ∧
      (count.toNat ≤ size.toNat - Varint.encodedSize count →
        (type.read (r.inner depth) (.exact size.toNat)).run stops s =
          (type.readUnchecked (r.inner depth) (.exact size.toNat)).run stops s) := by
  refine ⟨fun declared p t => run_congr (fun _ _ _ => ?_) hs, fun p t =>
    run_congr (fun left c p => ?_) hs, fun count t hsize hcount => ?_⟩
  · exact (Standard.yields_readUnchecked (r.readsBy depth)).symm
  · have hread : ∀ {inner : Inner}, inner.ReadsBy (r.Accepts depth) (r.AcceptsString depth) →
        (((Kind.standard type).read inner (.exact size.toNat)).Yields left c p ↔
          p.kind = .standard type ∧ c.length = size.toNat ∧
            Formed (Payload.Holds (r.Accepts depth) (r.AcceptsString depth)) Payload.cells c p) :=
      fun hi => yields_read_iff hi size.toNat_lt
    rw [Standard.yields_readUnchecked (r.readsByUnchecked depth)]
    exact (hread (r.readsBy depth)).trans (hread (r.readsByUnchecked depth)).symm
  · have hframes : ∀ stop ∈ (s.pos + size.toNat) :: stops, s.pos ≤ stop :=
      List.forall_mem_cons.mpr ⟨Nat.le_add_right .., hs⟩
    have hone : 1 ≤ size.toNat := UInt64.le_iff_toNat_le.mp hsize
    have ht := eq_advance_of_run_varint hframes hcount
    have hpos : t.pos = s.pos + Varint.encodedSize count := by rw [ht, Source.advance_pos]
    have hstop : t.pos ≤ s.pos + size.toNat := by
      obtain ⟨n, -, rfl, hn, -⟩ := (run_eq_ok_iff hframes).mp hcount
      exact hn _ List.mem_cons_self
    have hroom : s.pos + size.toNat - t.pos = size.toNat - Varint.encodedSize count := by omega
    obtain ⟨α, items, f, -, hread, hreadUnchecked⟩ :=
      Standard.exists_checked (r.readsBy depth) h
    rw [hread, hreadUnchecked]
    refine ⟨ht, fun hover => ?_, fun hfits => ?_⟩
    · rw [← hroom] at hover ⊢
      exact run_bind_of_error (run_checked_of_lt hone hcount hover)
    · rw [run_bind, run_bind, run_checked_of_le hone hcount]
      omega

/-- An array in an array, and an array that claims nine tags in two bytes. -/
theorem read_iff_unchecked_overrun :
    let r : Registry := {}
    let nested : Source := { rest := [1, 21, 2, 1, 0, 5] }
    let claim : Source := { rest := [9, 1, 1, 5] }
    Standard.countedAs? .tagArray = some "tag array" ∧
    (Standard.tagArray.readUnchecked (r.innerUnchecked 3) (.exact 5)).run [6] nested =
      (.ok (.tagArray [.mk 21 (.tagArray [.mk 0 .null])]), nested.advance 5) ∧
    (Standard.tagArray.read (r.inner 3) (.exact 5)).run [6] nested =
      (.ok (.tagArray [.mk 21 (.tagArray [.mk 0 .null])]), nested.advance 5) ∧
    (Standard.tagArray.read (r.inner 3) (.exact 3)).run [] claim =
      (.error (.format (.countOverrun "tag array" 9 2)), claim.advance 1) := by
  intro r nested claim
  have hname : Standard.countedAs? .tagArray = some "tag array" := rfl
  have hnested : (Standard.tagArray.readUnchecked (r.innerUnchecked 3) (.exact 5)).run [6] nested =
      (.ok (.tagArray [.mk 21 (.tagArray [.mk 0 .null])]), nested.advance 5) := by
    simp only [r, nested]
    cbv
  have hcount : Reading.varint.run [3] claim = (.ok 9, claim.advance 1) := by
    simp only [claim]
    cbv
  have hframe : ∀ stop ∈ [6], nested.pos ≤ stop := by decide
  refine ⟨hname, hnested, ?_, ?_⟩
  · exact ((read_iff_unchecked hname r 3 5 hframe).2.1 _ _).mpr hnested
  · have hcheck := (read_iff_unchecked hname r 3 3 (s := claim) (List.forall_mem_nil _)).2.2 9 _
      (by decide) hcount
    exact hcheck.2.1 (by decide)

end Registry

end TagFormat
