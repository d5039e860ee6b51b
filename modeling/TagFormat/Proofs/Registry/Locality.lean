import TagFormat.Proofs.Input.Items
import TagFormat.Proofs.Input.Local
import TagFormat.Registry.Reading

/-! # Where the bytes of a tag end

The programs that read tags are candid, whatever the registry. So what is read from some bytes is
read from them whatever follows, the end of the bytes is reported only when all of them have been
read, and a tag is cut short exactly by leaving some of its last bytes away. -/

namespace TagFormat

-- the length is never to be computed while the header is not known
attribute [local irreducible] Varint.bodyLength

/-! ### Checks -/

theorem Varint.decodeBody_not_isEnd {body : Bytes} {error : TagError}
    (h : decodeBody body = .error error) : ¬error.IsEnd := by
  rintro ⟨expected, got, rfl⟩
  simp only [decodeBody] at h
  split_ifs at h <;> cases h

namespace Declared

variable {what : String} {declared : Declared} {error : TagError}

theorem bytes_not_isEnd (h : declared.bytes what = .error error) : ¬error.IsEnd := by
  cases declared with
  | exact size => cases h
  | selfDelimited =>
    cases h
    simp [TagError.IsEnd]

theorem require_not_isEnd {expected : Nat} (h : declared.require what expected = .error error) :
    ¬error.IsEnd := by
  cases declared with
  | exact size =>
    change (if size = expected then _ else _) = _ at h
    split_ifs at h
    cases h
    simp [TagError.IsEnd]
  | selfDelimited =>
    cases h
    simp [TagError.IsEnd]

theorem atLeast_not_isEnd {minimum : Nat} (h : declared.atLeast what minimum = .error error) :
    ¬error.IsEnd := by
  cases declared with
  | exact size =>
    change (if size < minimum then _ else _) = _ at h
    split_ifs at h
    cases h
    simp [TagError.IsEnd]
  | selfDelimited =>
    cases h
    simp [TagError.IsEnd]

end Declared

theorem Registry.kindOf_not_isEnd {r : Registry} {id : UInt64} {error : TagError}
    (h : r.kindOf id = .error error) : ¬error.IsEnd := by
  rintro ⟨expected, got, rfl⟩
  rw [kindOf_eq] at h
  split at h
  · cases h
  · split_ifs at h
    · cases h
    · split at h <;> cases h

namespace Reading

variable {α : Type}

/-! ### Items -/

theorem candid_varintRest (header : UInt8) : ∀ length, (varintRest header length).Candid
  | 0 => trivial
  | _ + 1 => fun _ => candid_ofExcept fun _ => Varint.decodeBody_not_isEnd

theorem candid_byte : byte.Candid :=
  fun _ => trivial

theorem candid_block (n : Nat) : (block n).Candid :=
  fun _ => trivial

theorem candid_varint : varint.Candid := by
  rw [varint_eq]
  exact Candid.bind candid_byte fun header => candid_varintRest header (Varint.bodyLength header)

theorem candid_text (length : Nat) : (text length).Candid := by
  unfold text
  refine (candid_block length).bind fun bytes => ?_
  split
  · trivial
  · simp [Candid, TagError.IsEnd]

theorem candid_ensureFits (what : String) (count : Nat) : (ensureFits what count).Candid := by
  rintro (_ | left)
  · trivial
  · change Candid (if left < count then fail (.format (.countOverrun what count left)) else done ())
    split_ifs
    · simp [Candid, TagError.IsEnd]
    · trivial

variable {p : Reading α}

theorem Candid.exactly {what : String} {size : Nat} (h : p.Candid) :
    (exactly what size p).Candid :=
  ⟨h, fun _ => trivial⟩

theorem Candid.timesFrom (h : p.Candid) : ∀ (count : Nat) (read : List α),
    (p.timesFrom count read).Candid
  | 0, _ => trivial
  | count + 1, read => h.bind fun a => h.timesFrom count (a :: read)

theorem Candid.untilEndFrom (h : p.Candid) : ∀ (most : Nat) (read : List α),
    (p.untilEndFrom most read).Candid
  | 0, _ => trivial
  | most + 1, read => by
    have hmore : (p.bind fun a => p.untilEndFrom most (a :: read)).Candid :=
      h.bind fun a => h.untilEndFrom most (a :: read)
    rintro (_ | _ | left)
    · exact hmore
    · trivial
    · exact hmore

theorem Candid.ofSize {what : String} {size : Nat} {declared : Declared} (h : p.Candid) :
    (ofSize what size declared p).Candid :=
  (candid_ofExcept fun _ => Declared.require_not_isEnd).bind fun _ => h

theorem Candid.framed {what : String} {minimum : Nat} {declared : Declared}
    {body : Nat → Reading α} (h : ∀ size, (body size).Candid) :
    (framed what minimum declared body).Candid :=
  (candid_ofExcept fun _ => Declared.atLeast_not_isEnd).bind fun size => (h size).exactly

theorem Candid.delimited {what : String} {declared : Declared} (h : p.Candid) :
    (delimited what declared p).Candid := by
  cases declared with
  | exact size => exact h.exactly
  | selfDelimited => exact h

theorem Candid.counted {what : String} {declared : Declared} (h : p.Candid) :
    (counted what declared p).Candid := by
  rw [Reading.counted]
  simp only [bind_eq]
  exact framed fun _ => candid_varint.bind fun count =>
    (candid_ensureFits ..).bind fun _ => h.timesFrom ..

theorem Candid.entriesInto {what : String} {key : Reading String} (hk : key.Candid)
    (hv : p.Candid) : ∀ (count : Nat) (m : InsertionMap String α),
    (entriesInto what key p count m).Candid
  | 0, _ => trivial
  | count + 1, m => hk.bind fun k => hv.bind fun v => by
    split_ifs
    · simp [Candid, TagError.IsEnd]
    · exact hk.entriesInto hv count _

theorem Candid.entries {what : String} {declared : Declared} {key : Reading String}
    (hk : key.Candid) (hv : p.Candid) : (entries what declared key p).Candid := by
  rw [Reading.entries]
  simp only [bind_eq]
  exact framed fun _ => candid_varint.bind fun count =>
    (candid_ensureFits ..).bind fun _ => hk.entriesInto hv ..

end Reading

/-! ### Payloads and tags -/

/-- The programs for the level below are candid. -/
structure Inner.Candid (inner : Inner) : Prop where
  tag : inner.tag.Candid
  string : inner.string.Candid

open Reading

variable {α : Type}

theorem Reading.candid_pure (a : α) : (done a).Candid :=
  trivial

theorem Reading.candid_number (width : Nat) : (number width).Candid :=
  fun _ => trivial

theorem Reading.candid_uint16 : uint16.Candid :=
  fun _ => trivial

theorem Reading.candid_uint32 : uint32.Candid :=
  fun _ => trivial

theorem Reading.candid_uint64 : uint64.Candid :=
  fun _ => trivial

theorem Reading.candid_int32 : int32.Candid :=
  fun _ => trivial

theorem Reading.Candid.map {β : Type} {p : Reading α} (h : p.Candid) (f : α → β) :
    (p.bind fun a => done (f a)).Candid :=
  h.bind fun _ => trivial

theorem Standard.candid_read {inner : Inner} (hi : inner.Candid) (declared : Declared)
    (type : Standard) : (type.read inner declared).Candid := by
  cases type <;> simp only [read, bind_eq, pure_eq]
  case null => exact (candid_pure _).ofSize
  case bool | uint8 | int8 => exact candid_byte.ofSize.map _
  case uint16 | int16 => exact candid_uint16.ofSize.map _
  case uint32 | float32 => exact candid_uint32.ofSize.map _
  case int32 => exact candid_int32.ofSize.map _
  case uint64 | int64 | float64 => exact candid_uint64.ofSize.map _
  case float128 => exact (candid_number 16).ofSize.map _
  case varint => exact candid_varint.delimited.map _
  case signedVarint => exact (candid_varint.map _).delimited.map _
  case bytes =>
    exact (candid_ofExcept fun _ => Declared.bytes_not_isEnd).bind fun n => (candid_block n).map _
  case string =>
    exact (candid_ofExcept fun _ => Declared.bytes_not_isEnd).bind fun n => (candid_text n).map _
  case bigInt =>
    exact (candid_ofExcept fun _ => Declared.atLeast_not_isEnd).bind fun n => (candid_block n).map _
  case bigDecimal =>
    exact Candid.framed fun size => (candid_block _).bind fun _ => candid_int32.map _
  case varintArray | oid => exact candid_varint.counted.map _
  case tagArray => exact hi.tag.counted.map _
  case tagSequence => exact (Candid.framed fun size => hi.tag.untilEndFrom size []).map _
  case range => exact Candid.framed fun _ => candid_varint.bind fun _ => candid_uint16.map _
  case version =>
    exact (candid_int32.bind fun _ => candid_int32.bind fun _ => candid_int32.bind fun _ =>
      candid_int32.map _).ofSize
  case dictionary => exact (hi.string.entries hi.tag).map _
  case stringDictionary => exact (hi.string.entries hi.string).map _

theorem Body.candid_readVersioned {inner : Inner} (b : Body α)
    (hb : ∀ version, (b.read version inner).Candid) (declared : Declared) :
    (b.readVersioned inner declared).Candid := by
  simp only [readVersioned_eq, bind_eq, pure_eq]
  refine (candid_ofExcept fun _ => Declared.atLeast_not_isEnd).bind fun size =>
    Candid.exactly (candid_uint16.bind fun version => ?_)
  split_ifs
  · exact (hb version).map _
  · simp [Candid, TagError.IsEnd]

theorem Codec.candid_readValue {inner : Inner} (c : Codec α)
    (hc : ∀ declared, (c.read inner declared).Candid) (declared : Declared) :
    (c.readValue inner declared).Candid := by
  simp only [readValue, bind_eq]
  exact (candid_ofExcept fun _ => Declared.bytes_not_isEnd).bind fun size => (hc _).exactly

theorem Kind.candid_read {inner : Inner} (hi : inner.Candid) (declared : Declared) (kind : Kind) :
    (kind.read inner declared).Candid := by
  cases kind <;> simp only [read, bind_eq, pure_eq]
  case standard type => exact type.candid_read hi declared
  case point =>
    refine (Body.candid_readVersioned Body.point (fun version => ?_) declared).map _
    change (varint.bind fun x => if version < 2 then done (Point.mk x 0) else
      varint.bind fun y => done (Point.mk x y)).Candid
    refine candid_varint.bind fun x => ?_
    split_ifs
    · trivial
    · exact candid_varint.map _
  case document => exact (Body.candid_readVersioned .document (fun _ => hi.tag) declared).map _
  case coordinates id =>
    refine (Codec.candid_readValue Codec.coordinates (fun declared => ?_) declared).map _
    exact (candid_ofExcept fun _ => Declared.require_not_isEnd).bind fun _ =>
      candid_int32.bind fun _ => candid_int32.map _
  case fixed width id =>
    exact (Codec.candid_readValue _ (fun _ => candid_block width) declared).map _
  case text id =>
    refine (Codec.candid_readValue Codec.text (fun declared => ?_) declared).map _
    exact (candid_ofExcept fun _ => Declared.bytes_not_isEnd).bind fun n => candid_text n
  case nested id => exact (Codec.candid_readValue _ (fun _ => hi.tag) declared).map _

theorem Header.candid_readSize (id limit : UInt64) : (readSize id limit).Candid := by
  rw [readSize]
  split
  · trivial
  · trivial
  · simp [Candid, TagError.IsEnd]
  · refine candid_varint.bind fun size => ?_
    split_ifs
    · simp [Candid, TagError.IsEnd]
    · trivial

namespace Registry

variable (r : Registry)

theorem candid_refuseDepth : (r.refuseDepth : Reading α).Candid := by
  simp [refuseDepth, Candid, TagError.IsEnd]

theorem candid_readString : ∀ depth, (r.readString depth).Candid
  | 0 => r.candid_refuseDepth
  | depth + 1 => by
    simp only [readString, expectId, bind_eq, pure_eq]
    refine Candid.bind (candid_varint.bind fun id => ?_) fun _ =>
      (Header.candid_readSize _ _).bind fun declared =>
        (candid_ofExcept fun _ => Declared.bytes_not_isEnd).bind fun n => candid_text n
    split_ifs
    · trivial
    · simp [Candid, TagError.IsEnd]

theorem candid_readTag : ∀ depth, (r.readTag depth).Candid
  | 0 => r.candid_refuseDepth
  | depth + 1 => by
    simp only [readTag, readBody, bind_eq, pure_eq]
    exact candid_varint.bind fun id => (candid_ofExcept fun _ => kindOf_not_isEnd).bind fun kind =>
      (Header.candid_readSize _ _).bind fun declared =>
        (kind.candid_read ⟨candid_readTag depth, r.candid_readString depth⟩ declared).map _

/-! ### Bytes that are cut off or followed by others -/

variable {r}

theorem parseWith_of_ok {p : Reading α} {bytes : Bytes} {a : α} {n : Nat}
    (h : p.run [] (.ofBytes bytes) = (.ok a, (Source.ofBytes bytes).advance n)) :
    parseWith p bytes = if bytes.length ≤ n then .ok a
      else .error (.format (.trailingBytes "tag buffer" (bytes.length - n))) := by
  have hlen : ((Source.ofBytes bytes).advance n).rest.length = bytes.length - n :=
    List.length_drop
  have hiff : ((Source.ofBytes bytes).advance n).rest.isEmpty = true ↔ bytes.length ≤ n :=
    List.isEmpty_iff.trans List.drop_eq_nil_iff
  rw [parseWith, h]
  simp only [hlen, hiff]

theorem parseWith_of_error {p : Reading α} {bytes : Bytes} {error : TagError} {t : Source}
    (h : p.run [] (.ofBytes bytes) = (.error error, t)) : parseWith p bytes = .error error := by
  rw [parseWith, h]

/-- Parsing succeeds when a run does that uses up the bytes. -/
theorem parseWith_eq_ok_iff {p : Reading α} {bytes : Bytes} {a : α} :
    parseWith p bytes = .ok a ↔
      p.run [] (.ofBytes bytes) = (.ok a, (Source.ofBytes bytes).advance bytes.length) := by
  constructor
  · intro h
    rcases hr : p.run [] (.ofBytes bytes) with ⟨error | b, t⟩
    · rw [parseWith_of_error hr] at h
      cases h
    · obtain ⟨n, hn, rfl, -⟩ := (run_eq_ok_iff (List.forall_mem_nil _)).mp hr
      rw [parseWith_of_ok hr] at h
      split_ifs at h with hle
      cases h
      rw [le_antisymm hle hn]
  · intro h
    rw [parseWith_of_ok h, if_pos le_rfl]

/-- Parsing is reading from all of the bytes. -/
theorem parseWith_eq_ok_iff_yields {p : Reading α} {bytes : Bytes} {a : α} :
    parseWith p bytes = .ok a ↔ p.Yields none bytes a :=
  parseWith_eq_ok_iff.trans (run_eq_ok_advance_iff (List.append_nil bytes).symm)

/-- **Where a tag ends.** Reading a tag looks no further than it reads: what comes out is the same,
after the same number of bytes, whatever follows, unless the bytes ended. That they ended is
reported only when all of them have been read. So bytes that spell a tag spell none when some of the
last are left away, and too many when others follow. -/
theorem read_append (r : Registry) (pace : Pace) (b s : Bytes) :
    (∀ o t, r.read.run [] { rest := b, pace } = (o, t) →
      (∀ expected got, o ≠ .error (.unexpectedEnd expected got)) →
      r.read.run [] { rest := b ++ s, pace } = (o, { t with rest := t.rest ++ s })) ∧
    (∀ expected got t,
      r.read.run [] { rest := b, pace } = (.error (.unexpectedEnd expected got), t) →
      t.rest = [] ∧ t.pos = b.length) ∧
    (∀ t, r.parse b = .ok t →
      (∀ c d, b = c ++ d → d ≠ [] →
        ∃ expected got, r.parse c = .error (.unexpectedEnd expected got)) ∧
      (s ≠ [] → r.parse (b ++ s) = .error (.format (.trailingBytes "tag buffer" s.length)))) := by
  have hc : r.read.Candid := candid_readTag r r.levels
  refine ⟨fun o t h ho => ?_, fun expected got t h => ?_,
    fun t h => ⟨fun c d hb hd => ?_, fun hs => ?_⟩⟩
  · obtain ⟨n, hn⟩ := settles_of_not_isEnd hc rfl h (by
      rintro _ rfl ⟨expected, got, rfl⟩
      exact ho expected got rfl)
    obtain ⟨-, rfl⟩ := Prod.mk.inj (h.symm.trans hn.run_self)
    exact (hn.run s).trans (by rw [Source.extend_advance hn.le]; rfl)
  · have := eq_advance_of_isEnd hc rfl ⟨expected, got, rfl⟩ h
    subst this
    exact ⟨List.drop_length, Nat.zero_add _⟩
  · subst hb
    rcases hr : r.read.run [] (.ofBytes c) with ⟨o, u⟩
    by_cases ho : ∃ expected got, o = .error (.unexpectedEnd expected got)
    · obtain ⟨expected, got, rfl⟩ := ho
      exact ⟨expected, got, parseWith_of_error hr⟩
    · obtain ⟨n, hn⟩ := settles_of_not_isEnd hc rfl hr (by
        rintro _ rfl ⟨expected, got, rfl⟩
        exact ho ⟨expected, got, rfl⟩)
      have hrun := (hn.run d).symm.trans (parseWith_eq_ok_iff.mp h)
      have hpos := congrArg Source.pos (Prod.mk.inj hrun).2
      have hle : n ≤ c.length := hn.le
      have hlen : 0 < d.length := List.length_pos_iff.mpr hd
      simp only [Source.advance_pos, Source.extend, Source.ofBytes, List.length_append] at hpos
      omega
  · have hr := parseWith_eq_ok_iff.mp h
    obtain ⟨n, hn⟩ := settles_of_not_isEnd hc rfl hr (by rintro _ ⟨⟩)
    have hpos := congrArg Source.pos (Prod.mk.inj (hr.symm.trans hn.run_self)).2
    simp only [Source.advance_pos, Source.ofBytes, Nat.zero_add] at hpos
    subst hpos
    have hlen : 0 < s.length := List.length_pos_iff.mpr hs
    have hrun : r.read.run [] (.ofBytes (b ++ s)) =
        (.ok t, (Source.ofBytes (b ++ s)).advance b.length) := hn.run s
    rw [parse, parseWith_of_ok hrun, List.length_append, if_neg (by omega), Nat.add_sub_cancel_left]

/-- An array with one element, the same cut off inside the element, and the same with a byte behind
it. -/
theorem read_append_array :
    parse {} [21, 3, 1, 1, 7] = .ok (.mk 21 (.tagArray [.mk 1 (.bool true)])) ∧
    (read {}).run [] { rest := [21, 3, 1, 1, 7, 9] } =
      (.ok (.mk 21 (.tagArray [.mk 1 (.bool true)])), { rest := [9], pos := 5 }) ∧
    (∃ t, (read {}).run [] { rest := [21, 3, 1, 1] } = (.error (.unexpectedEnd 1 0), t) ∧
      t.rest = [] ∧ t.pos = 4) ∧
    (∃ expected got, parse {} [21, 3, 1, 1] = .error (.unexpectedEnd expected got)) ∧
    parse {} [21, 3, 1, 1, 7, 9] = .error (.format (.trailingBytes "tag buffer" 1)) := by
  have hread : (read {}).run [] { rest := [21, 3, 1, 1, 7] } =
      (.ok (.mk 21 (.tagArray [.mk 1 (.bool true)])), { rest := [], pos := 5 }) := by cbv
  have hcut : (read {}).run [] { rest := [21, 3, 1, 1] } =
      (.error (.unexpectedEnd 1 0), { rest := [], pos := 4 }) := by cbv
  have hparse : parse {} [21, 3, 1, 1, 7] = .ok (.mk 21 (.tagArray [.mk 1 (.bool true)])) := by cbv
  obtain ⟨hgo, -, hwhole⟩ := read_append {} .smooth [21, 3, 1, 1, 7] [9]
  obtain ⟨-, hend, -⟩ := read_append {} .smooth [21, 3, 1, 1] [9]
  have htail := (hwhole _ hparse).2 (by decide)
  have hinit := (hwhole _ hparse).1 [21, 3, 1, 1] [7] rfl (by decide)
  exact ⟨hparse, hgo _ _ hread (by rintro _ _ ⟨⟩), ⟨_, hcut, hend 1 0 _ hcut⟩, hinit, htail⟩

end Registry

end TagFormat
