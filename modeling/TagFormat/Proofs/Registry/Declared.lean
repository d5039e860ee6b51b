import TagFormat.Proofs.Input.Taking
import TagFormat.Proofs.Registry.Accepts
import TagFormat.Proofs.Tag.Overwriting

/-! # Payloads and their declared sizes

A payload takes exactly the bytes that its header declares, and never more of them, be it read over
another or not (`Payload.takes_readOver`). For half of the kinds a frame sees to this, whoever reads
in it; the others check the declared size, or ask for that many bytes. So it is with a versioned body
and with a codec of any make, also with one that takes what it likes of its frame and makes of every
failure what it likes (`Body.heeds_call`, `Codec.heeds_call`). Payloads that are read and written in
one form moreover report the size that was declared (`Registry.valueSize_of_yields`). -/

namespace TagFormat

open Reading

variable {α : Type} {stops : List Nat} {s t : Source}

/-! ### Checks and frames -/

namespace Reading

variable {p : Reading α} {what : String} {n size minimum : Nat}

theorem Takes.ofSize (h : p.Takes size size) : (ofSize what size (.exact n) p).Takes n n := by
  refine Takes.check fun _ he => ?_
  have hn : n = size := by
    by_contra hne
    rw [show (Declared.exact n).require what size = _ from if_neg hne] at he
    cases he
  rw [hn]
  exact h

theorem takes_framed {body : Nat → Reading α} :
    (framed what minimum (.exact n) body).Takes n n := by
  refine Takes.check fun size he => ?_
  rw [(Declared.atLeast_exact_eq_ok_iff.mp he).2]
  exact takes_exactly ..

end Reading

/-! ### Payloads -/

theorem Standard.takes_read (inner : Inner) (n : Nat) (type : Standard) :
    (type.read inner (.exact n)).Takes n n := by
  cases type <;> simp only [read, bind_eq, pure_eq]
  case null => exact (show (done Payload.null).Takes 0 0 from rfl).ofSize
  case bool | uint8 | int8 => exact takes_byte.ofSize.map _
  case uint16 | int16 => exact takes_uint16.ofSize.map _
  case uint32 | float32 => exact takes_uint32.ofSize.map _
  case int32 => exact takes_int32.ofSize.map _
  case uint64 | int64 | float64 => exact takes_uint64.ofSize.map _
  case float128 => exact (takes_number 16).ofSize.map _
  case varint | signedVarint => exact (takes_exactly ..).map _
  case bytes => exact (takes_block n).map _
  case string => exact (takes_text n).map _
  case bigInt =>
    refine Takes.check fun size he => ?_
    rw [(Declared.atLeast_exact_eq_ok_iff.mp he).2]
    exact (takes_block n).map _
  case bigDecimal | range => exact takes_framed
  case varintArray | oid | tagArray | tagSequence | dictionary | stringDictionary =>
    exact takes_framed.map _
  case version =>
    refine Takes.ofSize ?_
    refine takes_int32.bind (by decide) fun _ => takes_int32.bind (by decide) fun _ => ?_
    exact takes_int32.bind (by decide) fun _ => takes_int32.map _

theorem Body.takes_readVersionedOver (b : Body α) (inner : Inner) (n : Nat) (v : Versioned α) :
    (b.readVersionedOver inner (.exact n) v).Takes n n :=
  takes_framed

theorem Codec.takes_readValue (c : Codec α) (inner : Inner) (n : Nat) :
    (c.readValue inner (.exact n)).Takes n n :=
  takes_exactly ..

theorem Kind.takes_read (inner : Inner) (n : Nat) (kind : Kind) :
    (kind.read inner (.exact n)).Takes n n := by
  cases kind <;> simp only [read, bind_eq, pure_eq]
  case standard type => exact type.takes_read inner n
  case point => exact (Body.point.takes_readVersionedOver inner n _).map _
  case document => exact (Body.document.takes_readVersionedOver inner n _).map _
  case coordinates | fixed | text | nested => exact (Codec.takes_readValue _ inner n).map _

theorem Payload.takes_readOver (inner : Inner) (n : Nat) (p : Payload) :
    (p.readOver inner (.exact n)).Takes n n := by
  rw [Payload.readOver_eq]
  exact p.kind.takes_read inner n

/-! ### Readers of any make -/

/-- A reader that is told a size takes exactly that many bytes if it succeeds, and never more; told
none, it asks for one before it takes a byte. -/
structure Source.Heeds (s : Source) (read : Declared → Except TagError α × Source) : Prop where
  exact : ∀ n, s.Spends n n (read (.exact n))
  selfDelimited : ∃ what, read .selfDelimited = (.error (.format (.sizeRequired what)), s)

/-- A version that the body supports. -/
def Body.expectVersion (b : Body α) : Reading UInt16 :=
  uint16.bind fun version =>
    if b.supports version then .done version
    else .fail (.format (.unsupportedVersion what version.toNat))

/-- Reads a version, and lets a caller read the body of that version, in exactly the declared
size. -/
def Body.callVersioned (b : Body α) (caller : UInt16 → Caller (Versioned α)) (declared : Declared)
    (stops : List Nat) (s : Source) : Except TagError (Versioned α) × Source :=
  match declared.atLeast what 2 with
  | .ok size => Caller.exactly what size b.expectVersion caller stops s
  | .error error => (.error error, s)

/-- Lets a caller read the value of a slot, in exactly the declared size. -/
def Codec.callValue (c : Codec α) (caller : Declared → Caller α) (declared : Declared)
    (stops : List Nat) (s : Source) : Except TagError α × Source :=
  match declared.bytes c.name with
  | .ok size => Caller.exactly c.name size (.done ()) (fun _ => caller (.exact size)) stops s
  | .error error => (.error error, s)

theorem Body.heeds_read (b : Body α) (inner : Inner) (v : Versioned α) (stops : List Nat)
    (s : Source) : s.Heeds fun declared => (b.readVersionedOver inner declared v).run stops s where
  exact n := (b.takes_readVersionedOver inner n v).spends_run stops s
  selfDelimited := ⟨_, rfl⟩

/-- **A versioned body takes its declared size**, whoever reads it and however. -/
theorem Body.heeds_call (b : Body α) (caller : UInt16 → Caller (Versioned α)) (stops : List Nat)
    (s : Source) : s.Heeds fun declared => b.callVersioned caller declared stops s where
  exact n := by
    rw [callVersioned]
    cases h : (Declared.exact n).atLeast what 2 with
    | ok size =>
      rw [(Declared.atLeast_exact_eq_ok_iff.mp h).2]
      exact Caller.spends_exactly ..
    | error error => exact .of_error (Nat.zero_le _) (Nat.zero_le _)
  selfDelimited := ⟨_, rfl⟩

theorem Codec.heeds_read (c : Codec α) (inner : Inner) (stops : List Nat) (s : Source) :
    s.Heeds fun declared => (c.readValue inner declared).run stops s where
  exact n := (c.takes_readValue inner n).spends_run stops s
  selfDelimited := ⟨_, rfl⟩

/-- **The value of a slot takes its declared size**, whoever reads it and however. -/
theorem Codec.heeds_call (c : Codec α) (caller : Declared → Caller α) (stops : List Nat)
    (s : Source) : s.Heeds fun declared => c.callValue caller declared stops s where
  exact _ := Caller.spends_exactly ..
  selfDelimited := ⟨_, rfl⟩

/-! ### Numbers that find their own end -/

namespace Payload

variable {p q : Payload} {inner : Inner}

/-- The kind of a payload that finds its own end. -/
def IsSelfDelimited (p : Payload) : Prop :=
  p.kind = .standard .varint ∨ p.kind = .standard .signedVarint

/-- **All other payloads heed** the size that is declared. -/
theorem heeds_read (h : ¬p.IsSelfDelimited) (inner : Inner) (stops : List Nat) (s : Source) :
    s.Heeds fun declared => (p.readOver inner declared).run stops s where
  exact n := (p.takes_readOver inner n).spends_run stops s
  selfDelimited := by
    cases p with
    | varint | signedVarint => simp [IsSelfDelimited, kind] at h
    | _ => exact ⟨_, rfl⟩

theorem takes_read_of_selfDelimited (h : p.IsSelfDelimited) (inner : Inner) :
    (p.readOver inner .selfDelimited).Takes 1 9 := by
  cases p <;> simp [IsSelfDelimited, kind] at h
  case varint n => exact takes_varint.map _
  case signedVarint n => exact takes_signedVarint.map _

theorem length_of_yields_selfDelimited (h : p.IsSelfDelimited) {left : Option Nat} {c : Bytes}
    (hy : (p.readOver inner .selfDelimited).Yields left c q) : q.valueSize = c.length := by
  cases p <;> simp [IsSelfDelimited, kind] at h
  case varint =>
    obtain ⟨n, hn, rfl⟩ := yields_map.mp hy
    rw [yields_varint.mp hn, Varint.length_encode]
    rfl
  case signedVarint =>
    obtain ⟨n, hn, rfl⟩ := yields_map.mp hy
    rw [yields_signedVarint.mp hn, Varint.encodeSigned, Varint.length_encode]
    rfl

end Payload

/-! ### The size of what was read -/

namespace Registry

/-- **The size that a payload reports** is the number of bytes that it was read from, if it is of the
version in which it is written, and so is all inside it. -/
theorem valueSize_of_yields {r : Registry} {depth : Nat} {p q : Payload} {n : UInt64}
    {left : Option Nat} {c : Bytes}
    (h : (p.readOver (r.inner depth) (.exact n.toNat)).Yields left c q) (hq : q.IsCurrent)
    (hc : ∀ v ∈ q.children, ∀ u : Tag, u.Inside v → u.payload.IsCurrent) :
    q.valueSize = n.toNat := by
  rw [Payload.readOver_eq] at h
  obtain ⟨-, hl, hh, hs⟩ := (yields_read_iff (r.readsBy depth) n.toNat_lt).mp h
  have hf : q.writing.failure = none :=
    Payload.failure_writing_of_filled hh.readable.isFilled fun u hu =>
      (hh.children u hu).failure_writing
  rw [← Payload.length_cells (fun u v hv hu => hc v hv u hu) hq hf, hs.length_eq, hl]

/-- **Payloads heed their declared sizes**, whatever the source and the frames around. Read over any
payload, a payload takes exactly the size that is declared, and never more if it fails; the numbers
that find their own end may go without one, and then take what they report, of nine bytes at most;
all others ask for a size before they take a byte. So it is with a versioned body and with a codec
of any type, also with those that are no programs and take of their frame what they like. A payload
of a registry reports the size that was declared, unless an older version was read. -/
theorem readOver_heeds (r : Registry) (hs : ∀ stop ∈ stops, s.pos ≤ stop) :
    (∀ (p : Payload) (inner : Inner), ¬p.IsSelfDelimited →
      s.Heeds fun declared => (p.readOver inner declared).run stops s) ∧
    (∀ (p : Payload) (inner : Inner), p.IsSelfDelimited →
      (∀ n, s.Spends n n ((p.readOver inner (.exact n)).run stops s)) ∧
      ∃ n ≤ s.rest.length, n ≤ 9 ∧
        ((p.readOver inner .selfDelimited).run stops s).2 = s.advance n ∧
        ∀ q, ((p.readOver inner .selfDelimited).run stops s).1 = .ok q → q.valueSize = n) ∧
    (∀ {α : Type} (b : Body α), (∀ (inner : Inner) (v : Versioned α),
        s.Heeds fun declared => (b.readVersionedOver inner declared v).run stops s) ∧
      ∀ caller, s.Heeds fun declared => b.callVersioned caller declared stops s) ∧
    (∀ {α : Type} (c : Codec α), (∀ inner : Inner,
        s.Heeds fun declared => (c.readValue inner declared).run stops s) ∧
      ∀ caller, s.Heeds fun declared => c.callValue caller declared stops s) ∧
    ∀ (depth : Nat) (p q : Payload) (n : UInt64) (t : Source),
      (p.readOver (r.inner depth) (.exact n.toNat)).run stops s = (.ok q, t) → q.IsCurrent →
      (∀ v ∈ q.children, ∀ u : Tag, u.Inside v → u.payload.IsCurrent) →
      q.valueSize = n.toNat := by
  refine ⟨fun p inner hp => Payload.heeds_read hp inner stops s, fun p inner hp => ⟨fun n => ?_, ?_⟩,
    fun b => ⟨fun inner v => b.heeds_read inner v stops s, fun caller =>
      b.heeds_call caller stops s⟩,
    fun c => ⟨fun inner => c.heeds_read inner stops s, fun caller => c.heeds_call caller stops s⟩,
    fun depth p q n t h hq hc => ?_⟩
  · exact (p.takes_readOver inner n).spends_run stops s
  · obtain ⟨n, hn, hmost, ht, -⟩ :=
      (Payload.takes_read_of_selfDelimited hp inner).spends_run stops s
    refine ⟨n, hn, hmost, ht, fun q hq => ?_⟩
    obtain ⟨m, hm, hadv, -, hy⟩ := (run_eq_ok_iff hs).mp (Prod.ext hq rfl)
    have hpos := congrArg Source.pos (ht.symm.trans hadv)
    rw [Source.advance_pos, Source.advance_pos] at hpos
    rw [Payload.length_of_yields_selfDelimited hp hy, List.length_take]
    omega
  · obtain ⟨_, -, -, -, hy⟩ := (run_eq_ok_iff hs).mp h
    exact valueSize_of_yields hy hq hc

/-- A point read over another in a frame that ends behind it; and a slot whose reader asks for more
than the slot has. -/
theorem readOver_heeds_point :
    let r : Registry := {}
    let s : Source := { rest := [0, 2, 7, 5, 9] }
    let greedy : Declared → Caller Coordinates := fun _ => .call 9 fun _ => .stop (.ok ⟨1, 2⟩)
    ((Payload.point ⟨1, ⟨9, 0⟩⟩).readOver (r.inner 3) (.exact 4)).run [4] s =
      (.ok (.point ⟨2, ⟨7, 5⟩⟩), s.advance 4) ∧
    (Payload.point ⟨2, ⟨7, 5⟩⟩).valueSize = 4 ∧
    Codec.coordinates.callValue greedy (.exact 2) [4] s = (.ok ⟨1, 2⟩, s.advance 2) ∧
    s.Spends 2 2 (Codec.coordinates.callValue greedy (.exact 2) [4] s) := by
  intro r s greedy
  have hread : ((Payload.point ⟨1, ⟨9, 0⟩⟩).readOver (r.inner 3) (.exact 4)).run [4] s =
      (.ok (.point ⟨2, ⟨7, 5⟩⟩), s.advance 4) := by
    simp only [s]
    cbv
  have hcall : Codec.coordinates.callValue greedy (.exact 2) [4] s =
      (.ok ⟨1, 2⟩, s.advance 2) := by
    simp only [s, greedy]
    cbv
  have hs : ∀ stop ∈ [4], s.pos ≤ stop := by decide
  obtain ⟨-, -, -, hslot, hsize⟩ := readOver_heeds r hs
  exact ⟨hread, hsize 3 _ _ 4 _ hread rfl (List.forall_mem_nil _), hcall,
    ((hslot Codec.coordinates).2 greedy).exact 2⟩

end Registry

end TagFormat
