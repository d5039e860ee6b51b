import TagFormat.Proofs.Input.Rounds
import TagFormat.Proofs.Registry.Reading
import TagFormat.Proofs.Tag.Faults
import TagFormat.Proofs.Varint.Paths

/-! # Headers: one for each id and size

A header is the id and, from id 16 on, the size, each as a variable-length number. Whatever stands
behind it, exactly its bytes are taken, and what it tells of the size (`Header.told`) is the size
that was written, unless the limit forbids it, or what the id implies (`Header.run_sizedRead`).
Numbers have one encoding each, so what was read as a header is the header that is written for the
id and the size that it tells (`Header.exists_of_run_sizedRead`). -/

namespace TagFormat

-- the length is never to be computed while the header is not known
attribute [local irreducible] Varint.bodyLength

open Reading

/-! ### Numbers with their lengths -/

namespace Reading

variable {left : Option Nat} {c : Bytes} {p : UInt64 × Nat}

theorem length_of_yields_sizedRest {header : UInt8}
    (h : (sizedRest header (Varint.sizeOfHeader header)).Yields left c p) : p.2 = 1 + c.length := by
  unfold sizedRest at h
  split_ifs at h with hone
  · obtain ⟨rfl, rfl⟩ := yields_done.mp h
    rfl
  · obtain ⟨hle, h⟩ := yields_take.mp h
    obtain ⟨hnil, hbody⟩ := yields_ofExcept.mp h
    have hge := List.drop_eq_nil_iff.mp hnil
    have hpos : 1 ≤ Varint.sizeOfHeader header := Nat.le_add_right ..
    cases hd : Varint.decodeBody (c.take (Varint.sizeOfHeader header - 1)) with
    | error error =>
      rw [hd] at hbody
      cases hbody
    | ok v =>
      rw [hd] at hbody
      obtain rfl := Except.ok.inj hbody
      change Varint.sizeOfHeader header = _
      omega

/-- **A number is read with the length** of its one form. -/
theorem yields_sizedVarint : sizedVarint.Yields left c p ↔
    c = Varint.encode p.1 ∧ p.2 = Varint.encodedSize p.1 := by
  have hread : ∀ {q}, sizedVarint.Yields left c q →
      c = Varint.encode q.1 ∧ q.2 = Varint.encodedSize q.1 := by
    intro q hq
    have hc : c = Varint.encode q.1 := by
      have hv : varint.Yields left c q.1 := by
        rw [varint_eq_sized]
        exact yields_map.mpr ⟨q, hq, rfl⟩
      exact yields_varint.mp hv
    obtain ⟨c₁, c₂, header, rfl, hheader, hrest⟩ := (yields_bind ..).mp hq
    have hlen := length_of_yields_sizedRest hrest
    obtain rfl := yields_byte.mp hheader
    refine ⟨hc, ?_⟩
    rw [← Varint.length_encode, ← hc, hlen, List.length_append, List.length_singleton]
  refine ⟨hread, fun ⟨hc, hsize⟩ => ?_⟩
  have hv : varint.Yields left c p.1 := yields_varint.mpr hc
  rw [varint_eq_sized, yields_map] at hv
  obtain ⟨q, hq, he⟩ := hv
  have hp : p = q := Prod.ext he (by rw [hsize, (hread hq).2, he])
  rwa [hp]

theorem run_sizedVarint_of_encode {s : Source} {v : UInt64} {rest : Bytes}
    (h : s.rest = Varint.encode v ++ rest) :
    sizedVarint.run [] s = (.ok (v, Varint.encodedSize v), s.advance (Varint.encodedSize v)) := by
  rw [← Varint.length_encode]
  refine run_of_yields h (List.forall_mem_nil _) (yields_sizedVarint.mpr ⟨rfl, ?_⟩)
  exact Varint.length_encode v

end Reading

namespace Header

variable {id size limit : UInt64} {s t : Source} {rest : Bytes} {declared : Declared} {len : Nat}

/-! ### Writing -/

/-- The bytes of the size in a header, if it is written. -/
def sizePart (id size : UInt64) : Bytes :=
  if Id.isImplicit id then [] else Varint.encode size

theorem bytes_writing (id size : UInt64) :
    (writing id size).bytes = Varint.encode id ++ sizePart id size := by
  unfold writing sizePart
  split_ifs
  · rw [Writing.bytes_block, List.append_nil]
  · simp [Writing.bytes]

theorem length_sizePart (id size : UInt64) :
    Varint.encodedSize id + (sizePart id size).length = Header.size id size := by
  unfold sizePart Header.size
  split_ifs
  · rfl
  · rw [Varint.length_encode]

theorem length_bytes_writing (id size : UInt64) :
    (writing id size).bytes.length = Header.size id size := by
  rw [bytes_writing, List.length_append, Varint.length_encode, length_sizePart]

/-- **Header and length** are what a sink without a limit takes and is told. -/
theorem writeTo_of_unlimited {sink : Sink} (h : sink.capacity = none) (id size : UInt64) :
    writeTo id size sink = (.ok (Header.size id size), sink.take (writing id size).bytes) := by
  have hnext : (sink.take (Varint.encode id)).capacity = none := h
  rw [bytes_writing, ← Sink.take_take]
  unfold writeTo sizePart Header.size
  rw [Varint.writeTo_of_unlimited h]
  simp only
  split_ifs
  · rw [Sink.take_nil]
  · rw [Varint.writeTo_of_unlimited hnext]
    rfl

/-! ### Reading -/

/-- What a header tells of the size of its payload: from id 16 on, the size that is written, as far
as the limit admits it, and below what the id implies, of which 15 has no payload. -/
def told (id size limit : UInt64) : Except TagError Declared :=
  if 16 ≤ id then
    if size ≤ limit then .ok (.exact size.toNat)
    else .error (.tooLarge size.toNat limit.toNat)
  else if id = 15 then .error (.unsupportedId 15)
  else
    match Id.sizing id with
    | .fixed n => .ok (.exact n)
    | _ => .ok .selfDelimited

theorem isImplicit_eq_false_iff : Id.isImplicit id = false ↔ 16 ≤ id := by
  simp [Id.isImplicit]

theorem sizePart_of_le (h : 16 ≤ id) (size : UInt64) : sizePart id size = Varint.encode size := by
  unfold sizePart
  rw [isImplicit_eq_false_iff.mpr h]
  rfl

theorem isImplicit_of_not_le (h : ¬16 ≤ id) : Id.isImplicit id = true := by
  rwa [← Bool.not_eq_false, isImplicit_eq_false_iff]

theorem sizePart_of_not_le (h : ¬16 ≤ id) (size : UInt64) : sizePart id size = [] := by
  unfold sizePart
  rw [isImplicit_of_not_le h]
  rfl

/-- A size that is told is the one that is written, if one is. -/
theorem sizePart_eq_of_told {size' : UInt64} (h : told id size limit = .ok declared)
    (h' : told id size' limit = .ok declared) : sizePart id size = sizePart id size' := by
  by_cases hi : 16 ≤ id
  · unfold told at h h'
    rw [if_pos hi] at h h'
    split_ifs at h h'
    have hsize := Declared.exact.inj ((Except.ok.inj h).trans (Except.ok.inj h').symm)
    rw [UInt64.toNat_inj.mp hsize]
  · rw [sizePart_of_not_le hi, sizePart_of_not_le hi]

/-- What follows the id is told, and exactly the bytes of the size are taken. -/
theorem run_sizedReadSize (h : s.rest = sizePart id size ++ rest) :
    (sizedReadSize id limit).run [] s =
      ((told id size limit).map fun declared => (declared, (sizePart id size).length),
        s.advance (sizePart id size).length) := by
  unfold sizedReadSize told
  by_cases hi : 16 ≤ id
  · rw [sizePart_of_le hi] at h
    rw [sizePart_of_le hi, Varint.length_encode, if_pos hi,
      (Id.sizing_eq_explicit_iff id).mpr (isImplicit_eq_false_iff.mpr hi)]
    simp only
    rw [run_bind_of_ok (run_sizedVarint_of_encode h)]
    by_cases hlimit : size ≤ limit
    · rw [if_pos hlimit, if_neg (UInt64.not_lt.mpr hlimit)]
      rfl
    · rw [if_neg hlimit, if_pos (UInt64.not_le.mp hlimit)]
      rfl
  · rw [sizePart_of_not_le hi, List.length_nil, Source.advance_zero, if_neg hi]
    by_cases h15 : id = 15
    · subst h15
      rfl
    · have hassigned := mt (Id.sizing_eq_unassigned_iff id).mp h15
      have himplicit := mt (Id.sizing_eq_explicit_iff id).mp
        (Bool.not_eq_false _ ▸ isImplicit_of_not_le hi)
      rw [if_neg h15]
      cases hs : Id.sizing id with
      | explicit => exact absurd hs himplicit
      | unassigned => exact absurd hs hassigned
      | _ => rfl

/-- **A header that is written is read**, whatever follows it: the id and what it tells of the size,
or the error for these. Either way exactly the bytes of the header are taken. -/
theorem run_sizedRead (h : s.rest = (writing id size).bytes ++ rest) :
    (sizedRead limit).run [] s =
      ((told id size limit).map fun declared => (id, declared, Header.size id size),
        s.advance (Header.size id size)) := by
  rw [bytes_writing, List.append_assoc] at h
  have hrest := Source.rest_advance h
  rw [Varint.length_encode] at hrest
  unfold sizedRead
  rw [run_bind_of_ok (run_sizedVarint_of_encode h)]
  simp only
  rw [run_bind, run_sizedReadSize hrest, Source.advance_advance, length_sizePart]
  cases told id size limit with
  | error error => rfl
  | ok declared =>
    change (Except.ok (id, declared, _), _) = _
    rw [length_sizePart]
    rfl

/-- **What is read as a header was written** as the header of its id and of some size. -/
theorem exists_of_run_sizedRead (h : (sizedRead limit).run [] s = (.ok (id, declared, len), t)) :
    ∃ size rest, s.rest = (writing id size).bytes ++ rest := by
  obtain ⟨n, hn, -, -, hy⟩ := (run_eq_ok_iff (List.forall_mem_nil _)).mp h
  obtain ⟨c₁, c₂, ⟨id', length⟩, hc, hid, hsize⟩ := (yields_bind ..).mp hy
  obtain ⟨rfl, -⟩ := yields_sizedVarint.mp hid
  obtain ⟨d₁, d₂, ⟨declared', more⟩, rfl, hdeclared, hdone⟩ := (yields_bind ..).mp hsize
  obtain ⟨rfl, he⟩ := yields_done.mp hdone
  obtain ⟨rfl, -⟩ := Prod.mk.inj he
  have hrest : s.rest = Varint.encode id ++ (d₁ ++ s.rest.drop n) := by
    rw [← List.append_assoc, ← List.append_nil d₁, ← hc, List.take_append_drop]
  suffices hpart : ∃ size, d₁ = sizePart id size by
    obtain ⟨size, rfl⟩ := hpart
    refine ⟨size, s.rest.drop n, ?_⟩
    rw [bytes_writing, List.append_assoc]
    exact hrest
  unfold sizedReadSize at hdeclared
  cases hs : Id.sizing id with
  | explicit =>
    rw [hs] at hdeclared
    obtain ⟨e₁, e₂, ⟨size, length'⟩, rfl, hvarint, hlimit⟩ := (yields_bind ..).mp hdeclared
    obtain ⟨rfl, -⟩ := yields_sizedVarint.mp hvarint
    refine ⟨size, ?_⟩
    rw [sizePart, (Id.sizing_eq_explicit_iff id).mp hs]
    simp only at hlimit
    split_ifs at hlimit
    · exact hlimit.elim
    · obtain ⟨rfl, -⟩ := yields_done.mp hlimit
      exact List.append_nil _
  | unassigned =>
    rw [hs] at hdeclared
    exact hdeclared.elim
  | fixed | selfDelimited =>
    rw [hs] at hdeclared
    have himplicit : Id.isImplicit id = true := Id.isImplicit_of_sizing_ne (by rw [hs]; simp)
    exact ⟨0, by rw [sizePart, himplicit]; exact (yields_done.mp hdeclared).1⟩

/-- A size that is read as part of a tag is read in the same way, and its length left out. -/
theorem run_readSize (id limit : UInt64) (stops : List Nat) (s : Source) :
    (readSize id limit).run stops s =
      ((sizedReadSize id limit).bind fun p => .done p.1).run stops s := by
  unfold readSize sizedReadSize
  cases Id.sizing id with
  | explicit =>
    simp only
    rw [varint_eq_sized, run_bind_assoc, run_bind_assoc, run_bind, run_bind]
    rcases sizedVarint.run stops s with ⟨error | ⟨size, length⟩, t⟩
    · rfl
    · by_cases h : limit < size
      · simp only [Reading.bind, h, if_true]
      · simp only [Reading.bind, h, if_false]
  | _ => rfl

/-! ### One header for each id and size -/

/-- **Headers are read as they are written, and none is read that is not written so.** A sink without
a limit takes the bytes of a header, and their number is the size that was computed for it. From
these bytes, whatever follows them, the id is read, and what it tells of the size; the bytes are
taken, no more and no fewer, also where the size is above the limit or the id is 15. And where a
header is read from some bytes, they start with the header that is written for its id and for every
size that it tells, so there is one header only for each id and size. -/
theorem reads_back (limit : UInt64) :
    (∀ (id size : UInt64) (sink : Sink), sink.capacity = none →
      writeTo id size sink = (.ok (Header.size id size), sink.take (writing id size).bytes) ∧
      (writing id size).bytes.length = Header.size id size) ∧
    (∀ (id size : UInt64) (s : Source) (rest : Bytes), s.rest = (writing id size).bytes ++ rest →
      (sizedRead limit).run [] s =
        ((told id size limit).map fun declared => (id, declared, Header.size id size),
          s.advance (Header.size id size))) ∧
    (∀ (s t : Source) (id : UInt64) (declared : Declared) (len : Nat),
      (sizedRead limit).run [] s = (.ok (id, declared, len), t) → t = s.advance len ∧
        (∃ size, told id size limit = .ok declared) ∧
        ∀ size, told id size limit = .ok declared →
          len = Header.size id size ∧ s.rest.take len = (writing id size).bytes) ∧
    ∀ (s s' t t' : Source) (id : UInt64) (declared : Declared) (len len' : Nat),
      (sizedRead limit).run [] s = (.ok (id, declared, len), t) →
      (sizedRead limit).run [] s' = (.ok (id, declared, len'), t') →
        len = len' ∧ s.rest.take len = s'.rest.take len' := by
  have hread : ∀ (s t : Source) (id : UInt64) (declared : Declared) (len : Nat),
      (sizedRead limit).run [] s = (.ok (id, declared, len), t) → t = s.advance len ∧
        (∃ size, told id size limit = .ok declared) ∧
        ∀ size, told id size limit = .ok declared →
          len = Header.size id size ∧ s.rest.take len = (writing id size).bytes := by
    intro s t id declared len h
    obtain ⟨size, rest, hrest⟩ := exists_of_run_sizedRead h
    rw [run_sizedRead hrest] at h
    obtain ⟨hok, rfl⟩ := Prod.mk.inj h
    cases htold : told id size limit with
    | error error =>
      rw [htold] at hok
      cases hok
    | ok declared' =>
      rw [htold] at hok
      obtain ⟨-, hdeclared⟩ := Prod.mk.inj (Except.ok.inj hok)
      obtain ⟨rfl, rfl⟩ := Prod.mk.inj hdeclared
      refine ⟨rfl, ⟨size, htold⟩, fun size' htold' => ?_⟩
      have hpart := sizePart_eq_of_told htold htold'
      have hbytes : (writing id size').bytes = (writing id size).bytes := by
        rw [bytes_writing, bytes_writing, hpart]
      refine ⟨?_, ?_⟩
      · rw [← length_sizePart, hpart, length_sizePart]
      · rw [hbytes, hrest, ← length_bytes_writing, List.take_left]
  refine ⟨fun id size sink hsink =>
    ⟨writeTo_of_unlimited hsink id size, length_bytes_writing id size⟩,
    fun id size s rest h => run_sizedRead h, hread, ?_⟩
  intro s s' t t' id declared len len' h h'
  obtain ⟨-, ⟨size, htold⟩, hs⟩ := hread s t id declared len h
  obtain ⟨hlen, hbytes⟩ := hs size htold
  obtain ⟨hlen', hbytes'⟩ := (hread s' t' id declared len' h').2.2 size htold
  exact ⟨hlen.trans hlen'.symm, hbytes.trans hbytes'.symm⟩

/-- The headers of a block of 300 bytes under the limit and above it, and of an id that implies its
size. -/
theorem reads_back_block :
    let s : Source := { rest := [16, 248, 52, 7] }
    let s' : Source := { rest := [2, 7] }
    writeTo 16 300 {} = (.ok 3, { taken := [16, 248, 52] }) ∧
    (sizedRead 300).run [] s = (.ok (16, .exact 300, 3), s.advance 3) ∧
    (sizedRead 299).run [] s = (.error (.tooLarge 300 299), s.advance 3) ∧
    (sizedRead 299).run [] s' = (.ok (2, .exact 1, 1), s'.advance 1) ∧
    s.rest.take 3 = (writing 16 300).bytes := by
  intro s s'
  have hsize : Header.size 16 300 = 3 := by cbv
  have hbytes : s.rest = (writing 16 300).bytes ++ [7] := by
    simp only [s]
    cbv
  have hbytes' : s'.rest = (writing 2 300).bytes ++ [7] := by
    simp only [s']
    cbv
  have hread := (reads_back 300).2.1 16 300 s [7] hbytes
  rw [hsize] at hread
  have hback := ((reads_back 300).2.2.1 s _ 16 (.exact 300) 3 hread).2.2 300 rfl
  have hover := (reads_back 299).2.1 16 300 s [7] hbytes
  rw [hsize] at hover
  exact ⟨((reads_back 300).1 16 300 {} rfl).1, hread, hover,
    (reads_back 299).2.1 2 300 s' [7] hbytes', hback.2⟩

end Header

end TagFormat
