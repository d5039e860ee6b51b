import TagFormat.Proofs.Input.Local
import TagFormat.Proofs.Output.Writing
import TagFormat.Proofs.Input.Items
import TagFormat.Proofs.Varint.Decoding

/-! # Variable-length numbers: all ways to bytes and back

A number is written over a buffer, into bytes of its own or to a sink. All three go through the
encoder that cuts the body out of the number in its full width, and what it leaves is the encoding
(`overwrite_eq`). A number is read from bytes that are all there, or from a source, header first and
then the body. What a source reads is what the bytes to come are decoded to, the counts in errors
included, and the source is left where the number ends or where it was given up
(`Reading.run_sizedVarint`). Signed numbers are numbers after `zigzag` and before `unzigzag`, so all
of this holds of them, too (`paths_agree`). -/

namespace TagFormat

-- the length is never to be computed while the header is not known
attribute [local irreducible] Varint.bodyLength

/-- The low bytes of a number in a greater width. -/
theorem BigEndian.drop_encode (k w n : Nat) : (encode (k + w) n).drop k = encode w n := by
  induction w generalizing n with
  | zero =>
    rw [List.drop_eq_nil_of_le (by rw [length_encode, Nat.add_zero])]
    rfl
  | succ w ih =>
    have hk : k ≤ (encode (k + w) (n / 256)).length := by
      rw [length_encode]
      omega
    rw [← Nat.add_assoc, encode, List.drop_append_of_le_length hk, ih, encode]

namespace Varint

/-! ### Writing -/

theorem encodedSize_of_lt {v : UInt64} (h : v.toNat < base) : encodedSize v = 1 := by
  rw [encodedSize, sizeOfNat, if_pos h]

theorem encodedSize_of_le {v : UInt64} (h : base ≤ v.toNat) :
    encodedSize v = 1 + BigEndian.width (v.toNat - base) := by
  rw [encodedSize, sizeOfNat, if_neg (by omega)]

/-- The header and the body copied one after the other are all there is. -/
theorem overlay_overlay {header : UInt8} {body out : Bytes} (h : out.length = 1 + body.length) :
    overlay body 1 (overlay [header] 0 out) = header :: body := by
  have hdrop : out.drop (1 + body.length) = [] := List.drop_eq_nil_of_le h.le
  have hhead : overlay [header] 0 out = header :: out.drop 1 := rfl
  rw [hhead, overlay, Nat.add_comm, List.drop_succ_cons, List.drop_drop, hdrop, List.append_nil]
  rfl

/-- **The encoder leaves the encoding**, whatever was there before. -/
theorem overwrite_eq {v : UInt64} {out : Bytes} (h : out.length = encodedSize v) :
    overwrite v (encodedSize v) out = encode v := by
  by_cases hv : v.toNat < base
  · have hsize := encodedSize_of_lt hv
    obtain ⟨b, rfl⟩ := List.length_eq_one_iff.mp (h.trans hsize)
    unfold overwrite
    rw [if_pos hsize, encode_of_lt hv]
    rfl
  · have hle : base ≤ v.toNat := Nat.le_of_not_lt hv
    have hw := width_sub_base_le v
    have hpos := BigEndian.width_pos (v.toNat - base)
    have hsize := encodedSize_of_le hle
    have hsub : (v - UInt64.ofNat base).toNat = v.toNat - base :=
      UInt64.toNat_sub_of_le v _ (UInt64.le_iff_toNat_le.mpr hle)
    have hheader : UInt8.ofNat base + UInt8.ofNat (encodedSize v - 2) =
        UInt8.ofNat (base + (BigEndian.width (v.toNat - base) - 1)) := by
      rw [← UInt8.ofNat_add, hsize]
      congr 2
      omega
    have hbody : (BigEndian.encode 8 (v.toNat - base)).drop (8 - (encodedSize v - 1)) =
        BigEndian.encode (BigEndian.width (v.toNat - base)) (v.toNat - base) := by
      have hdrop := BigEndian.drop_encode (8 - BigEndian.width (v.toNat - base))
        (BigEndian.width (v.toNat - base)) (v.toNat - base)
      rw [Nat.sub_add_cancel hw] at hdrop
      rw [hsize, Nat.add_sub_cancel_left, hdrop]
    unfold overwrite
    simp only [hsub, BigEndian.length_encode, hbody, hheader]
    rw [if_neg (by omega), overlay_overlay (by rw [BigEndian.length_encode]; omega),
      encode_of_le hle]

theorem encodeInto_of_le {v : UInt64} {buffer : Bytes} (h : encodedSize v ≤ buffer.length) :
    encodeInto v buffer = (.ok (encodedSize v), encode v ++ buffer.drop (encodedSize v)) := by
  have hlen : (buffer.take (encodedSize v)).length = encodedSize v := List.length_take_of_le h
  unfold encodeInto
  simp only
  rw [if_neg (by omega), overwrite_eq hlen]

theorem encodeInto_of_lt {v : UInt64} {buffer : Bytes} (h : buffer.length < encodedSize v) :
    encodeInto v buffer = (.error (.shortWrite (encodedSize v) 0), buffer) := by
  unfold encodeInto
  simp only
  rw [if_pos h]

theorem toBytes_eq (v : UInt64) : toBytes v = encode v := by
  have hle := encodedSize_le v
  have hlen : ((List.replicate maxSize (0 : UInt8)).take (encodedSize v)).length =
      encodedSize v := by
    rw [List.length_take, List.length_replicate, maxSize]
    omega
  unfold toBytes encodeBlock
  simp only
  rw [overwrite_eq hlen, ← length_encode, List.take_left]

theorem writeTo_of_unlimited {s : Sink} (hs : s.capacity = none) (v : UInt64) :
    writeTo v s = (.ok (encodedSize v), s.take (encode v)) := by
  have hblock : (encodeBlock v).1.take (encodeBlock v).2 = encode v := toBytes_eq v
  unfold writeTo
  simp only [hblock]
  rw [Writing.run, Writing.runCounted_of_unlimited hs]
  simp [encodeBlock, Except.map]

/-- The header tells how long the encoding is. -/
theorem sizeOfHeader_of_encode {v : UInt64} {header : UInt8} {body : Bytes}
    (h : encode v = header :: body) : sizeOfHeader header = encodedSize v := by
  rw [← length_encode, h, List.length_cons, length_of_encode_eq_cons h, sizeOfHeader, Nat.add_comm]

end Varint

/-! ### Reading -/

namespace Reading

open Varint

/-- Reads what follows a header that announces an encoding of `size` bytes. -/
def sizedRest (header : UInt8) (size : Nat) : Reading (UInt64 × Nat) :=
  if size = 1 then .done (header.toUInt64, 1)
  else .take 1 (size - 1) fun body => ofExcept ((decodeBody body).map (·, size))

theorem run_sizedVarint_cons {s : Source} {header : UInt8} {rest : Bytes}
    (h : s.rest = header :: rest) :
    sizedVarint.run [] s = (sizedRest header (sizeOfHeader header)).run [] (s.advance 1) := by
  have hone : 1 ≤ s.rest.length := by
    rw [h]
    exact Nat.le_add_left _ _
  rw [sizedVarint, run_bind, byte, run_take_of_le rfl hone, h]
  rfl

theorem run_ofExcept {α : Type} (r : Except TagError α) (stops : List Nat) (s : Source) :
    (ofExcept r).run stops s = (r, s) := by
  cases r <;> rfl

/-- Where the bytes of a body are there, the outcome is that of decoding them. -/
theorem run_sizedRest_of_le {s : Source} (header : UInt8) (h : bodyLength header ≤ s.rest.length) :
    (sizedRest header (sizeOfHeader header)).run [] s =
      (decode (header :: s.rest), s.advance (bodyLength header)) := by
  unfold sizedRest decode sizeOfHeader
  simp only
  rw [if_neg (Nat.not_lt.mpr h)]
  by_cases h0 : bodyLength header = 0
  · rw [h0, if_pos rfl, if_pos rfl, Source.advance_zero]
    rfl
  · rw [if_neg (by omega), if_neg h0, Nat.add_sub_cancel_left, run_take_of_le rfl h, run_ofExcept]

/-- Where bytes of a body are missing, those that are there are counted with the header. -/
theorem run_sizedRest_of_lt {s : Source} (hf : s.failure = none) (header : UInt8)
    (h : s.rest.length < bodyLength header) :
    (sizedRest header (sizeOfHeader header)).run [] s =
      (decode (header :: s.rest), s.advance s.rest.length) := by
  have hlt : s.rest.length < allowed [] s.pos (bodyLength header) := h
  unfold sizedRest decode sizeOfHeader
  simp only
  rw [if_pos h, if_neg (by omega), Nat.add_sub_cancel_left, run_take_of_lt hf hlt]

/-- **A number read from a source** is the one that the bytes to come are decoded to, or there is
the same error. The bytes of the header and of the body are gone, as far as they were there. -/
theorem run_sizedVarint {s : Source} (hf : s.failure = none) :
    sizedVarint.run [] s = (decode s.rest,
      s.advance (min s.rest.length ((s.rest.head?.map sizeOfHeader).getD 1))) := by
  cases hr : s.rest with
  | nil =>
    have hlt : s.rest.length < allowed [] s.pos 1 := by
      rw [hr]
      exact Nat.one_pos
    rw [sizedVarint, run_bind, byte, run_take_of_lt hf hlt, hr]
    rfl
  | cons header rest =>
    have hrest : (s.advance 1).rest = rest := by rw [Source.advance_rest, hr, List.drop_one]; rfl
    rw [run_sizedVarint_cons hr, List.head?_cons, Option.map_some, Option.getD_some,
      List.length_cons, sizeOfHeader]
    rcases Nat.lt_or_ge rest.length (bodyLength header) with hlt | hge
    · have hrun := run_sizedRest_of_lt (s := s.advance 1) hf header (by rwa [hrest])
      rw [hrest, Source.advance_advance] at hrun
      rw [← sizeOfHeader, hrun]
      congr 2
      unfold sizeOfHeader
      omega
    · have hrun := run_sizedRest_of_le (s := s.advance 1) header (by rwa [hrest])
      rw [hrest, Source.advance_advance] at hrun
      rw [← sizeOfHeader, hrun]
      congr 2
      unfold sizeOfHeader
      omega

/-- Reading a number is reading it with its length, and leaving the length out. -/
theorem varint_eq_sized : varint = sizedVarint.bind fun p => .done p.1 := by
  rw [varint_eq, sizedVarint]
  change _ = byte.bind fun header =>
    (sizedRest header (sizeOfHeader header)).bind fun p => done p.1
  refine congrArg byte.bind (funext fun header => ?_)
  unfold sizedRest sizeOfHeader
  cases bodyLength header with
  | zero => rfl
  | succ length =>
    have hne : ¬1 + (length + 1) = 1 := by omega
    simp only [if_neg hne, Nat.add_sub_cancel_left, varintRest, bind]
    refine congrArg (take 1 (length + 1)) (funext fun body => ?_)
    cases decodeBody body <;> rfl

end Reading

/-! ### All paths -/

namespace Varint

variable {α β : Type}

/-- The encoders agree: `bytes` gives as many bytes as `size` and the first of them tell, `into`
puts them over the first bytes of a buffer, if there are so many, and leaves the rest, and
`toSink` adds them to what a sink without a limit has taken. -/
structure Encoders (size : α → Nat) (bytes : α → Bytes)
    (into : α → Bytes → Except TagError Nat × Bytes)
    (toSink : α → Sink → Except TagError Nat × Sink) : Prop where
  length : ∀ a, (bytes a).length = size a
  header : ∀ a, ∃ header body, bytes a = header :: body ∧ sizeOfHeader header = size a
  into_of_le : ∀ a buffer, size a ≤ buffer.length →
    into a buffer = (.ok (size a), bytes a ++ buffer.drop (size a))
  into_of_lt : ∀ a buffer, buffer.length < size a →
    into a buffer = (.error (.shortWrite (size a) 0), buffer)
  to_sink : ∀ (a : α) (s : Sink), s.capacity = none →
    toSink a s = (.ok (size a), s.take (bytes a))

/-- The decoders agree: from a source that does not fail, `stream` comes to the outcome to which
`slice` comes over the bytes to come. It takes as many bytes as the outcome tells, all bytes if they
end too early, and those that the header announces if they are refused. -/
structure Decoders (stream : Reading (α × Nat)) (slice : Bytes → Except TagError (α × Nat)) :
    Prop where
  outcome : ∀ s : Source, s.failure = none → (stream.run [] s).1 = slice s.rest
  of_ok : ∀ s : Source, s.failure = none → ∀ a n, slice s.rest = .ok (a, n) →
    (stream.run [] s).2 = s.advance n
  of_end : ∀ s : Source, s.failure = none → ∀ expected got,
    slice s.rest = .error (.unexpectedEnd expected got) →
      (stream.run [] s).2 = s.advance s.rest.length
  of_refused : ∀ s : Source, s.failure = none → ∀ error,
    slice s.rest = .error error → ¬error.IsEnd → ∃ header body, s.rest = header :: body ∧
      (error = .varintOverflow "u64" ∨
        error = .invalidVarint (bodyLength header) "non-minimal encoding") ∧
      (stream.run [] s).2 = s.advance (sizeOfHeader header)

theorem Encoders.comap {size : α → Nat} {bytes : α → Bytes}
    {into : α → Bytes → Except TagError Nat × Bytes}
    {toSink : α → Sink → Except TagError Nat × Sink} (h : Encoders size bytes into toSink)
    (f : β → α) :
    Encoders (fun b => size (f b)) (fun b => bytes (f b)) (fun b => into (f b))
      (fun b => toSink (f b)) where
  length b := h.length (f b)
  header b := h.header (f b)
  into_of_le b := h.into_of_le (f b)
  into_of_lt b := h.into_of_lt (f b)
  to_sink b := h.to_sink (f b)

theorem Decoders.map {stream : Reading (α × Nat)} {slice : Bytes → Except TagError (α × Nat)}
    (h : Decoders stream slice) (f : α → β) :
    Decoders (stream.bind fun p => .done (f p.1, p.2))
      (fun bytes => (slice bytes).map fun p => (f p.1, p.2)) := by
  have hrun : ∀ s : Source, (stream.bind fun p => .done (f p.1, p.2)).run [] s =
      ((stream.run [] s).1.map fun p => (f p.1, p.2), (stream.run [] s).2) := by
    intro s
    rw [Reading.run_bind]
    rcases stream.run [] s with ⟨error | p, t⟩ <;> rfl
  have hok : ∀ {r : Except TagError (α × Nat)} {b : β} {n : Nat},
      (r.map fun p => (f p.1, p.2)) = .ok (b, n) → ∃ a, r = .ok (a, n) := by
    rintro (error | ⟨a, m⟩) b n ⟨⟩
    exact ⟨a, rfl⟩
  have herror : ∀ {r : Except TagError (α × Nat)} {error : TagError},
      (r.map fun p => (f p.1, p.2)) = .error error → r = .error error := by
    rintro (error | p) _ ⟨⟩
    rfl
  refine ⟨fun s hs => ?_, fun s hs b n hb => ?_, fun s hs expected got he => ?_,
    fun s hs error he hend => ?_⟩
  · rw [hrun, h.outcome s hs]
  · obtain ⟨a, ha⟩ := hok hb
    rw [hrun, h.of_ok s hs a n ha]
  · rw [hrun, h.of_end s hs expected got (herror he)]
  · rw [hrun]
    exact h.of_refused s hs error (herror he) hend

theorem encoders : Encoders encodedSize toBytes encodeInto writeTo where
  length v := by rw [toBytes_eq, length_encode]
  header v := by
    obtain ⟨header, body, he⟩ := List.exists_cons_of_ne_nil (encode_ne_nil v)
    exact ⟨header, body, (toBytes_eq v).trans he, sizeOfHeader_of_encode he⟩
  into_of_le v buffer h := by rw [encodeInto_of_le h, toBytes_eq]
  into_of_lt v buffer h := encodeInto_of_lt h
  to_sink v s hs := by rw [writeTo_of_unlimited hs, toBytes_eq]

theorem decoders : Decoders Reading.sizedVarint decode where
  outcome s hs := by rw [Reading.run_sizedVarint hs]
  of_ok s hs v n h := by
    rw [Reading.run_sizedVarint hs]
    cases hr : s.rest with
    | nil =>
      rw [hr] at h
      cases h
    | cons header rest =>
      rw [hr, decode_cons_eq_ok_iff] at h
      obtain ⟨hle, -, rfl⟩ := h
      have hmin : sizeOfHeader header ≤ (header :: rest).length := by
        rw [List.length_cons, sizeOfHeader]
        omega
      exact congrArg s.advance (Nat.min_eq_right hmin)
  of_end s hs expected got h := by
    rw [Reading.run_sizedVarint hs]
    cases hr : s.rest with
    | nil => rfl
    | cons header rest =>
      rw [hr, decode_cons_eq_error_iff] at h
      obtain ⟨hlt, -⟩ | ⟨-, -, -, h⟩ | ⟨-, -, -, h⟩ := h
      · exact congrArg s.advance (Nat.min_eq_left hlt.le)
      · cases h
      · cases h
  of_refused s hs error h hend := by
    rw [Reading.run_sizedVarint hs]
    cases hr : s.rest with
    | nil =>
      rw [hr, decode_nil_eq_error_iff] at h
      exact absurd ⟨1, 0, h⟩ hend
    | cons header rest =>
      rw [hr, decode_cons_eq_error_iff] at h
      refine ⟨header, rest, rfl, ?_⟩
      obtain ⟨-, rfl⟩ | ⟨h9, hle, -, rfl⟩ | ⟨-, hle, -, rfl⟩ := h
      · exact absurd ⟨_, _, rfl⟩ hend
      · refine ⟨.inl rfl, congrArg s.advance (Nat.min_eq_right ?_)⟩
        change sizeOfHeader header ≤ rest.length + 1
        omega
      · refine ⟨.inr ?_, congrArg s.advance (Nat.min_eq_right hle)⟩
        rw [sizeOfHeader, Nat.add_sub_cancel_left]

/-- **All ways to write a number leave the same bytes, and all ways to read one agree on every
input.** Written to bytes of its own, over a buffer or to a sink, a number takes the bytes of its
encoding, the first of which tells their number; a buffer that is too short stays as it is. Bytes
that are decoded where they lie and bytes that come from a source give the same number and length
or the same error, and the source is left behind what was looked at. So it is with signed numbers,
which go through `zigzag` and back. -/
theorem paths_agree :
    Encoders encodedSize toBytes encodeInto writeTo ∧
    Encoders signedSize (fun n => toBytes (zigzag n)) encodeSignedInto writeSignedTo ∧
    (∀ v, toBytes v = encode v) ∧
    Decoders Reading.sizedVarint decode ∧
    Decoders Reading.sizedSignedVarint decodeSigned ∧
    (∀ n, unzigzag (zigzag n) = n) ∧ ∀ u, zigzag (unzigzag u) = u :=
  ⟨encoders, encoders.comap zigzag, toBytes_eq, decoders, decoders.map unzigzag, unzigzag_zigzag,
    zigzag_unzigzag⟩

example : (Reading.sizedVarint.run [] (.ofBytes [0xF9, 0])).1 = .error (.unexpectedEnd 3 2) := by
  cbv

end Varint

end TagFormat
