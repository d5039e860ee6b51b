import TagFormat.Proofs.Varint.Canonical

/-! # Variable-length numbers: what the decoder accepts

The decoder accepts the bytes that start with an encoding, and the number that comes out is the one
that is encoded there (`decode_eq_ok_iff`). Since it reads one number at most, no encoding starts
another (`encode_prefix_iff`). Of the rest it refuses bytes that end within an encoding, a body of
eight bytes that spells too much, and a body that starts with zero although it has more than one
byte (`decode_cons_eq_error_iff`); the first byte alone tells which of these can happen.
`decode_partition` puts the cases side by side. -/

namespace TagFormat

namespace BigEndian

/-- A block that starts with zero spells a number that one byte less can hold. -/
theorem decode_lt_of_head? {bytes : Bytes} (h : bytes.head? = some 0) :
    decode bytes < 256 ^ (bytes.length - 1) := by
  obtain ⟨rest, rfl⟩ := List.head?_eq_some_iff.mp h
  have hrest := decode_lt rest
  rw [decode_cons, List.length_cons, Nat.add_sub_cancel]
  simpa using hrest

theorem width_decode_ne_iff {bytes : Bytes} (h : bytes ≠ []) :
    width (decode bytes) ≠ bytes.length ↔ 2 ≤ bytes.length ∧ bytes.head? = some 0 := by
  have hpos : 0 < bytes.length := List.length_pos_iff.mpr h
  rw [ne_eq, width_decode_eq_iff h, not_or, not_not]
  exact and_congr_left' (by omega)

end BigEndian

namespace Varint

open BigEndian (width)

/-! ### Encodings at the start of bytes -/

theorem encodedSize_le (v : UInt64) : encodedSize v ≤ 9 := by
  have hw := width_sub_base_le v
  unfold encodedSize sizeOfNat
  split_ifs <;> omega

theorem bodyLength_le (header : UInt8) : bodyLength header ≤ 8 := by
  have hh := header.toNat_lt
  unfold bodyLength base
  omega

-- the length is never to be computed while the header is not known
attribute [local irreducible] bodyLength

/-- The header of an encoding tells how long it is. -/
theorem length_of_encode_eq_cons {v : UInt64} {header : UInt8} {body : Bytes}
    (h : encode v = header :: body) : body.length = bodyLength header := by
  rcases (encode_eq_cons_iff v header body).mp h with ⟨h0, rfl, -⟩ | ⟨-, hl, -⟩
  · exact h0.symm
  · exact hl

theorem encode_prefix_cons_iff (v : UInt64) (header : UInt8) (rest : Bytes) :
    encode v <+: header :: rest ↔
      bodyLength header ≤ rest.length ∧ encode v = header :: rest.take (bodyLength header) := by
  constructor
  · rintro ⟨suffix, hs⟩
    obtain ⟨first, body, he⟩ := List.exists_cons_of_ne_nil (encode_ne_nil v)
    rw [he, List.cons_append, List.cons.injEq] at hs
    obtain ⟨rfl, rfl⟩ := hs
    have hl := length_of_encode_eq_cons he
    refine ⟨by rw [List.length_append]; omega, ?_⟩
    rw [he, ← hl, List.take_left]
  · rintro ⟨-, he⟩
    rw [he]
    exact List.prefix_cons_inj header |>.mpr (List.take_prefix _ rest)

theorem decode_cons_eq_ok_iff (header : UInt8) (rest : Bytes) (v : UInt64) (n : Nat) :
    decode (header :: rest) = .ok (v, n) ↔
      bodyLength header ≤ rest.length ∧ encode v = header :: rest.take (bodyLength header) ∧
        n = sizeOfHeader header := by
  rw [encode_eq_cons_iff, List.length_take]
  unfold decode sizeOfHeader
  simp only
  split_ifs with hshort hzero
  · simp only [false_iff, not_and]
    omega
  · have htake : rest.take (bodyLength header) = [] := by rw [hzero, List.take_zero]
    rw [htake, hzero, Except.ok.injEq, Prod.mk.injEq]
    constructor
    · rintro ⟨rfl, rfl⟩
      exact ⟨Nat.zero_le _, Or.inl ⟨rfl, rfl, rfl⟩, rfl⟩
    · rintro ⟨-, ⟨-, -, rfl⟩ | ⟨hpos, -⟩, rfl⟩
      · exact ⟨rfl, rfl⟩
      · exact absurd hpos (lt_irrefl 0)
  · have hpos : 0 < bodyLength header := Nat.pos_of_ne_zero hzero
    have hlen : bodyLength header ≤ rest.length := Nat.le_of_not_lt hshort
    cases decodeBody (rest.take (bodyLength header)) with
    | error error => simp [Except.map, hzero]
    | ok w =>
      simp only [Except.map, Except.ok.injEq, Prod.mk.injEq]
      constructor
      · rintro ⟨rfl, rfl⟩
        exact ⟨hlen, Or.inr ⟨hpos, Nat.min_eq_left hlen, rfl⟩, rfl⟩
      · rintro ⟨-, ⟨h0, -⟩ | ⟨-, -, rfl⟩, rfl⟩
        · exact absurd h0 hzero
        · exact ⟨rfl, rfl⟩

/-- **What is accepted** starts with the encoding of the number that comes out. -/
theorem decode_eq_ok_iff (bytes : Bytes) (v : UInt64) (n : Nat) :
    decode bytes = .ok (v, n) ↔ (encode v).length = n ∧ encode v <+: bytes := by
  cases bytes with
  | nil => simp [decode, encode_ne_nil v]
  | cons header rest =>
    rw [decode_cons_eq_ok_iff, encode_prefix_cons_iff]
    constructor
    · rintro ⟨hl, he, rfl⟩
      refine ⟨?_, hl, he⟩
      rw [he, List.length_cons, List.length_take, Nat.min_eq_left hl, sizeOfHeader, Nat.add_comm]
    · rintro ⟨rfl, hl, he⟩
      refine ⟨hl, he, ?_⟩
      rw [he, List.length_cons, List.length_take, Nat.min_eq_left hl, sizeOfHeader, Nat.add_comm]

theorem encode_append_inj {v w : UInt64} {x y : Bytes} :
    encode v ++ x = encode w ++ y ↔ v = w ∧ x = y := by
  constructor
  · intro h
    have hv := (decode_eq_ok_iff (encode v ++ x) v _).mpr ⟨rfl, List.prefix_append _ _⟩
    have hw := (decode_eq_ok_iff (encode w ++ y) w _).mpr ⟨rfl, List.prefix_append _ _⟩
    rw [h, hw, Except.ok.injEq, Prod.mk.injEq] at hv
    obtain ⟨rfl, -⟩ := hv
    exact ⟨rfl, List.append_cancel_left h⟩
  · rintro ⟨rfl, rfl⟩
    rfl

/-- **No encoding starts another.** -/
theorem encode_prefix_iff (v w : UInt64) : encode v <+: encode w ↔ v = w := by
  constructor
  · rintro ⟨x, hx⟩
    rw [← List.append_nil (encode w)] at hx
    exact (encode_append_inj.mp hx).1
  · rintro rfl
    exact List.prefix_rfl

/-! ### Refusals -/

/-- A body that spells too much has all of eight bytes and starts with one that is needed. -/
theorem length_eq_of_size_le {body : Bytes} (h8 : body.length ≤ 8)
    (hover : UInt64.size ≤ BigEndian.decode body + base) :
    body.length = 8 ∧ body.head? ≠ some 0 := by
  have hseven : ∀ k ≤ 7, 256 ^ k + base < UInt64.size := by
    intro k hk
    have hpow : 256 ^ k ≤ 256 ^ 7 := Nat.pow_le_pow_right (by norm_num) hk
    have hlt : 256 ^ 7 + base < UInt64.size := by decide
    omega
  constructor
  · by_contra hne
    have hbody := BigEndian.decode_lt body
    have hpow := hseven body.length (by omega)
    omega
  · intro hhead
    have hbody := BigEndian.decode_lt_of_head? hhead
    have hpow := hseven (body.length - 1) (by omega)
    omega

/-- The body that a header announces is refused because it spells too much, which takes eight
bytes, or because its first byte is not needed. -/
theorem decodeBody_eq_error_iff {body : Bytes} (h0 : body ≠ []) (h8 : body.length ≤ 8)
    (error : TagError) :
    decodeBody body = .error error ↔
      (body.length = 8 ∧ UInt64.size - 1 - base < BigEndian.decode body ∧
        error = .varintOverflow "u64") ∨
      (2 ≤ body.length ∧ body.head? = some 0 ∧
        error = .invalidVarint body.length "non-minimal encoding") := by
  have hbase : base < UInt64.size := by decide
  have hmin := BigEndian.width_decode_ne_iff h0
  unfold decodeBody
  simp only [sizeOfNat_add_base]
  split_ifs with hlength hover hlong
  · rcases hlength with hnil | hlong
    · exact absurd hnil h0
    · omega
  · obtain ⟨heq, hhead⟩ := length_eq_of_size_le h8 hover
    rw [Except.error.injEq]
    constructor
    · rintro rfl
      exact Or.inl ⟨heq, by omega, rfl⟩
    · rintro (⟨-, -, rfl⟩ | ⟨-, hzero, -⟩)
      · rfl
      · exact absurd hzero hhead
  · obtain ⟨htwo, hhead⟩ := hmin.mp (by omega)
    rw [Except.error.injEq]
    constructor
    · rintro rfl
      exact Or.inr ⟨htwo, hhead, rfl⟩
    · rintro (⟨-, hbig, -⟩ | ⟨-, -, rfl⟩)
      · omega
      · rfl
  · simp only [false_iff, not_or, not_and]
    refine ⟨fun _ hbig => by omega, fun htwo hhead => ?_⟩
    exact absurd (hmin.mpr ⟨htwo, hhead⟩) (by omega)

theorem decode_nil_eq_error_iff (error : TagError) :
    decode [] = .error error ↔ error = .unexpectedEnd 1 0 := by
  rw [decode, Except.error.injEq, eq_comm]

/-- **What is refused**: bytes that end within the encoding that their header announces, and bodies
that spell too much or start with a zero that is not needed. -/
theorem decode_cons_eq_error_iff (header : UInt8) (rest : Bytes) (error : TagError) :
    decode (header :: rest) = .error error ↔
      (rest.length + 1 < sizeOfHeader header ∧
        error = .unexpectedEnd (sizeOfHeader header) (rest.length + 1)) ∨
      (sizeOfHeader header = 9 ∧ 9 ≤ rest.length + 1 ∧
        UInt64.size - 1 - base < BigEndian.decode (rest.take 8) ∧
        error = .varintOverflow "u64") ∨
      (3 ≤ sizeOfHeader header ∧ sizeOfHeader header ≤ rest.length + 1 ∧ rest.head? = some 0 ∧
        error = .invalidVarint (sizeOfHeader header - 1) "non-minimal encoding") := by
  have hle := bodyLength_le header
  unfold decode
  simp only
  split_ifs with hshort hzero
  · rw [Except.error.injEq, Nat.add_comm 1 rest.length]
    unfold sizeOfHeader
    constructor
    · rintro rfl
      exact Or.inl ⟨by omega, rfl⟩
    · rintro (⟨-, rfl⟩ | ⟨h9, hl, -⟩ | ⟨-, hl, -⟩)
      · rfl
      · omega
      · omega
  · unfold sizeOfHeader
    simp only [false_iff, not_or, not_and]
    exact ⟨fun _ => by omega, fun _ => by omega, fun _ => by omega⟩
  · have hlen : (rest.take (bodyLength header)).length = bodyLength header := by
      rw [List.length_take]
      omega
    have hne : rest.take (bodyLength header) ≠ [] := by
      rw [← List.length_pos_iff]
      omega
    have hmap : ∀ r : Except TagError UInt64,
        r.map (·, 1 + bodyLength header) = .error error ↔ r = .error error := by
      rintro (e | v) <;> simp [Except.map]
    rw [hmap, decodeBody_eq_error_iff hne (by omega), hlen, List.head?_take, if_neg hzero]
    unfold sizeOfHeader
    constructor
    · rintro (⟨h8, hbig, rfl⟩ | ⟨htwo, hhead, rfl⟩)
      · exact Or.inr (Or.inl ⟨by omega, by omega, by rwa [← h8], rfl⟩)
      · exact Or.inr (Or.inr ⟨by omega, by omega, hhead, by rw [Nat.add_sub_cancel_left]⟩)
    · rintro (⟨hl, -⟩ | ⟨h9, -, hbig, rfl⟩ | ⟨h3, -, hhead, rfl⟩)
      · omega
      · have h8 : bodyLength header = 8 := by omega
        exact Or.inl ⟨h8, by rwa [h8], rfl⟩
      · exact Or.inr ⟨by omega, hhead, by rw [Nat.add_sub_cancel_left]⟩

/-- **The decoder accepts what starts with an encoding and sorts the rest by what is wrong with
it.** No number has two encodings, and none of the encodings starts another. The causes are told
apart by the header, the number of bytes and the body; some encoding or one cause fits any bytes. -/
theorem decode_partition :
    (∀ bytes v n, decode bytes = .ok (v, n) ↔ (encode v).length = n ∧ encode v <+: bytes) ∧
    (∀ v, 1 ≤ (encode v).length ∧ (encode v).length ≤ 9) ∧
    (∀ v w, encode v <+: encode w ↔ v = w) ∧
    (∀ bytes, decode bytes = .error (.unexpectedEnd 1 0) ↔ bytes = []) ∧
    ∀ header rest,
      let bytes := header :: rest
      let h := sizeOfHeader header
      (decode bytes = .error (.unexpectedEnd h bytes.length) ↔ bytes.length < h) ∧
      (decode bytes = .error (.varintOverflow "u64") ↔
        h = 9 ∧ 9 ≤ bytes.length ∧ UInt64.size - 1 - base < BigEndian.decode (rest.take 8)) ∧
      (decode bytes = .error (.invalidVarint (h - 1) "non-minimal encoding") ↔
        3 ≤ h ∧ h ≤ bytes.length ∧ rest.head? = some 0) ∧
      ((∃ v n, decode bytes = .ok (v, n)) ∨
        decode bytes = .error (.unexpectedEnd h bytes.length) ∨
        decode bytes = .error (.varintOverflow "u64") ∨
        decode bytes = .error (.invalidVarint (h - 1) "non-minimal encoding")) := by
  refine ⟨decode_eq_ok_iff, fun v => ?_, encode_prefix_iff, fun bytes => ?_, fun header rest => ?_⟩
  · rw [length_encode]
    exact ⟨encodedSize_pos v, encodedSize_le v⟩
  · cases bytes with
    | nil => simp [decode_nil_eq_error_iff]
    | cons header rest => simp [decode_cons_eq_error_iff]
  · intro bytes h
    have herror := decode_cons_eq_error_iff header rest
    refine ⟨by simp [bytes, h, herror], by simp [bytes, h, herror], by simp [bytes, h, herror], ?_⟩
    cases hd : decode bytes with
    | ok result => exact Or.inl ⟨result.1, result.2, rfl⟩
    | error error =>
      rcases (herror error).mp hd with ⟨-, rfl⟩ | ⟨-, -, -, rfl⟩ | ⟨-, -, -, rfl⟩
      · exact Or.inr (Or.inl rfl)
      · exact Or.inr (Or.inr (Or.inl rfl))
      · exact Or.inr (Or.inr (Or.inr rfl))

example : decode [0xF9, 0, 5] = .error (.invalidVarint 2 "non-minimal encoding") := by cbv

end Varint

end TagFormat
