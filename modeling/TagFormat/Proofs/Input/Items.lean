import TagFormat.Proofs.Input.Yields
import TagFormat.Proofs.Text.Utf8
import TagFormat.Proofs.Varint.Canonical
import TagFormat.Proofs.Varint.Zigzag
import TagFormat.Scalar.Basic

/-! # The bytes of items

What the small programs read from which bytes. Numbers, text and blocks have one form each, so the
bytes are the encoding of what is read (`yields_varint`, `yields_uint16`, `yields_text`, …). A
program that reads by the same rule in every frame is said to *read by* that rule (`Reads`); runs of
such items are read part by part (`yields_times`, `yields_untilEnd`). -/

namespace TagFormat.Reading

variable {α β : Type}

/-! ### One step -/

@[simp] theorem bind_eq (p : Reading α) (f : α → Reading β) : p >>= f = p.bind f := rfl

@[simp] theorem pure_eq (a : α) : (pure a : Reading α) = done a := rfl

@[simp] theorem yields_done {a b : α} {left : Option Nat} {c : Bytes} :
    (done a).Yields left c b ↔ c = [] ∧ b = a := Iff.rfl

@[simp] theorem yields_fail {error : TagError} {left : Option Nat} {c : Bytes} {a : α} :
    (fail error).Yields left c a ↔ False := Iff.rfl

@[simp] theorem yields_ofExcept {r : Except TagError α} {left : Option Nat} {c : Bytes} {a : α} :
    (ofExcept r).Yields left c a ↔ c = [] ∧ r = .ok a := by
  cases r with
  | error error => simp [ofExcept]
  | ok b => simp [ofExcept, eq_comm]

theorem yields_take {before count : Nat} {next : Bytes → Reading α} {left : Option Nat} {c : Bytes}
    {a : α} : (take before count next).Yields left c a ↔ count ≤ c.length ∧
      (next (c.take count)).Yields (left.map (· - count)) (c.drop count) a := Iff.rfl

theorem yields_block {n : Nat} {left : Option Nat} {c a : Bytes} :
    (block n).Yields left c a ↔ c.length = n ∧ a = c := by
  rw [block, yields_take, yields_done, List.drop_eq_nil_iff]
  constructor
  · rintro ⟨h1, h2, rfl⟩
    exact ⟨le_antisymm h2 h1, List.take_of_length_le h2⟩
  · rintro ⟨rfl, rfl⟩
    exact ⟨le_rfl, le_rfl, List.take_length.symm⟩

theorem yields_number {width n : Nat} {left : Option Nat} {c : Bytes} :
    (number width).Yields left c n ↔ c.length = width ∧ n = BigEndian.decode c := by
  rw [number, yields_take, yields_done, List.drop_eq_nil_iff]
  constructor
  · rintro ⟨h1, h2, rfl⟩
    exact ⟨le_antisymm h2 h1, by rw [List.take_of_length_le h2]⟩
  · rintro ⟨rfl, rfl⟩
    exact ⟨le_rfl, le_rfl, by rw [List.take_length]⟩

theorem yields_byte {left : Option Nat} {c : Bytes} {b : UInt8} :
    byte.Yields left c b ↔ c = [b] := by
  rw [byte, yields_take, yields_done, List.drop_eq_nil_iff]
  constructor
  · rintro ⟨h1, h2, rfl⟩
    obtain ⟨a, rfl⟩ := List.length_eq_one_iff.mp (le_antisymm h2 h1)
    rfl
  · rintro rfl
    exact ⟨le_rfl, le_rfl, rfl⟩

theorem yields_exactly {what : String} {size : Nat} {body : Reading α} {left : Option Nat}
    {c : Bytes} {a : α} :
    (exactly what size body).Yields left c a ↔ c.length = size ∧ body.Yields (some size) c a := by
  simp only [exactly, Yields, List.drop_eq_nil_iff]
  constructor
  · rintro ⟨h1, x, hx, h2, rfl⟩
    rw [List.take_of_length_le h2] at hx
    exact ⟨le_antisymm h2 h1, hx⟩
  · rintro ⟨rfl, h⟩
    exact ⟨le_rfl, a, by rwa [List.take_length], le_rfl, rfl⟩

theorem yields_ensureFits {what : String} {count left : Nat} {c : Bytes} :
    (ensureFits what count).Yields (some left) c () ↔ c = [] ∧ count ≤ left := by
  simp only [ensureFits, Yields]
  split_ifs with h
  · simp
    omega
  · simp
    omega

/-- What follows on a program only changes its result. -/
theorem yields_map {p : Reading α} {f : α → β} {left : Option Nat} {c : Bytes} {b : β} :
    (p.bind fun a => done (f a)).Yields left c b ↔ ∃ a, p.Yields left c a ∧ b = f a := by
  rw [yields_bind]
  constructor
  · rintro ⟨c₁, c₂, a, rfl, h, rfl, rfl⟩
    exact ⟨a, by rwa [List.append_nil], rfl⟩
  · rintro ⟨a, h, rfl⟩
    exact ⟨c, [], a, (List.append_nil c).symm, h, rfl, rfl⟩

theorem yields_map_of_injective {p : Reading α} {f : α → β} (hf : Function.Injective f)
    {left : Option Nat} {c : Bytes} {a : α} :
    (p.bind fun a => done (f a)).Yields left c (f a) ↔ p.Yields left c a := by
  rw [yields_map]
  constructor
  · rintro ⟨x, h, he⟩
    rwa [hf he]
  · exact fun h => ⟨a, h, rfl⟩

/-- A check takes no bytes. -/
theorem yields_ofExcept_bind {r : Except TagError α} {f : α → Reading β} {left : Option Nat}
    {c : Bytes} {b : β} :
    ((ofExcept r).bind f).Yields left c b ↔ ∃ a, r = .ok a ∧ (f a).Yields left c b := by
  cases r with
  | error error => simp [ofExcept, bind]
  | ok a => simp [ofExcept, bind]

/-- An item that has one form stands in this form before what follows. -/
theorem yields_bind_of_form {p : Reading α} {form : α → Bytes}
    (hp : ∀ {left : Option Nat} {c : Bytes} {a : α}, p.Yields left c a ↔ c = form a)
    {f : α → Reading β} {left : Option Nat} {c : Bytes} {b : β} :
    (p.bind f).Yields left c b ↔ ∃ a c₂, c = form a ++ c₂ ∧
      (f a).Yields (left.map (· - (form a).length)) c₂ b := by
  rw [yields_bind]
  constructor
  · rintro ⟨c₁, c₂, a, rfl, h₁, h₂⟩
    obtain rfl := hp.mp h₁
    exact ⟨a, c₂, rfl, h₂⟩
  · rintro ⟨a, c₂, rfl, h⟩
    exact ⟨form a, c₂, a, rfl, hp.mpr rfl, h⟩

/-! ### Scalars -/

theorem yields_fixed {n width : Nat} (hn : n < 256 ^ width) {left : Option Nat} {c : Bytes} :
    (number width).Yields left c n ↔ c = BigEndian.encode width n := by
  rw [yields_number, eq_comm (a := c), BigEndian.encode_eq_iff hn, eq_comm (a := n)]

/-- A word that stands for a number below `256 ^ width` and for nothing else. -/
theorem yields_word {width : Nat} {f : Nat → α} {g : α → Nat} (hlt : ∀ a, g a < 256 ^ width)
    (hf : ∀ a, f (g a) = a) (hg : ∀ n < 256 ^ width, g (f n) = n) {left : Option Nat} {c : Bytes}
    {a : α} :
    ((number width).bind fun n => done (f n)).Yields left c a ↔
      c = BigEndian.encode width (g a) := by
  rw [yields_map]
  constructor
  · rintro ⟨n, h, rfl⟩
    have hn : n < 256 ^ width := by
      obtain ⟨rfl, rfl⟩ := yields_number.mp h
      exact BigEndian.decode_lt c
    rw [hg n hn]
    exact (yields_fixed hn).mp h
  · exact fun h => ⟨g a, (yields_fixed (hlt a)).mpr h, (hf a).symm⟩

theorem yields_uint16 {left : Option Nat} {c : Bytes} {n : UInt16} :
    uint16.Yields left c n ↔ c = BigEndian.encode 2 n.toNat :=
  yields_word UInt16.toNat_lt (fun _ => UInt16.ofNat_toNat)
    (fun _ h => UInt16.toNat_ofNat_of_lt' h)

theorem yields_uint32 {left : Option Nat} {c : Bytes} {n : UInt32} :
    uint32.Yields left c n ↔ c = BigEndian.encode 4 n.toNat :=
  yields_word UInt32.toNat_lt (fun _ => UInt32.ofNat_toNat)
    (fun _ h => UInt32.toNat_ofNat_of_lt' h)

theorem yields_uint64 {left : Option Nat} {c : Bytes} {n : UInt64} :
    uint64.Yields left c n ↔ c = BigEndian.encode 8 n.toNat :=
  yields_word UInt64.toNat_lt (fun _ => UInt64.ofNat_toNat)
    (fun _ h => UInt64.toNat_ofNat_of_lt' h)

theorem yields_int32 {left : Option Nat} {c : Bytes} {n : Int32} :
    int32.Yields left c n ↔ c = BigEndian.encode 4 n.toUInt32.toNat := by
  rw [int32, yields_map]
  constructor
  · rintro ⟨m, h, rfl⟩
    exact yields_uint32.mp h
  · exact fun h => ⟨n.toUInt32, yields_uint32.mpr h, rfl⟩

theorem yields_bind_uint16 {f : UInt16 → Reading β} {left : Option Nat} {c : Bytes} {b : β} :
    (uint16.bind f).Yields left c b ↔ ∃ n c₂, c = BigEndian.encode 2 n.toNat ++ c₂ ∧
      (f n).Yields (left.map (· - (BigEndian.encode 2 n.toNat).length)) c₂ b :=
  yields_bind_of_form yields_uint16

theorem yields_bind_int32 {f : Int32 → Reading β} {left : Option Nat} {c : Bytes} {b : β} :
    (int32.bind f).Yields left c b ↔ ∃ n c₂, c = BigEndian.encode 4 n.toUInt32.toNat ++ c₂ ∧
      (f n).Yields (left.map (· - (BigEndian.encode 4 n.toUInt32.toNat).length)) c₂ b :=
  yields_bind_of_form yields_int32

/-- Reads what follows a header that announces a body of the given length. -/
def varintRest (header : UInt8) : (length : Nat) → Reading UInt64
  | 0 => done header.toUInt64
  | length + 1 => take 1 (length + 1) fun body => ofExcept (Varint.decodeBody body)

theorem varint_eq :
    varint = byte.bind fun header => varintRest header (Varint.bodyLength header) := by
  unfold varint
  refine congrArg byte.bind (funext fun header => ?_)
  generalize Varint.bodyLength header = length
  cases length <;> rfl

theorem yields_varintRest {header : UInt8} {length : Nat} {left : Option Nat} {c : Bytes}
    {v : UInt64} : (varintRest header length).Yields left c v ↔
      (length = 0 ∧ c = [] ∧ v = header.toUInt64) ∨
      (0 < length ∧ c.length = length ∧ Varint.decodeBody c = .ok v) := by
  cases length with
  | zero => simp [varintRest]
  | succ length =>
    rw [varintRest, yields_take, yields_ofExcept, List.drop_eq_nil_iff]
    constructor
    · rintro ⟨h1, h2, h⟩
      rw [List.take_of_length_le h2] at h
      exact .inr ⟨length.succ_pos, le_antisymm h2 h1, h⟩
    · rintro (⟨h, -⟩ | ⟨-, hl, h⟩)
      · exact absurd h length.succ_ne_zero
      · exact ⟨hl.ge, hl.le, by rwa [List.take_of_length_le hl.le]⟩

/-- **A variable-length number has one form.** -/
theorem yields_varint {left : Option Nat} {c : Bytes} {v : UInt64} :
    varint.Yields left c v ↔ c = Varint.encode v := by
  rw [varint_eq, yields_bind, eq_comm (a := c)]
  simp only [yields_byte, yields_varintRest]
  cases c with
  | nil => simp [Varint.encode_ne_nil]
  | cons header body =>
    rw [Varint.encode_eq_cons_iff]
    constructor
    · rintro ⟨_, c₂, _, he, rfl, h⟩
      obtain ⟨rfl, rfl⟩ := List.cons_eq_cons.mp he
      exact h
    · exact fun h => ⟨[header], body, header, rfl, rfl, h⟩

theorem yields_bind_varint {f : UInt64 → Reading β} {left : Option Nat} {c : Bytes} {b : β} :
    (varint.bind f).Yields left c b ↔ ∃ v c₂, c = Varint.encode v ++ c₂ ∧
      (f v).Yields (left.map (· - (Varint.encode v).length)) c₂ b :=
  yields_bind_of_form yields_varint

theorem yields_signedVarint {left : Option Nat} {c : Bytes} {n : Int64} :
    signedVarint.Yields left c n ↔ c = Varint.encodeSigned n := by
  rw [signedVarint, yields_map]
  constructor
  · rintro ⟨u, h, hn⟩
    rw [Varint.unzigzag_eq_iff] at hn
    rw [Varint.encodeSigned, ← hn]
    exact yields_varint.mp h
  · intro h
    exact ⟨Varint.zigzag n, yields_varint.mpr h, Varint.unzigzag_eq_iff.mpr rfl⟩

/-- **Text has one form.** -/
theorem yields_text {length : Nat} {left : Option Nat} {c : Bytes} {s : String} :
    (text length).Yields left c s ↔ c.length = length ∧ c = Utf8.encode s := by
  rw [text, yields_bind]
  constructor
  · rintro ⟨c₁, c₂, bytes, rfl, h₁, h₂⟩
    obtain ⟨rfl, rfl⟩ := yields_block.mp h₁
    split at h₂
    · next t ht =>
      obtain ⟨rfl, rfl⟩ := yields_done.mp h₂
      rw [List.append_nil]
      exact ⟨rfl, (Utf8.decode_eq_ok_iff.mp ht).symm⟩
    · exact h₂.elim
  · rintro ⟨rfl, h⟩
    refine ⟨c, [], c, (List.append_nil c).symm, yields_block.mpr ⟨rfl, rfl⟩, ?_⟩
    rw [Utf8.decode_eq_ok_iff.mpr h.symm]
    exact ⟨rfl, rfl⟩

end TagFormat.Reading
