import TagFormat.Proofs.Output.Capacity
import TagFormat.Proofs.Varint.Paths
import TagFormat.Scalar.Script

/-! # Items one after another

An item is read from its bytes by the program of its kind, whatever follows (`run_read`), and from
fewer of them than all it is not: the program asks for all bytes of an item at once, or for the
header of a variable-length number and then for its body, and in either case tells how many of them
there were (`run_read_cut`). So items that are written one after another come back in order, and
bytes that are cut anywhere give the items before the cut and the count of what is left for the next
(`items_round_trip`). -/

namespace TagFormat

-- the length is never to be computed while the header is not known
attribute [local irreducible] Varint.bodyLength

/-! ### Numbers in two's complement -/

/-- A word and the number that it is with a sign differ by a multiple of what it can count. -/
theorem toInt_emod {width : Nat} (x : BitVec width) : x.toInt % 2 ^ width = x.toNat % 2 ^ width := by
  have hmod := Int.bmod_emod (x := x.toNat) (m := 2 ^ width)
  rw [← BitVec.toInt_eq_toNat_bmod] at hmod
  exact_mod_cast hmod

namespace BigEndian

theorem encode_one (b : UInt8) : encode 1 b.toNat = [b] :=
  congrArg (fun c => [c]) UInt8.ofNat_toNat

/-- Bytes spell every number that is the same modulo what they can count. -/
theorem spells {width m : Nat} {n : Int} (h : n % 256 ^ width = m % 256 ^ width) :
    (encode width m).length = width ∧ (decode (encode width m) : Int) = n % 256 ^ width := by
  refine ⟨length_encode width m, ?_⟩
  rw [decode_encode, h]
  push_cast
  rfl

end BigEndian

namespace Scalar

/-- The bytes of items one after another. -/
def bytes (items : List Scalar) : Bytes :=
  items.flatMap encode

/-- The width in bytes and the number of an item of a fixed width. The number of a floating-point
item is that of its bits. -/
def fixed? : Scalar → Option (Nat × Int)
  | uint8 n => some (1, n.toNat)
  | int8 n => some (1, n.toInt)
  | uint16 n => some (2, n.toNat)
  | int16 n => some (2, n.toInt)
  | uint32 n => some (4, n.toNat)
  | int32 n => some (4, n.toInt)
  | uint64 n => some (8, n.toNat)
  | int64 n => some (8, n.toInt)
  | float32 bits => some (4, bits.toNat)
  | float64 bits => some (8, bits.toNat)
  | varint _ | signedVarint _ | block _ | text _ => none

variable {item : Scalar}

/-- **Numbers of a fixed width** take as many bytes as it says, which spell the number modulo what
so many bytes can count. -/
theorem encode_of_fixed? {width : Nat} {n : Int} (h : item.fixed? = some (width, n)) :
    item.encode.length = width ∧ (BigEndian.decode item.encode : Int) = n % 256 ^ width := by
  cases item with
  | uint8 m =>
    obtain ⟨rfl, rfl⟩ := Prod.mk.inj (Option.some.inj h)
    rw [encode, ← BigEndian.encode_one]
    exact BigEndian.spells rfl
  | int8 m =>
    obtain ⟨rfl, rfl⟩ := Prod.mk.inj (Option.some.inj h)
    rw [encode, ← BigEndian.encode_one]
    exact BigEndian.spells (toInt_emod m.toBitVec)
  | uint16 | uint32 | uint64 | float32 | float64 =>
    obtain ⟨rfl, rfl⟩ := Prod.mk.inj (Option.some.inj h)
    exact BigEndian.spells rfl
  | int16 m | int32 m | int64 m =>
    obtain ⟨rfl, rfl⟩ := Prod.mk.inj (Option.some.inj h)
    exact BigEndian.spells (toInt_emod m.toBitVec)
  | varint | signedVarint | block | text => cases h

theorem bytes_append_cons (before : List Scalar) (item : Scalar) (after : List Scalar) :
    bytes (before ++ item :: after) = bytes before ++ item.encode ++ bytes after := by
  rw [bytes, List.flatMap_append, List.flatMap_cons, ← List.append_assoc]
  rfl

/-! ### Writing -/

/-- **Items are written one after another** to a sink that has room for them. -/
theorem runAll_push {items : List Scalar} {t : Tally} (h : t.sink.Fits (bytes items).length) :
    (Order.runAll (items.map .push) t).2 = (.ok (), { sink := t.sink.take (bytes items),
                                                      count := t.count + (bytes items).length }) := by
  have hflatten : ((items.map Order.push).map Order.block).flatten = bytes items := by
    rw [List.map_map, bytes, List.flatMap]
    rfl
  rw [Order.runAll_snd, Writing.pushAll_of_fits (by rwa [hflatten]), hflatten]

/-! ### Reading one item -/

/-- **An item is read from its bytes.** -/
theorem yields_read (item : Scalar) (left : Option Nat) :
    item.kind.read.Yields left item.encode item := by
  cases item with
  | uint8 n => exact Reading.yields_map.mpr ⟨n, Reading.yields_byte.mpr rfl, rfl⟩
  | int8 n =>
    exact Reading.yields_map.mpr ⟨n.toUInt8, Reading.yields_byte.mpr rfl, by
      rw [Int8.toInt8_toUInt8]⟩
  | uint16 n => exact Reading.yields_map.mpr ⟨n, Reading.yields_uint16.mpr rfl, rfl⟩
  | int16 n =>
    exact Reading.yields_map.mpr ⟨n.toUInt16, Reading.yields_uint16.mpr rfl, by
      rw [Int16.toInt16_toUInt16]⟩
  | uint32 n | float32 n => exact Reading.yields_map.mpr ⟨n, Reading.yields_uint32.mpr rfl, rfl⟩
  | int32 n => exact Reading.yields_map.mpr ⟨n, Reading.yields_int32.mpr rfl, rfl⟩
  | uint64 n | float64 n => exact Reading.yields_map.mpr ⟨n, Reading.yields_uint64.mpr rfl, rfl⟩
  | int64 n =>
    exact Reading.yields_map.mpr ⟨n.toUInt64, Reading.yields_uint64.mpr rfl, by
      rw [Int64.toInt64_toUInt64]⟩
  | varint n => exact Reading.yields_map.mpr ⟨n, Reading.yields_varint.mpr rfl, rfl⟩
  | signedVarint n => exact Reading.yields_map.mpr ⟨n, Reading.yields_signedVarint.mpr rfl, rfl⟩
  | block b => exact Reading.yields_map.mpr ⟨b, Reading.yields_block.mpr ⟨rfl, rfl⟩, rfl⟩
  | text s => exact Reading.yields_map.mpr ⟨s, Reading.yields_text.mpr ⟨rfl, rfl⟩, rfl⟩

theorem run_read {s : Source} {rest : Bytes} (h : s.rest = item.encode ++ rest) :
    item.kind.read.run [] s = (.ok item, s.advance item.encode.length) :=
  Reading.run_of_yields h (List.forall_mem_nil _) (yields_read item _)

/-- How many bytes an item asks for where `got` of them are there: all of them at once, but of a
variable-length number the header first. -/
def asked (got : Nat) (item : Scalar) : Nat :=
  match item with
  | varint _ | signedVarint _ => if got = 0 then 1 else item.encode.length
  | _ => item.encode.length

/-- Of a number that breaks off, the count says how much there was. -/
theorem decode_of_prefix {v : UInt64} {c : Bytes} (h : c <+: Varint.encode v)
    (hlt : c.length < (Varint.encode v).length) : Varint.decode c =
      .error (.unexpectedEnd (if c.length = 0 then 1 else (Varint.encode v).length) c.length) := by
  cases c with
  | nil => rfl
  | cons header rest =>
    obtain ⟨body, hbody⟩ := h
    have hsize := Varint.sizeOfHeader_of_encode hbody.symm
    rw [← Varint.length_encode] at hsize
    refine (Varint.decode_cons_eq_error_iff header rest _).mpr (.inl ⟨?_, ?_⟩)
    · rw [hsize]
      exact hlt
    · rw [hsize, List.length_cons, if_neg (Nat.succ_ne_zero _)]

theorem run_varint_cut {s : Source} {v : UInt64} (hf : s.failure = none)
    (h : s.rest <+: Varint.encode v) (hlt : s.rest.length < (Varint.encode v).length) :
    Reading.varint.run [] s = (.error (.unexpectedEnd
      (if s.rest.length = 0 then 1 else (Varint.encode v).length) s.rest.length),
      s.advance s.rest.length) := by
  have hdecode := decode_of_prefix h hlt
  have hrun : (Reading.sizedVarint.run [] s).1 = _ := Varint.decoders.outcome s hf
  have hend := Varint.decoders.of_end s hf _ _ hdecode
  rw [hdecode] at hrun
  rw [Reading.varint_eq_sized]
  exact Reading.run_bind_of_error (Prod.ext hrun hend)

/-- Unless it is a variable-length number, an item asks for all of its bytes at once. -/
theorem varint_or_read_eq_take (item : Scalar) : (∃ v, item = varint v) ∨
    (∃ n, item = signedVarint n) ∨
      (∀ got, item.asked got = item.encode.length) ∧
        ∃ next, item.kind.read = .take 0 item.encode.length next := by
  cases item with
  | varint v => exact .inl ⟨v, rfl⟩
  | signedVarint n => exact .inr (.inl ⟨n, rfl⟩)
  | uint8 | int8 | uint16 | int16 | uint32 | int32 | uint64 | int64 | float32 | float64 | block
    | text => exact .inr (.inr ⟨fun _ => rfl, _, rfl⟩)

/-- **Where an item breaks off**, the count says how many of its bytes there were. -/
theorem run_read_cut {s : Source} (hf : s.failure = none) (h : s.rest <+: item.encode)
    (hlt : s.rest.length < item.encode.length) : item.kind.read.run [] s =
      (.error (.unexpectedEnd (item.asked s.rest.length) s.rest.length),
        s.advance s.rest.length) := by
  rcases varint_or_read_eq_take item with ⟨v, rfl⟩ | ⟨n, rfl⟩ | ⟨hasked, next, hread⟩
  · exact Reading.run_bind_of_error (run_varint_cut hf h hlt)
  · exact Reading.run_bind_of_error (Reading.run_bind_of_error (run_varint_cut hf h hlt))
  · have hallowed : s.rest.length < Reading.allowed [] s.pos item.encode.length := hlt
    rw [hread, Reading.run_take_of_lt hf hallowed, hasked, Nat.zero_add, Nat.zero_add]

/-! ### Reading all items -/

/-- The steps that read items back. -/
def readSteps (items : List Scalar) : List Step :=
  items.map fun item => .item item.kind

/-- An item that is read, with the steps after it. -/
theorem runAll_cons {s : Source} {rest : Bytes} (h : s.rest = item.encode ++ rest)
    (steps : List Step) :
    let others := Step.runAll [] (s.advance item.encode.length) steps
    Step.runAll [] s (.item item.kind :: steps) =
      { others with log := .item item :: others.log } := by
  rw [Step.runAll, Step.run, run_read h]
  rfl

/-- **Items are read one after another**, and then come the steps after them. -/
theorem runAll_append : ∀ {items : List Scalar} {s : Source} {rest : Bytes},
    s.rest = bytes items ++ rest → ∀ steps : List Step,
      let others := Step.runAll [] (s.advance (bytes items).length) steps
      Step.runAll [] s (readSteps items ++ steps) =
        { others with log := items.map .item ++ others.log }
  | [], s, _, _, steps => by
    rw [bytes, List.flatMap_nil, List.length_nil, Source.advance_zero]
    rfl
  | item :: items, s, rest, h, steps => by
    rw [bytes, List.flatMap_cons, List.append_assoc] at h
    have hitems := runAll_append (Source.rest_advance h) steps
    rw [Source.advance_advance, ← List.length_append] at hitems
    change Step.runAll [] s (.item item.kind :: (readSteps items ++ steps)) = _
    rw [runAll_cons h, hitems]
    rfl

/-- Where an item fails, the steps after it are not run. -/
theorem runAll_cons_of_error {s t : Source} {error : TagError}
    (h : item.kind.read.run [] s = (.error error, t)) (steps : List Step) :
    Step.runAll [] s (.item item.kind :: steps) =
      { log := [], outcome := .error error, source := t } := by
  rw [Step.runAll, Step.run, h]

/-- **Bytes that are cut** end within one of the items. -/
theorem exists_cut : ∀ {items : List Scalar} {p : Bytes}, p <+: bytes items → p ≠ bytes items →
    ∃ before item after c, items = before ++ item :: after ∧ p = bytes before ++ c ∧
      c <+: item.encode ∧ c.length < item.encode.length
  | [], p, h, hne => absurd (List.prefix_nil.mp h) hne
  | item :: items, p, h, hne => by
    have hbytes : bytes (item :: items) = item.encode ++ bytes items := rfl
    rw [hbytes] at h hne
    rcases Nat.lt_or_ge p.length item.encode.length with hlt | hge
    · have hp := List.prefix_of_prefix_length_le h (List.prefix_append _ _) hlt.le
      exact ⟨[], item, items, p, rfl, rfl, hp, hlt⟩
    · obtain ⟨q, rfl⟩ := List.prefix_of_prefix_length_le (List.prefix_append _ _) h hge
      obtain ⟨before, next, after, c, rfl, rfl, hc⟩ :=
        exists_cut ((List.prefix_append_right_inj _).mp h) fun heq => hne (congrArg _ heq)
      refine ⟨item :: before, next, after, c, rfl, ?_, hc⟩
      rw [← List.append_assoc]
      rfl

/-- **Lists of items of any types come back as they were written.** Written one after another to a
sink that has room for them, whatever its pace, they leave their bytes, all of which are counted;
read with their kinds from a source of any pace that goes on in any way, they come back in order and
bit for bit, and the source is left where their bytes end. Each number of a fixed width takes as many
bytes as it says, most significant first, which spell it in two's complement. Of bytes that break off
anywhere, exactly the items are read that lie before the cut as a whole, and the next one fails at the
end of the bytes, with the number of those that were left for it. -/
theorem items_round_trip (items : List Scalar) :
    (∀ t : Tally, t.sink.Fits (bytes items).length →
      (Order.runAll (items.map .push) t).2 = (.ok (), { sink := t.sink.take (bytes items),
                                                        count := t.count + (bytes items).length })) ∧
    (∀ (s : Source) (rest : Bytes), s.rest = bytes items ++ rest →
      Step.runAll [] s (readSteps items) = { log := items.map .item, outcome := .ok (),
                                             source := s.advance (bytes items).length }) ∧
    (∀ item ∈ items, ∀ width n, item.fixed? = some (width, n) →
      item.encode.length = width ∧ (BigEndian.decode item.encode : Int) = n % 256 ^ width) ∧
    ∀ s : Source, s.failure = none → s.rest <+: bytes items → s.rest ≠ bytes items →
      ∃ before item after, items = before ++ item :: after ∧
        (bytes before).length ≤ s.rest.length ∧
        s.rest.length < (bytes (before ++ [item])).length ∧
        let got := s.rest.length - (bytes before).length
        Step.runAll [] s (readSteps items) =
          { log := before.map .item, outcome := .error (.unexpectedEnd (item.asked got) got),
            source := s.advance s.rest.length } := by
  refine ⟨fun t h => runAll_push h, fun s rest h => ?_, fun item _ width n h => encode_of_fixed? h,
    fun s hf h hne => ?_⟩
  · have hall := runAll_append h []
    simp only [List.append_nil] at hall
    rw [hall, Step.runAll, List.append_nil]
  · obtain ⟨before, item, after, c, rfl, hs, hc, hlt⟩ := exists_cut h hne
    have hrest : (s.advance (bytes before).length).rest = c := Source.rest_advance hs
    have hlen : s.rest.length = (bytes before).length + c.length := by
      rw [hs, List.length_append]
    have hcut := run_read_cut (s := s.advance (bytes before).length) hf (by rwa [hrest])
      (by rwa [hrest])
    rw [hrest, Source.advance_advance, ← hlen] at hcut
    have hsteps : readSteps (before ++ item :: after) =
        readSteps before ++ .item item.kind :: readSteps after := List.map_append
    have hrun := runAll_append hs (.item item.kind :: readSteps after)
    rw [runAll_cons_of_error hcut] at hrun
    refine ⟨before, item, after, rfl, by omega, ?_, ?_⟩
    · rw [bytes_append_cons, List.length_append, List.length_append]
      omega
    · rw [hsteps, hrun, hlen, Nat.add_sub_cancel_left]
      simp only [List.append_nil]

/-- No bytes, a number below zero, one of variable length and a text, and the same cut after the
header of the third. -/
theorem items_round_trip_mixed :
    let items : List Scalar := [.block [], .int16 (-2), .varint 300, .text "é"]
    let all : Bytes := [0xFF, 0xFE, 0xF8, 0x34, 0xC3, 0xA9]
    (Order.runAll (items.map .push) { sink := {} }).2 =
      (.ok (), { sink := { taken := all }, count := 6 }) ∧
    (Step.runAll [] (.ofBytes (all ++ [7])) (readSteps items)).log = items.map .item ∧
    (BigEndian.decode (int16 (-2)).encode : Int) = -2 % 256 ^ 2 ∧
    ∃ before item after, items = before ++ item :: after ∧ (bytes before).length ≤ 3 ∧
      3 < (bytes (before ++ [item])).length ∧
      (Step.runAll [] (.ofBytes [0xFF, 0xFE, 0xF8]) (readSteps items)).log = before.map .item := by
  intro items all
  have hbytes : bytes items = all := by cbv
  obtain ⟨hwrite, hread, hfixed, hcut⟩ := items_round_trip items
  rw [hbytes] at hwrite hread hcut
  refine ⟨hwrite { sink := {} } (fun cap h => by cases h), ?_, ?_, ?_⟩
  · rw [hread (.ofBytes (all ++ [7])) [7] rfl]
  · exact (hfixed (.int16 (-2)) (by simp [items]) 2 (-2) (by decide)).2
  · obtain ⟨before, item, after, hitems, hle, hlt, hrun⟩ :=
      hcut (.ofBytes [0xFF, 0xFE, 0xF8]) rfl ⟨[0x34, 0xC3, 0xA9], rfl⟩ (by decide)
    exact ⟨before, item, after, hitems, hle, hlt, by rw [hrun]⟩

end Scalar

end TagFormat
