import Mathlib.Data.List.Permutation
import TagFormat.Proofs.Input.Rounds
import TagFormat.Proofs.Registry.RoundTrip
import TagFormat.Proofs.Registry.Skip
import TagFormat.Proofs.Registry.Tally
import TagFormat.Proofs.Tag.Items

/-! # What the bytes make a registry do

Whatever counts and sizes the bytes claim, a tag has no more items than it has bytes, every call for
a tag that succeeds has taken a byte (`advances_readTag`, `advances_readInto`), and so each round of
the loops in a payload leaves less of its frame (`loopsEnd`). Of the calls that are counted at all
depths (`Thread.callTag`, `Thread.callInto`) no more begin than bytes are taken, but for one that
fails (`paid_callTag`, `paid_callInto`). -/

namespace TagFormat

open Reading

/-! ### Calls take a byte -/

namespace Registry

variable (r : Registry)

theorem advances_refuseDepth {α : Type} : (r.refuseDepth : Reading α).Advances :=
  advances_fail _

theorem advances_expectId (expected : UInt64) : (expectId expected).Advances :=
  advances_varint.bind _

theorem advances_readTag (depth : Nat) : (r.readTag depth).Advances := by
  cases depth with
  | zero => exact r.advances_refuseDepth
  | succ depth => exact advances_varint.bind _

theorem advances_readString (depth : Nat) : (r.readString depth).Advances := by
  cases depth with
  | zero => exact r.advances_refuseDepth
  | succ depth => exact (advances_expectId _).bind _

theorem advances_readInto (target : Tag) : (r.readInto target).Advances := by
  unfold readInto
  cases r.levels with
  | zero => exact r.advances_refuseDepth
  | succ depth => exact (advances_expectId _).bind _

theorem advances_readAs {α : Type} (id : UInt64) (payload : Declared → Reading α) :
    (r.readAs id payload).Advances :=
  (advances_expectId id).bind _

/-! ### Loops come to an end -/

/-- The loops over what stands in a payload, with `depth` levels left for it and in a frame that ends
at `stop`, come to an end in rounds each of which leaves less of the frame. -/
structure LoopsEnd (depth stop : Nat) (around : List Nat) (s : Source) : Prop where
  numbers : ∀ count, Ends (countedRound varint) (fun st => st.2.reverse) stop around (count, []) s
    ((varint.times count).run (stop :: around) s)
  array : ∀ count, Ends (countedRound (r.readTag depth)) (fun st => st.2.reverse) stop around
    (count, []) s (((r.readTag depth).times count).run (stop :: around) s)
  sequence : ∀ size, stop = s.pos + size → Ends (sequenceRound (r.readTag depth)) List.reverse stop
    around [] s (((r.readTag depth).untilEnd size).run (stop :: around) s)
  dictionary : ∀ what count, Ends (entryRound what (r.readString depth) (r.readTag depth)) Prod.snd
    stop around (count, ∅) s
    ((entriesInto what (r.readString depth) (r.readTag depth) count ∅).run (stop :: around) s)
  stringDictionary : ∀ what count, Ends (entryRound what (r.readString depth) (r.readString depth))
    Prod.snd stop around (count, ∅) s
    ((entriesInto what (r.readString depth) (r.readString depth) count ∅).run (stop :: around) s)

theorem loopsEnd (depth stop : Nat) (around : List Nat) (s : Source) :
    r.LoopsEnd depth stop around s where
  numbers count := ends_times advances_varint count s
  array count := ends_times (r.advances_readTag depth) count s
  sequence size h := h ▸ ends_untilEnd (r.advances_readTag depth) size s
  dictionary _ _ := ends_entriesInto (r.advances_readString depth)
  stringDictionary _ _ := ends_entriesInto (r.advances_readString depth)

end Registry

/-! ### Calls are paid for -/

namespace Thread

variable {α β : Type}

/-- A call that is under way when an error ends it. -/
def spare : Except TagError α → Nat
  | .ok _ => 0
  | .error _ => 1

/-- It comes to what the program comes to, and the calls that begin are paid for: there are no more
of them than bytes are taken, and one if it fails. -/
def Paid (act : Thread α) (p : Reading α) : Prop :=
  ∀ stops calls s, ∃ calls', act stops calls s = ((p.run stops s).1, calls', (p.run stops s).2) ∧
    calls' + s.pos ≤ calls + (p.run stops s).2.pos + spare (p.run stops s).1

theorem pos_le_run (p : Reading α) (stops : List Nat) (s : Source) :
    s.pos ≤ (p.run stops s).2.pos := by
  obtain ⟨n, -, ht, -⟩ := p.onward_run stops s
  rw [ht, Source.advance_pos]
  exact Nat.le_add_right ..

theorem paid_plain (p : Reading α) : (plain p).Paid p := fun stops calls s => by
  have := pos_le_run p stops s
  exact ⟨calls, rfl, by omega⟩

theorem Paid.bind {first : Thread α} {next : α → Thread β} {p : Reading α} {q : α → Reading β}
    (h : first.Paid p) (hn : ∀ a, (next a).Paid (q a)) : (first.bind next).Paid (p.bind q) := by
  intro stops calls s
  obtain ⟨m, hfirst, hm⟩ := h stops calls s
  rw [Thread.bind, hfirst, run_bind]
  generalize p.run stops s = r at hm
  obtain ⟨error | a, t⟩ := r
  · exact ⟨m, rfl, hm⟩
  · obtain ⟨n, hnext, hn⟩ := hn a stops m t
    refine ⟨n, hnext, ?_⟩
    change m + s.pos ≤ calls + t.pos + 0 at hm
    simp only
    omega

theorem Paid.room {next : Option Nat → Thread α} {q : Option Nat → Reading α}
    (hn : ∀ left, (next left).Paid (q left)) : (room next).Paid (.room q) := by
  intro stops calls s
  rw [Thread.room, run]
  exact hn _ stops calls s

theorem Paid.exactly {body : Thread α} {p : Reading α} (h : body.Paid p) (what : String)
    (size : Nat) : (exactly what size body).Paid (.exactly what size p) := by
  intro stops calls s
  obtain ⟨n, hbody, hn⟩ := h ((s.pos + size) :: stops) calls s
  rw [Thread.exactly, hbody, run_exactly]
  refine ⟨n, rfl, ?_⟩
  -- a frame may turn a result into an error but not the other way round
  have hspare : spare (p.run ((s.pos + size) :: stops) s).1 ≤
      spare (leave what size (s.pos + size) (p.run ((s.pos + size) :: stops) s)).1 := by
    rcases p.run ((s.pos + size) :: stops) s with ⟨error | a, t⟩
    · cases hl : (leave what size (s.pos + size) (.error error, t) : Except TagError α × Source).1 with
      | error _ => exact le_rfl
      | ok a =>
        have hok := leave_eq_ok_iff.mp (Prod.ext hl rfl : leave what size (s.pos + size) _ = (.ok a, _))
        cases (Prod.mk.inj hok.1).1
    · exact Nat.zero_le _
  rw [leave_snd]
  omega

/-- Calls are paid for where those of the level below are. -/
theorem paid_onThread {f : Inner → Reading α} (h : Calls f) {tag : Thread Tag}
    {string : Thread String} {inner : Inner} (ht : tag.Paid inner.tag)
    (hs : string.Paid inner.string) : (h.onThread tag string).Paid (f inner) := by
  induction h with
  | none p => exact paid_plain p
  | tag => exact ht
  | string => exact hs
  | bind first next ih ihn => exact ih.bind ihn
  | room next ih => exact Paid.room ih
  | exactly what size body ih => exact ih.exactly what size

/-- **A call is paid for** by the byte that its beginning takes. -/
theorem paid_begun {p : Reading α} (h : p.Advances) {next : α → Thread β} {q : α → Reading β}
    (hn : ∀ a, (next a).Paid (q a)) : (begun ((plain p).bind next)).Paid (p.bind q) := by
  intro stops calls s
  rw [begun, Thread.bind, plain, run_bind]
  rcases hp : p.run stops s with ⟨error | a, t⟩
  · have hpos := pos_le_run p stops s
    rw [hp] at hpos
    refine ⟨calls + 1, rfl, ?_⟩
    simp only [spare] at hpos ⊢
    omega
  · obtain ⟨m, hm, -, rfl⟩ := h _ _ _ _ hp
    obtain ⟨n, hnext, hn⟩ := hn a stops (calls + 1) (s.advance m)
    refine ⟨n, hnext, ?_⟩
    rw [Source.advance_pos] at hn
    simp only
    omega

theorem paid_begun_plain {p : Reading α} (h : p.Advances) : (begun (plain p)).Paid p := by
  intro stops calls s
  rcases hp : p.run stops s with ⟨error | a, t⟩
  all_goals
    have hpos := pos_le_run p stops s
    refine ⟨calls + 1, by rw [begun, plain, hp], ?_⟩
    rw [hp] at hpos
    simp only [spare] at hpos ⊢
  · omega
  · obtain ⟨m, hm, -, rfl⟩ := h _ _ _ _ hp
    rw [Source.advance_pos]
    omega

variable (r : Registry)

theorem paid_callString (depth : Nat) : (callString r depth).Paid (r.readString depth) :=
  paid_begun_plain (r.advances_readString depth)

/-- The programs for the level below, which count their calls. -/
theorem paid_inner {depth : Nat} (ht : (callTag r depth).Paid (r.readTag depth)) {α : Type}
    {f : Inner → Reading α} (h : Calls f) :
    (h.onThread (callTag r depth) (callString r depth)).Paid (f (r.inner depth)) :=
  paid_onThread h ht (paid_callString r depth)

/-- **Calls for tags** are paid for, at every depth. -/
theorem paid_callTag : ∀ depth : Nat, (callTag r depth).Paid (r.readTag depth)
  | 0 => paid_begun_plain r.advances_refuseDepth
  | depth + 1 => paid_begun advances_varint fun id => paid_inner r (paid_callTag depth)
      ((Calls.none (ofExcept (r.kindOf id))).bind fun kind => r.bodyCalls id kind)

theorem paid_callInto (target : Tag) (depth : Nat) :
    (callInto r target depth).Paid (intoProgram r target depth) := by
  cases depth with
  | zero => exact paid_begun_plain r.advances_refuseDepth
  | succ depth =>
    exact paid_begun (Registry.advances_expectId _) fun _ =>
      paid_inner r (paid_callTag r depth) (r.bodyCalls target.id target.payload.kind)

end Thread

namespace Registry

variable (r : Registry)

/-! ### All bytes -/

theorem items_le_of_parse {bytes : Bytes} {t : Tag} (h : r.parse bytes = .ok t) :
    t.items ≤ bytes.length := by
  obtain ⟨-, hs⟩ := parse_eq_ok_iff.mp h
  rw [← hs.length_eq]
  exact t.items_le_length_cells

/-- From bytes no more calls begin than there are bytes, but for one that fails. -/
theorem exists_calls_le {α : Type} {act : Thread α} {p : Reading α} (h : act.Paid p)
    (bytes : Bytes) : ∃ calls ≤ bytes.length + 1, act [] 0 (.ofBytes bytes) =
      ((p.run [] (.ofBytes bytes)).1, calls, (p.run [] (.ofBytes bytes)).2) := by
  obtain ⟨calls, hact, hcalls⟩ := h [] 0 (.ofBytes bytes)
  obtain ⟨n, hn, ht, -⟩ := p.onward_run [] (.ofBytes bytes)
  have hspare : Thread.spare (p.run [] (.ofBytes bytes)).1 ≤ 1 := by
    cases (p.run [] (.ofBytes bytes)).1 with
    | error error => exact le_rfl
    | ok a => exact Nat.zero_le _
  rw [ht, Source.advance_pos] at hcalls
  change n ≤ bytes.length at hn
  change calls + 0 ≤ 0 + (0 + n) + _ at hcalls
  exact ⟨calls, by omega, hact⟩

/-- **No amplification, and an end.** For every registry: a tag that bytes are parsed as has no more
items than there are bytes. On every input, each call for a tag, for text in a tag of its own, or
for a tag of known id with whatever payload, comes to a result only after a byte; so the loops over
what stands in a payload come to an end, after rounds each of which leaves less of the frame; and of
all calls at all depths no more begin than bytes are taken, but for one that fails. Those are the
calls that are counted: with a tag as the result, one for each tag in it and one for each text in it
that is a tag of its own. -/
theorem parse_bounded :
    (∀ bytes t, r.parse bytes = .ok t → t.items ≤ bytes.length) ∧
    ((∀ depth, (r.readTag depth).Advances ∧ (r.readString depth).Advances) ∧
      (∀ target, (r.readInto target).Advances) ∧
      ∀ {α : Type} id (payload : Declared → Reading α), (r.readAs id payload).Advances) ∧
    (∀ depth stop around s, r.LoopsEnd depth stop around s) ∧
    (∀ depth, (Thread.callTag r depth).Paid (r.readTag depth)) ∧
    (∀ target, (Thread.callInto r target r.levels).Paid (r.readInto target)) ∧
    (∀ bytes, ∃ calls ≤ bytes.length + 1, Thread.callTag r r.levels [] 0 (.ofBytes bytes) =
      ((r.read.run [] (.ofBytes bytes)).1, calls, (r.read.run [] (.ofBytes bytes)).2)) ∧
    (∀ target bytes, ∃ calls ≤ bytes.length + 1,
      Thread.callInto r target r.levels [] 0 (.ofBytes bytes) =
        (((r.readInto target).run [] (.ofBytes bytes)).1, calls,
          ((r.readInto target).run [] (.ofBytes bytes)).2)) ∧
    (∀ depth, (Thread.callTag r depth).Tallies 0 Tag.calls) ∧
    ∀ target, (Thread.callInto r target r.levels).Tallies 0 Tag.calls := by
  have hinto : ∀ target, (Thread.callInto r target r.levels).Paid (r.readInto target) := by
    intro target
    rw [Thread.readInto_eq_intoProgram]
    exact Thread.paid_callInto r target r.levels
  refine ⟨fun _ _ => r.items_le_of_parse, ⟨fun depth => ⟨?_, ?_⟩, r.advances_readInto, ?_⟩,
    r.loopsEnd, Thread.paid_callTag r, hinto, ?_, fun target => exists_calls_le (hinto target),
    Thread.tallies_callTag r, fun target => Thread.tallies_callInto r target r.levels⟩
  · exact r.advances_readTag depth
  · exact r.advances_readString depth
  · exact r.advances_readAs
  · exact exists_calls_le (Thread.paid_callTag r r.levels)

/-- An array that holds a dictionary of an empty text under an empty key, two numbers in a list, and
a tag without a value: eight items in sixteen bytes. -/
theorem parse_bounded_array :
    let bytes : Bytes := [21, 14, 3, 31, 5, 1, 17, 0, 17, 0, 20, 3, 2, 7, 8, 0]
    let t : Tag := .mk 21 (.tagArray [.mk 31 (.stringDictionary (.ofList [("", "")])),
      .mk 20 (.varintArray [7, 8]), .null])
    parse {} bytes = .ok t ∧ t.items = 8 ∧ t.items ≤ bytes.length := by
  intro bytes t
  have hparse : parse {} bytes = .ok t := by cbv
  exact ⟨hparse, by cbv, (parse_bounded {}).1 bytes t hparse⟩

end Registry

end TagFormat
