import TagFormat.Proofs.Output.Writing
import TagFormat.Scalar.Script

/-! # Sinks that are full before the end

A sink takes the bytes of a block from the first on, one stretch a call, and a tally counts every
stretch (`Sink.pushIn_eq_take`, `Tally.count_pushIn`). A sink that has no room for a block takes as
much of it as there is room for and then refuses or fails, at whatever pace it takes it
(`Sink.push_of_lt`). So it is with all blocks of a writing (`Writing.pushAll_of_lt`): the sink holds
a prefix of them, and the error tells which block was cut, and where. -/

namespace TagFormat

namespace Sink

variable {s : Sink} {cap room count : Nat}

/-! ### Calls -/

/-- A call takes no more than it is offered. -/
theorem le_of_offer_eq_took {n : Nat} (h : s.offer count = .took n) : n ≤ count := by
  have hle := limit_le s.pace s.taken.length count
  rw [offer_eq_met] at h
  unfold met at h
  split at h
  · cases h
    exact hle
  · split at h
    · cases h
    · cases h
      omega

/-- Where the limit is so many bytes away, there is room for so many. -/
theorem fits_of_room {n : Nat} (h : s.capacity = some (s.taken.length + room)) (hn : n ≤ room) :
    s.Fits n := by
  intro cap hcap
  obtain rfl := Option.some.inj (h.symm.trans hcap)
  omega

/-- What is taken brings the limit nearer. -/
theorem capacity_take {b : Bytes} (h : s.capacity = some (s.taken.length + room))
    (hb : b.length ≤ room) :
    (s.take b).capacity = some ((s.take b).taken.length + (room - b.length)) := by
  rw [take_capacity, h, length_taken_take]
  congr 1
  omega

/-- How a call ends when there is no room left. -/
def refusal (s : Sink) : Acceptance :=
  match s.failure with
  | none => .took 0
  | some failure => .failed failure

theorem offer_of_full (h : s.capacity = some cap) (hfull : cap ≤ s.taken.length) (count : Nat) :
    s.offer count = s.refusal := by
  rw [offer_eq_met]
  unfold met refusal
  simp only [h, Nat.sub_eq_zero_of_le hfull]
  cases s.failure <;> simp

/-! ### Blocks -/

/-- After any number of calls, the sink has taken the first bytes of the block, and these are the
bytes that have been counted. -/
theorem pushIn_eq_take (calls : Nat) (b : Bytes) (written : Nat) (s : Sink) :
    ∃ n ≤ b.length, (pushIn calls b written s).1.written = written + n ∧
      (pushIn calls b written s).2 = s.take (b.take n) := by
  induction calls generalizing b written s with
  | zero =>
    refine ⟨0, Nat.zero_le _, ?_⟩
    rw [List.take_zero, take_nil]
    cases b <;> exact ⟨rfl, rfl⟩
  | succ calls ih =>
    rcases b with _ | ⟨b, bs⟩
    · exact ⟨0, le_rfl, rfl, (take_nil s).symm⟩
    rw [pushIn]
    · split
      · next n ho =>
        have hn := le_of_offer_eq_took ho
        obtain ⟨m, hm, hw, hs⟩ := ih ((b :: bs).drop (n + 1)) (written + n + 1)
          (s.take ((b :: bs).take (n + 1)))
        rw [List.length_drop] at hm
        refine ⟨n + 1 + m, by omega, by omega, ?_⟩
        rw [hs, take_take, ← List.take_add]
      · exact ⟨0, Nat.zero_le _, rfl, (take_nil s).symm⟩
      · exact ⟨0, Nat.zero_le _, rfl, (take_nil s).symm⟩
    · simp

/-- What has been counted is what has been taken. -/
theorem length_taken_pushIn (calls : Nat) (b : Bytes) (s : Sink) :
    (pushIn calls b 0 s).2.taken.length = s.taken.length + (pushIn calls b 0 s).1.written := by
  obtain ⟨n, hn, hw, hs⟩ := pushIn_eq_take calls b 0 s
  rw [hs, hw, length_taken_take, List.length_take_of_le hn, Nat.zero_add]

theorem pushIn_of_lt : ∀ {calls written room : Nat} {b : Bytes} {s : Sink},
    s.capacity = some (s.taken.length + room) → room < b.length → b.length ≤ calls →
      pushIn calls b written s =
        ({ written := written + room, failure := s.failure }, s.take (b.take room))
  | calls, written, room, [], s, _, hroom, _ => absurd hroom (Nat.not_lt_zero _)
  | 0, written, room, b :: bs, s, _, _, hc => absurd hc (Nat.not_succ_le_zero _)
  | calls + 1, written, 0, b :: bs, s, h, _, _ => by
    rw [pushIn, offer_of_full h le_rfl, refusal, List.take_zero, take_nil]
    · cases s.failure <;> rfl
    · simp
  | calls + 1, written, room + 1, b :: bs, s, h, hroom, hc => by
    have hpos : 0 < (b :: bs).length := Nat.succ_pos _
    obtain ⟨n, hn, hfits, ho⟩ := offer_of_fits (fits_of_room h (Nat.le_add_left 1 room)) hpos
    have hle := hfits _ h
    have hlen : ((b :: bs).take (n + 1)).length = n + 1 := List.length_take_of_le hn
    have hrest : ((b :: bs).drop (n + 1)).length = (b :: bs).length - (n + 1) := List.length_drop
    have hcap := capacity_take (b := (b :: bs).take (n + 1)) h (by omega)
    rw [pushIn, ho]
    · simp only
      rw [pushIn_of_lt hcap (by omega) (by omega), take_take, hlen]
      have hsplit : (b :: bs).take (room + 1) =
          (b :: bs).take (n + 1) ++ ((b :: bs).drop (n + 1)).take (room + 1 - (n + 1)) := by
        rw [← List.take_add]
        congr 1
        omega
      rw [hsplit]
      congr 2
      omega
    · simp

variable {b : Bytes}

/-- **A sink that has no room for a block** takes as much of it as there is room for. -/
theorem push_of_lt (h : s.capacity = some (s.taken.length + room)) (hb : room < b.length) :
    s.push b = ({ written := room, failure := s.failure }, s.take (b.take room)) := by
  rw [push, pushIn_of_lt h hb le_rfl, Nat.zero_add]

end Sink

/-! ### Counts -/

namespace Tally

/-- The tally after a number of calls that offer a block. -/
def pushIn (calls : Nat) (b : Bytes) (t : Tally) : Tally where
  sink := (t.sink.pushIn calls b 0).2
  count := t.count + (t.sink.pushIn calls b 0).1.written

theorem push_snd (b : Bytes) (t : Tally) : (t.push b).2 = t.pushIn b.length b := rfl

/-- The count goes up by what the sink takes, call by call. -/
theorem count_pushIn (calls : Nat) (b : Bytes) (t : Tally) :
    (t.pushIn calls b).count + t.sink.taken.length =
      t.count + (t.pushIn calls b).sink.taken.length := by
  have hlen := Sink.length_taken_pushIn calls b t.sink
  unfold pushIn
  simp only
  omega

end Tally

namespace Writing

/-- The count goes up by what the sink takes, block by block, up to and with the one that is not
taken whole. -/
theorem count_pushAll (pieces : List Bytes) (t : Tally) :
    (pushAll pieces t).2.count + t.sink.taken.length =
      t.count + (pushAll pieces t).2.sink.taken.length := by
  induction pieces generalizing t with
  | nil => rfl
  | cons b pieces ih =>
    have hstep := t.count_pushIn b.length b
    rw [← Tally.push_snd] at hstep
    rw [pushAll]
    rcases ht : t.push b with ⟨p, u⟩
    rw [ht] at hstep
    simp only at hstep ⊢
    cases p.outcome b.length with
    | error error => exact hstep
    | ok _ =>
      have hrest := ih u
      simp only
      omega

/-! ### Blocks one after another -/

variable {pieces : List Bytes} {t : Tally} {room : Nat}

/-- Why it ends when there is room for `room` bytes of the blocks and no more: the failure of the
sink; without one, the block that is cut, its size, and the number of bytes of it that are taken. -/
def Cut (pieces : List Bytes) (room : Nat) (failure : Option IoFailure) (error : TagError) :
    Prop :=
  match failure with
  | some failure => error = .io failure
  | none => ∃ before piece after, pieces = before ++ piece :: after ∧
      before.flatten.length ≤ room ∧ room - before.flatten.length < piece.length ∧
      error = .shortWrite piece.length (room - before.flatten.length)

theorem Cut.cons {b : Bytes} {failure : Option IoFailure} {error : TagError}
    (hb : b.length ≤ room) (h : Cut pieces (room - b.length) failure error) :
    Cut (b :: pieces) room failure error := by
  cases failure with
  | some failure => exact h
  | none =>
    obtain ⟨before, piece, after, rfl, hle, hlt, rfl⟩ := h
    refine ⟨b :: before, piece, after, rfl, ?_, ?_, ?_⟩
    all_goals rw [List.flatten_cons, List.length_append]
    · omega
    · omega
    · rw [Nat.sub_sub]

/-- **A sink that has no room for all blocks** takes their bytes up to its limit, and which block is
cut, and where, does not hang on its pace. -/
theorem pushAll_of_lt (failure : Option IoFailure) (hroom : room < pieces.flatten.length) :
    ∃ error, Cut pieces room failure error ∧ ∀ t : Tally, t.sink.failure = failure →
      t.sink.capacity = some (t.sink.taken.length + room) →
      pushAll pieces t = (.error error, { sink := t.sink.take (pieces.flatten.take room),
                                          count := t.count + room }) := by
  induction pieces generalizing room with
  | nil => exact absurd hroom (Nat.not_lt_zero _)
  | cons b pieces ih =>
    rw [List.flatten_cons, List.length_append] at hroom
    rw [List.flatten_cons]
    rcases Nat.lt_or_ge room b.length with hlt | hge
    · have htake : (b ++ pieces.flatten).take room = b.take room :=
        List.take_append_of_le_length hlt.le
      rw [htake]
      cases failure with
      | some failure =>
        refine ⟨.io failure, rfl, fun t hf h => ?_⟩
        rw [pushAll, Tally.push, Sink.push_of_lt h hlt, hf]
        rfl
      | none =>
        refine ⟨.shortWrite b.length room, ⟨[], b, pieces, rfl, Nat.zero_le _, hlt, rfl⟩,
          fun t hf h => ?_⟩
        rw [pushAll, Tally.push, Sink.push_of_lt h hlt, hf]
        simp only [Sink.Push.outcome, if_neg hlt.ne]
    · have hrest : room - b.length < pieces.flatten.length := by omega
      obtain ⟨error, hcut, hrun⟩ := ih hrest
      refine ⟨error, hcut.cons hge, fun t hf h => ?_⟩
      have hcap := Sink.capacity_take h hge
      have htake :
          (b ++ pieces.flatten).take room = b ++ pieces.flatten.take (room - b.length) := by
        rw [List.take_append, List.take_of_length_le hge]
      rw [pushAll, Tally.push, Sink.push_of_fits (Sink.fits_of_room h hge)]
      simp only [Sink.Push.outcome, if_true]
      rw [hrun { sink := t.sink.take b, count := t.count + b.length } hf hcap, htake,
        Sink.take_take, Nat.add_assoc, Nat.add_sub_cancel' hge]

/-- **A prefix of the one encoding.** To a sink without a limit, `write` comes to some outcome with
all of the pieces written. To one with room for so many bytes it comes to the same outcome with the
same bytes if there are no more; if there are, it is cut short at the limit. Of a sink nothing else
matters, neither its pace nor what it took before. -/
def Bounded {α : Type} (write : Sink → Except TagError α × Sink) (pieces : List Bytes) : Prop :=
  ∃ o, (∀ s : Sink, s.capacity = none → write s = (o, s.take pieces.flatten)) ∧
    ∀ room failure,
      (pieces.flatten.length ≤ room → ∀ s : Sink, s.capacity = some (s.taken.length + room) →
        write s = (o, s.take pieces.flatten)) ∧
      (room < pieces.flatten.length → ∃ error, Cut pieces room failure error ∧
        ∀ s : Sink, s.capacity = some (s.taken.length + room) → s.failure = failure →
          write s = (.error error, s.take (pieces.flatten.take room)))

theorem bounded_writeTo (w : Writing) : Bounded w.writeTo w.pieces := by
  refine ⟨w.failure.elim (.ok w.bytes.length) .error, fun s h => ?_,
    fun room failure => ⟨fun hroom s h => ?_, fun hroom => ?_⟩⟩
  · rw [writeTo, runCounted_of_unlimited h]
    cases w.failure <;> rfl
  · rw [writeTo, runCounted, pushAll_of_fits (t := { sink := s }) (Sink.fits_of_room h hroom),
      Nat.zero_add]
    cases w.failure <;> rfl
  · obtain ⟨error, hcut, hrun⟩ := pushAll_of_lt failure hroom
    refine ⟨error, hcut, fun s h hf => ?_⟩
    rw [writeTo, runCounted, hrun { sink := s } hf h]
    rfl

/-- The count that comes back from writing is the number of bytes that the sink took. -/
theorem length_taken_of_writeTo {w : Writing} {s s' : Sink} {n : Nat}
    (h : w.writeTo s = (.ok n, s')) : s'.taken.length = s.taken.length + n := by
  have hcount := count_pushAll w.pieces { sink := s }
  rw [writeTo, runCounted] at h
  rcases hr : pushAll w.pieces { sink := s } with ⟨error | a, t⟩
  all_goals
    rw [hr] at h hcount
  · cases h
  · cases hf : w.failure with
    | some error =>
      rw [hf] at h
      cases h
    | none =>
      rw [hf] at h
      obtain ⟨hn, rfl⟩ := Prod.mk.inj h
      obtain rfl : t.count = n := Except.ok.inj hn
      simp only at hcount
      omega

end Writing

/-! ### Orders -/

namespace Scalar.Order

/-- A list of orders pushes its blocks one after another. -/
theorem runAll_snd (orders : List Order) (t : Tally) :
    (runAll orders t).2 = Writing.pushAll (orders.map block) t := by
  induction orders generalizing t with
  | nil => rfl
  | cons order orders ih =>
    rw [runAll, List.map_cons, Writing.pushAll]
    rcases t.push order.block with ⟨p, u⟩
    simp only
    cases p.outcome order.block.length with
    | error error => rfl
    | ok _ => exact ih u

/-- Runs orders to a tally of a sink. -/
def run (orders : List Order) (s : Sink) : Except TagError Unit × Sink :=
  ((runAll orders { sink := s }).2.1, (runAll orders { sink := s }).2.2.sink)

theorem bounded_run (orders : List Order) : Writing.Bounded (run orders) (orders.map block) := by
  refine ⟨.ok (), fun s h => ?_, fun room failure => ⟨fun hroom s h => ?_, fun hroom => ?_⟩⟩
  · rw [run, runAll_snd, Writing.pushAll_of_fits (t := { sink := s }) (Sink.fits_of_unlimited h _)]
  · rw [run, runAll_snd, Writing.pushAll_of_fits (t := { sink := s }) (Sink.fits_of_room h hroom)]
  · obtain ⟨error, hcut, hrun⟩ := Writing.pushAll_of_lt failure hroom
    refine ⟨error, hcut, fun s h hf => ?_⟩
    rw [run, runAll_snd, hrun { sink := s } hf h]

/-- The count that is told after an order is that of the tally at this point. -/
theorem count_of_mem_runAll {orders : List Order} {t : Tally} {i n : Nat}
    (h : (runAll orders t).1[i]? = some n) :
    n = (Writing.pushAll ((orders.map block).take (i + 1)) t).2.count := by
  induction orders generalizing t i with
  | nil => cases h
  | cons order orders ih =>
    rw [List.map_cons, List.take_succ_cons, Writing.pushAll]
    rw [runAll] at h
    generalize t.push order.block = r at h ⊢
    obtain ⟨p, u⟩ := r
    simp only at h ⊢
    cases ho : p.outcome order.block.length with
    | error error =>
      rw [ho] at h
      rcases i with _ | i
      · exact (Option.some.inj h).symm
      · cases h
    | ok _ =>
      rw [ho] at h
      rcases i with _ | i
      · exact (Option.some.inj h).symm
      · exact ih h

end Scalar.Order

end TagFormat
