import TagFormat.Proofs.Output.Capacity

/-! # Writings that differ in signs

Two writings may be the same but for the first bits of some bytes (`Writing.SameBut`): they end
alike, their blocks are of the same lengths, and so no sink tells one from the other before it has
taken such a byte. Whatever its room and its pace, writing comes to the same outcome, with as many
bytes of both taken (`Writing.SameBut.writeTo`), since a sink looks at the number of the bytes and not
at the bytes (`Sink.push_of_similar`). -/

namespace TagFormat

/-! ### Bytes -/

/-- As many bytes, and the same but for the first bits of those at places in `signs`. -/
structure SameBut (signs : Nat → Prop) (x y : Bytes) : Prop where
  length : x.length = y.length
  bytes : ∀ (i : Nat) (b c : UInt8), x[i]? = some b → y[i]? = some c →
    b = c ∨ signs i ∧ b ^^^ c = 0x80

namespace SameBut

variable {signs signs' : Nat → Prop} {x y x' y' : Bytes}

theorem refl (signs : Nat → Prop) (x : Bytes) : SameBut signs x x :=
  ⟨rfl, fun _ _ _ hb hc => .inl (Option.some.inj (hb.symm.trans hc))⟩

theorem mono (h : SameBut signs x y) (hs : ∀ i, signs i → signs' i) : SameBut signs' x y :=
  ⟨h.length, fun i b c hb hc => (h.bytes i b c hb hc).imp_right fun hi => ⟨hs i hi.1, hi.2⟩⟩

theorem append (h : SameBut signs x y) (h' : SameBut signs' x' y') :
    SameBut (fun i => signs i ∨ ∃ j, i = x.length + j ∧ signs' j) (x ++ x') (y ++ y') := by
  refine ⟨?_, fun i b c hb hc => ?_⟩
  · rw [List.length_append, List.length_append, h.length, h'.length]
  · rcases Nat.lt_or_ge i x.length with hlt | hge
    · rw [List.getElem?_append_left hlt] at hb
      rw [List.getElem?_append_left (h.length ▸ hlt)] at hc
      exact (h.bytes i b c hb hc).imp_right fun hi => ⟨.inl hi.1, hi.2⟩
    · rw [List.getElem?_append_right hge] at hb
      rw [List.getElem?_append_right (h.length ▸ hge), ← h.length] at hc
      refine (h'.bytes _ b c hb hc).imp_right fun hi => ⟨.inr ⟨_, ?_, hi.1⟩, hi.2⟩
      omega

theorem take (h : SameBut signs x y) (n : Nat) : SameBut signs (x.take n) (y.take n) := by
  refine ⟨by rw [List.length_take, List.length_take, h.length], fun i b c hb hc => ?_⟩
  rw [List.getElem?_take] at hb hc
  split_ifs at hb hc
  exact h.bytes i b c hb hc

end SameBut

/-! ### Sinks -/

namespace Sink

/-- The sinks have taken as many bytes, and are the same but for these. -/
structure Similar (s t : Sink) : Prop where
  length : s.taken.length = t.taken.length
  capacity : s.capacity = t.capacity
  failure : s.failure = t.failure
  pace : s.pace = t.pace

variable {s t : Sink} {b c : Bytes}

theorem Similar.refl (s : Sink) : s.Similar s :=
  ⟨rfl, rfl, rfl, rfl⟩

theorem Similar.take (h : s.Similar t) (hl : b.length = c.length) :
    (s.take b).Similar (t.take c) := by
  refine ⟨?_, h.capacity, h.failure, h.pace⟩
  rw [length_taken_take, length_taken_take, h.length, hl]

theorem Similar.offer (h : s.Similar t) (count : Nat) : s.offer count = t.offer count := by
  rw [offer_eq_met, offer_eq_met]
  unfold met
  rw [h.capacity, h.failure, h.pace, h.length]

theorem pushIn_of_similar : ∀ {calls written : Nat} {b c : Bytes} {s t : Sink}, s.Similar t →
    b.length = c.length → (pushIn calls b written s).1 = (pushIn calls c written t).1
  | calls, written, [], c, s, t, _, hl => by
    obtain rfl := List.eq_nil_of_length_eq_zero hl.symm
    cases calls <;> rfl
  | 0, written, b :: bs, [], s, t, _, hl => absurd hl (Nat.succ_ne_zero _)
  | 0, written, b :: bs, c :: cs, s, t, _, _ => rfl
  | calls + 1, written, b :: bs, [], s, t, _, hl => absurd hl (Nat.succ_ne_zero _)
  | calls + 1, written, b :: bs, c :: cs, s, t, h, hl => by
    rw [pushIn, pushIn, h.offer, hl]
    · split
      · next n ho =>
        refine pushIn_of_similar (h.take ?_) ?_
        · rw [List.length_take, List.length_take, hl]
        · rw [List.length_drop, List.length_drop, hl]
      · rfl
      · rfl
    · simp
    · simp

/-- **A sink does not look at the bytes** that it takes. -/
theorem push_of_similar (h : s.Similar t) (hl : b.length = c.length) :
    ∃ p, ∃ n ≤ b.length, p.written = n ∧ s.push b = (p, s.take (b.take n)) ∧
      t.push c = (p, t.take (c.take n)) := by
  obtain ⟨m, hm, hwm, hsm⟩ := pushIn_eq_take b.length b 0 s
  obtain ⟨n, hn, hwn, htn⟩ := pushIn_eq_take c.length c 0 t
  have hp : (s.push b).1 = (t.push c).1 := by
    rw [push, push, hl]
    exact pushIn_of_similar h hl
  have hmn : m = n := by
    have hw : (pushIn b.length b 0 s).1.written = (pushIn c.length c 0 t).1.written :=
      congrArg Push.written hp
    omega
  subst hmn
  exact ⟨_, m, hm, hwm.trans (Nat.zero_add m), Prod.ext rfl hsm, Prod.ext hp.symm htn⟩

end Sink

namespace Writing

/-- Blocks of the same lengths come to the same outcome, with as many bytes of both taken. -/
theorem pushAll_of_similar : ∀ {ps qs : List Bytes} {t u : Tally},
    ps.map List.length = qs.map List.length → t.sink.Similar u.sink → t.count = u.count →
    ∃ n, (pushAll ps t).1 = (pushAll qs u).1 ∧ (pushAll ps t).2.count = (pushAll qs u).2.count ∧
      (pushAll ps t).2.sink = t.sink.take (ps.flatten.take n) ∧
      (pushAll qs u).2.sink = u.sink.take (qs.flatten.take n)
  | [], qs, t, u, hl, _, hc => by
    obtain rfl := List.map_eq_nil_iff.mp hl.symm
    exact ⟨0, rfl, hc, (Sink.take_nil _).symm, (Sink.take_nil _).symm⟩
  | _ :: _, [], _, _, hl, _, _ => nomatch hl
  | b :: ps, c :: qs, t, u, hl, h, hcount => by
    obtain ⟨hbc, hl⟩ := List.cons.inj hl
    obtain ⟨p, n, hn, hw, hb, hc⟩ := Sink.push_of_similar h hbc
    rw [pushAll, pushAll, Tally.push, Tally.push, hb, hc, ← hbc]
    simp only
    cases ho : p.outcome b.length with
    | error error =>
      refine ⟨n, rfl, by rw [hcount], ?_, ?_⟩
      · rw [List.flatten_cons, List.take_append_of_le_length hn]
      · rw [List.flatten_cons, List.take_append_of_le_length (hbc ▸ hn)]
    | ok _ =>
      have hfull : n = b.length := by
        unfold Sink.Push.outcome at ho
        split at ho
        · cases ho
        · split_ifs at ho with hwritten
          omega
      have htb : b.take n = b := by rw [hfull, List.take_length]
      have htc : c.take n = c := by rw [hfull, hbc, List.take_length]
      rw [htb, htc]
      obtain ⟨m, hsame, hcount', hs, ht⟩ := pushAll_of_similar hl
        (t := ⟨t.sink.take b, t.count + p.written⟩) (u := ⟨u.sink.take c, u.count + p.written⟩)
        (h.take hbc) (by rw [hcount])
      refine ⟨b.length + m, hsame, hcount', ?_, ?_⟩
      · rw [hs, Sink.take_take, List.flatten_cons, List.take_length_add_append]
      · rw [ht, Sink.take_take, List.flatten_cons, hbc, List.take_length_add_append]

/-! ### Writings -/

/-- The writings end alike, and their blocks are of the same lengths, and the same but for the first
bits of the bytes at places in `signs`. -/
structure SameBut (signs : Nat → Prop) (v w : Writing) : Prop where
  failure : v.failure = w.failure
  pieces : v.pieces.map List.length = w.pieces.map List.length
  bytes : TagFormat.SameBut signs v.bytes w.bytes

namespace SameBut

variable {signs signs' : Nat → Prop} {v w v' w' : Writing}

theorem refl (signs : Nat → Prop) (w : Writing) : SameBut signs w w :=
  ⟨rfl, rfl, .refl signs w.bytes⟩

theorem mono (h : SameBut signs v w) (hs : ∀ i, signs i → signs' i) : SameBut signs' v w :=
  ⟨h.failure, h.pieces, h.bytes.mono hs⟩

theorem block {x y : Bytes} (h : TagFormat.SameBut signs x y) :
    SameBut signs (.block x) (.block y) := by
  refine ⟨rfl, congrArg (fun n => [n]) h.length, ?_⟩
  rw [bytes_block, bytes_block]
  exact h

/-- What comes second stands behind `n` bytes. -/
theorem append {n : Nat} (h : SameBut signs v w) (hn : v.Fills n) (h' : SameBut signs' v' w') :
    SameBut (fun i => signs i ∨ ∃ j, i = n + j ∧ signs' j) (v ++ v') (w ++ w') := by
  -- After a failure nothing more is written, and the second part does not matter.
  cases hv : v.failure with
  | some error =>
    rw [append_of_some hv, append_of_some (h.failure ▸ hv)]
    exact h.mono fun _ => .inl
  | none =>
    have hw : w.failure = none := h.failure ▸ hv
    refine ⟨?_, ?_, ?_⟩
    · rw [append_of_none hv, append_of_none hw]
      exact h'.failure
    · rw [append_of_none hv, append_of_none hw]
      simp only [List.map_append, h.pieces, h'.pieces]
    · rw [bytes_append hv, bytes_append hw, ← hn hv]
      exact h.bytes.append h'.bytes

/-- The same writing first, of `n` bytes. -/
theorem append_left {n : Nat} (a : Writing) (hn : a.Fills n) (h : SameBut signs v w) :
    SameBut (fun i => ∃ j, i = n + j ∧ signs j) (a ++ v) (a ++ w) :=
  ((refl (fun _ => False) a).append hn h).mono fun _ => (·.resolve_left id)

/-- They fail alike, or come to bytes that are the same but for signs. -/
theorem toBytes (h : SameBut signs v w) :
    (∀ error, v.toBytes = .error error ↔ w.toBytes = .error error) ∧
    ∀ x y, v.toBytes = .ok x → w.toBytes = .ok y → TagFormat.SameBut signs x y := by
  unfold Writing.toBytes
  rw [h.failure]
  cases w.failure with
  | some error => exact ⟨fun _ => Iff.rfl, fun _ _ hx => nomatch hx⟩
  | none =>
    refine ⟨fun error => ?_, fun x y hx hy => ?_⟩
    · simp
    · rw [← Except.ok.inj hx, ← Except.ok.inj hy]
      exact h.bytes

/-- **No sink tells the one from the other** but for the bytes themselves: writing comes to the same
outcome, with as many bytes of both taken. -/
theorem writeTo (h : SameBut signs v w) (s : Sink) : (v.writeTo s).1 = (w.writeTo s).1 ∧
    ∃ x y, TagFormat.SameBut signs x y ∧ (v.writeTo s).2 = s.take x ∧
      (w.writeTo s).2 = s.take y := by
  obtain ⟨n, ho, hc, hv, hw⟩ := pushAll_of_similar h.pieces
    (t := { sink := s }) (u := { sink := s }) (Sink.Similar.refl s) rfl
  have hrun : (v.runCounted s).1 = (w.runCounted s).1 ∧
      (v.runCounted s).2 = (pushAll v.pieces { sink := s }).2 ∧
      (w.runCounted s).2 = (pushAll w.pieces { sink := s }).2 := by
    unfold runCounted
    rw [h.failure]
    generalize pushAll v.pieces { sink := s } = a at ho
    generalize pushAll w.pieces { sink := s } = b at ho
    obtain ⟨oa, ta⟩ := a
    obtain ⟨ob, tb⟩ := b
    obtain rfl : oa = ob := ho
    rcases oa with error | _
    · exact ⟨rfl, rfl, rfl⟩
    · cases w.failure <;> exact ⟨rfl, rfl, rfl⟩
  obtain ⟨hrun, hrv, hrw⟩ := hrun
  refine ⟨?_, v.bytes.take n, w.bytes.take n, h.bytes.take n, ?_, ?_⟩
  · change (v.runCounted s).1.map (fun _ => (v.runCounted s).2.count) =
      (w.runCounted s).1.map fun _ => (w.runCounted s).2.count
    rw [hrun, hrv, hrw, hc]
  · change (v.runCounted s).2.sink = _
    rw [hrv, hv]
    rfl
  · change (w.runCounted s).2.sink = _
    rw [hrw, hw]
    rfl

end SameBut

end Writing

end TagFormat
