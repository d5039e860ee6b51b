import TagFormat.Proofs.Input.Local
import TagFormat.Registry.Reading

/-! # However the bytes are delivered

A program comes to the same outcome after the same bytes at whatever pace a source hands them over
(`run_withPace`). Where the source fails at some place, a program either comes to its outcome
before that place, or takes all bytes up to there and ends with this failure
(`exists_spared_or_stopped`): no frame around it, however deep, makes anything else of it. -/

namespace TagFormat

namespace Source

/-- The source with another pace. -/
def withPace (s : Source) (pace : Pace) : Source :=
  { s with pace }

variable {s : Source} {place n : Nat}

theorem fill_withPace (s : Source) (pace : Pace) (want : Nat) :
    (s.withPace pace).fill want =
      ((s.fill want).1, (s.fill want).2.1, (s.fill want).2.2.withPace pace) := by
  rcases Nat.lt_or_ge s.rest.length want with hlt | hge
  · have hlt' : (s.withPace pace).rest.length < want := hlt
    rw [fill_of_lt hlt, fill_of_lt hlt']
    rfl
  · have hge' : want ≤ (s.withPace pace).rest.length := hge
    rw [fill_of_le hge, fill_of_le hge']
    rfl

/-! ### Sources that fail -/

theorem failingAt_withPace (s : Source) (pace : Pace) (place : Nat) (failure : IoFailure) :
    (s.withPace pace).failingAt place failure = (s.failingAt place failure).withPace pace := by
  unfold failingAt
  have hrest : (s.withPace pace).rest = s.rest := rfl
  rw [hrest]
  split_ifs <;> rfl

theorem failingAt_of_le (h : place ≤ s.rest.length) (failure : IoFailure) :
    s.failingAt place failure =
      { s with rest := s.rest.take place, failure := some failure } := by
  unfold failingAt
  rw [if_pos h]

theorem failingAt_of_lt (h : s.rest.length < place) (failure : IoFailure) :
    s.failingAt place failure = s := by
  unfold failingAt
  rw [if_neg (by omega)]

@[simp] theorem failingAt_pos (s : Source) (place : Nat) (failure : IoFailure) :
    (s.failingAt place failure).pos = s.pos := by
  unfold failingAt
  split_ifs <;> rfl

theorem failingAt_rest (h : place ≤ s.rest.length) (failure : IoFailure) :
    (s.failingAt place failure).rest = s.rest.take place := by
  rw [failingAt_of_le h]

theorem length_failingAt_rest (h : place ≤ s.rest.length) (failure : IoFailure) :
    (s.failingAt place failure).rest.length = place := by
  rw [failingAt_rest h, List.length_take, Nat.min_eq_left h]

theorem take_failingAt_rest (hn : n ≤ place) (h : place ≤ s.rest.length) (failure : IoFailure) :
    (s.failingAt place failure).rest.take n = s.rest.take n := by
  rw [failingAt_rest h, List.take_take, Nat.min_eq_left hn]

theorem advance_failingAt (hn : n ≤ place) (h : place ≤ s.rest.length) (failure : IoFailure) :
    (s.failingAt place failure).advance n = (s.advance n).failingAt (place - n) failure := by
  have hle : place - n ≤ (s.advance n).rest.length := by
    rw [advance_rest, List.length_drop]
    omega
  rw [failingAt_of_le h, failingAt_of_le hle]
  simp only [advance, List.drop_take]

end Source

namespace Reading

variable {α β : Type}

/-! ### Pace -/

/-- What leaving a frame makes of an outcome hangs on the place alone. -/
theorem leave_of_pos_eq {s t : Source} (h : t.pos = s.pos) (what : String) (size stop : Nat)
    (o : Except TagError α) :
    leave what size stop (o, t) = ((leave what size stop (o, s)).1, t) := by
  rcases o with error | a
  · cases error
    case unexpectedEnd =>
      simp only [leave, h]
      split_ifs <;> rfl
    all_goals rfl
  · simp only [leave, h]
    split_ifs <;> rfl

theorem leave_snd (what : String) (size stop : Nat) (r : Except TagError α × Source) :
    (leave what size stop r).2 = r.2 := by
  obtain ⟨o, s⟩ := r
  rw [leave_of_pos_eq (s := s) rfl]

/-- **The pace of a source** makes no difference to what a program reads from it. -/
theorem run_withPace (p : Reading α) (stops : List Nat) (s : Source) (pace : Pace) :
    p.run stops (s.withPace pace) =
      ((p.run stops s).1, (p.run stops s).2.withPace pace) := by
  induction p generalizing stops s with
  | done a => rfl
  | fail error => rfl
  | take before count next ih =>
    have hpos : (s.withPace pace).pos = s.pos := rfl
    rw [run, run, hpos, Source.fill_withPace]
    rcases s.fill (allowed stops s.pos count) with ⟨got, stop, t⟩
    cases stop <;> simp only
    all_goals
      split_ifs
      · exact ih got stops t
      · rfl
  | room next ih =>
    have hpos : (s.withPace pace).pos = s.pos := rfl
    rw [run, run, hpos]
    exact ih _ stops s
  | within what size body next ihb ih =>
    have hpos : (s.withPace pace).pos = s.pos := rfl
    rw [run, run, hpos, ihb]
    rcases body.run ((s.pos + size) :: stops) s with ⟨o, t⟩
    have ht : (t.withPace pace).pos = t.pos := rfl
    have hleave := leave_snd what size (s.pos + size) (o, t)
    simp only
    rw [leave_of_pos_eq ht]
    rcases hl : leave what size (s.pos + size) (o, t) with ⟨error | b, u⟩
    all_goals
      rw [hl] at hleave
      obtain rfl : u = t := hleave
    · rfl
    · exact ih b stops u

/-! ### Failures -/

/-- The program comes to the outcome `o` after `n` bytes, before the place where the source
fails. -/
structure Spared (p : Reading α) (stops : List Nat) (s : Source) (place : Nat)
    (failure : IoFailure) (o : Except TagError α) (n : Nat) : Prop where
  le : n ≤ place
  run : p.run stops (s.failingAt place failure) = (o, (s.failingAt place failure).advance n)

/-- The program meets the failure of the source. Without it, it would have gone on to the outcome
`o` after `n` bytes, which are more unless it would have met the end of the bytes there, before any
frame ends. -/
structure Stopped (p : Reading α) (stops : List Nat) (s : Source) (place : Nat)
    (failure : IoFailure) (o : Except TagError α) (n : Nat) : Prop where
  le : place ≤ n
  run : p.run stops (s.failingAt place failure) =
    (.error (.io failure), (s.failingAt place failure).advance place)
  at_end : place = n → (∃ error : TagError, error.IsEnd ∧ o = .error error) ∧
    ∀ stop ∈ stops, s.pos + n < stop

variable {p : Reading α} {stops : List Nat} {s : Source} {place : Nat} {failure : IoFailure}
  {o : Except TagError α} {m n : Nat}

/-- One step that takes `m` bytes before the place is followed by another program. -/
theorem Spared.after {q : Reading α} (hm : m ≤ place) (hp : place ≤ s.rest.length)
    (hrun : p.run stops (s.failingAt place failure) =
      q.run stops ((s.failingAt place failure).advance m))
    (h : q.Spared stops (s.advance m) (place - m) failure o n) :
    p.Spared stops s place failure o (m + n) := by
  have hle := h.le
  have hq := h.run
  rw [← Source.advance_failingAt hm hp, Source.advance_advance] at hq
  exact ⟨by omega, hrun.trans hq⟩

theorem Stopped.after {q : Reading α} (hm : m ≤ place) (hp : place ≤ s.rest.length)
    (hrun : p.run stops (s.failingAt place failure) =
      q.run stops ((s.failingAt place failure).advance m))
    (h : q.Stopped stops (s.advance m) (place - m) failure o n) :
    p.Stopped stops s place failure o (m + n) := by
  have hle := h.le
  have hq := h.run
  rw [← Source.advance_failingAt hm hp, Source.advance_advance, Nat.add_sub_cancel' hm] at hq
  refine ⟨by omega, hrun.trans hq, fun he => ?_⟩
  obtain ⟨ho, hstops⟩ := h.at_end (by omega)
  refine ⟨ho, fun stop hs => ?_⟩
  have := hstops stop hs
  rw [Source.advance_pos] at this
  omega

/-- Asking for bytes beyond the place meets the failure there. -/
theorem run_take_failingAt {before count : Nat} {next : Bytes → Reading α}
    (hp : place ≤ s.rest.length) (h : place < allowed stops s.pos count) :
    (take before count next).run stops (s.failingAt place failure) =
      (.error (.io failure), (s.failingAt place failure).advance place) := by
  have hlen := Source.length_failingAt_rest hp failure
  have hlt : (s.failingAt place failure).rest.length < allowed stops s.pos count := by omega
  have hend : (s.failingAt place failure).atEnd = .failed failure := by
    rw [Source.failingAt_of_le hp]
    rfl
  rw [run, Source.failingAt_pos, Source.fill_of_lt hlt, hend, hlen]

/-- A body that is spared leaves its frame as it would without the failure. -/
theorem Spared.leave {what : String} {size stop : Nat} (h : p.Spared stops s place failure o n) :
    leave what size stop (p.run stops (s.failingAt place failure)) =
      ((leave what size stop (o, s.advance n)).1, (s.failingAt place failure).advance n) := by
  have hpos : ((s.failingAt place failure).advance n).pos = (s.advance n).pos := by
    rw [Source.advance_pos, Source.advance_pos, Source.failingAt_pos]
  rw [h.run, leave_of_pos_eq hpos]

/-- A body that meets the failure ends the whole of it: a frame lets the failure through. -/
theorem Stopped.run_within {what : String} {size : Nat} {next : α → Reading β}
    (h : p.Stopped ((s.pos + size) :: stops) s place failure o n) :
    (within what size p next).run stops (s.failingAt place failure) =
      (.error (.io failure), (s.failingAt place failure).advance place) := by
  rw [Reading.run, Source.failingAt_pos, h.run]
  rfl

/-- Where the bytes end inside a frame, it lets the report of the end through as well. -/
theorem Stopped.leave_at_end {size : Nat} (what : String)
    (h : p.Stopped ((s.pos + size) :: stops) s place failure o n) (hn : place = n) :
    (∃ error : TagError, error.IsEnd ∧
      Reading.leave what size (s.pos + size) (o, s.advance n) = (.error error, s.advance n)) ∧
    ∀ stop ∈ stops, s.pos + n < stop := by
  obtain ⟨⟨_, ⟨expected, got, rfl⟩, rfl⟩, hst⟩ := h.at_end hn
  have hne : (s.advance n).pos ≠ s.pos + size := by
    have := hst (s.pos + size) List.mem_cons_self
    rw [Source.advance_pos]
    omega
  refine ⟨⟨_, ⟨expected, got, rfl⟩, ?_⟩, fun stop hs => hst stop (List.mem_cons_of_mem _ hs)⟩
  rw [Reading.leave, if_neg hne]

/-- **Failures surface.** A program comes to some outcome after some bytes; from a source that fails
it comes to the same before the place of the failure, or it meets the failure. -/
theorem exists_spared_or_stopped (p : Reading α) (stops : List Nat) (hf : s.failure = none) :
    ∃ o, ∃ n ≤ s.rest.length, p.run stops s = (o, s.advance n) ∧
      ∀ place ≤ s.rest.length, ∀ failure,
        p.Spared stops s place failure o n ∨ p.Stopped stops s place failure o n := by
  induction p generalizing stops s with
  | done a => exact ⟨.ok a, 0, Nat.zero_le _, rfl, fun place _ failure =>
      .inl ⟨Nat.zero_le _, rfl⟩⟩
  | fail error => exact ⟨.error error, 0, Nat.zero_le _, rfl, fun place _ failure =>
      .inl ⟨Nat.zero_le _, rfl⟩⟩
  | take before count next ih =>
    rcases Nat.lt_or_ge s.rest.length (allowed stops s.pos count) with hlt | hge
    · refine ⟨_, s.rest.length, le_rfl, run_take_of_lt hf hlt, fun place hp failure => ?_⟩
      refine .inr ⟨hp, run_take_failingAt hp (by omega), fun _ => ?_⟩
      refine ⟨⟨_, ⟨_, _, rfl⟩, rfl⟩, fun stop hs => ?_⟩
      have := (le_allowed_iff.mp (Nat.succ_le_of_lt hlt)).2 stop hs
      omega
    by_cases he : allowed stops s.pos count = count
    · rw [he] at hge
      obtain ⟨o, n, hn, hr, hfail⟩ := ih (s.rest.take count) stops
        (s := s.advance count) hf
      rw [Source.advance_rest, List.length_drop] at hn hfail
      refine ⟨o, count + n, by omega, ?_, fun place hp failure => ?_⟩
      · rw [run_take_of_le he hge, hr, Source.advance_advance]
      rcases Nat.lt_or_ge place count with hlt | hle
      · exact .inr ⟨by omega, run_take_failingAt hp (by omega), fun _ => by omega⟩
      have hrun : (take before count next).run stops (s.failingAt place failure) =
          (next (s.rest.take count)).run stops ((s.failingAt place failure).advance count) := by
        have hlen := Source.length_failingAt_rest hp failure
        rw [run_take_of_le (by rwa [Source.failingAt_pos]) (by omega),
          Source.take_failingAt_rest hle hp]
      rcases hfail (place - count) (by omega) failure with h | h
      · exact .inl (h.after hle hp hrun)
      · exact .inr (h.after hle hp hrun)
    · refine ⟨_, allowed stops s.pos count, hge, run_take_of_ne he hge,
        fun place hp failure => ?_⟩
      rcases Nat.lt_or_ge place (allowed stops s.pos count) with hlt | hle
      · exact .inr ⟨hlt.le, run_take_failingAt hp hlt, fun _ => by omega⟩
      · have hlen := Source.length_failingAt_rest hp failure
        have hpos := Source.failingAt_pos s place failure
        refine .inl ⟨hle, ?_⟩
        rw [run_take_of_ne (by rwa [hpos]) (by rw [hpos]; omega), hpos]
  | room next ih =>
    obtain ⟨o, n, hn, hr, hfail⟩ := ih (stops.head?.map (· - s.pos)) stops hf
    have hroom : ∀ place failure, (room next).run stops (s.failingAt place failure) =
        (next (stops.head?.map (· - s.pos))).run stops (s.failingAt place failure) := by
      intro place failure
      rw [run, Source.failingAt_pos]
    refine ⟨o, n, hn, hr, fun place hp failure => ?_⟩
    rcases hfail place hp failure with h | h
    · exact .inl ⟨h.le, (hroom place failure).trans h.run⟩
    · exact .inr ⟨h.le, (hroom place failure).trans h.run, h.at_end⟩
  | within what size body next ihb ih =>
    obtain ⟨ob, m, hm, hb, hbody⟩ := ihb ((s.pos + size) :: stops) hf
    have hleave := leave_snd what size (s.pos + size) (ob, s.advance m)
    rcases hl : leave what size (s.pos + size) (ob, s.advance m) with ⟨error | b, t⟩
    all_goals
      rw [hl] at hleave
      obtain rfl : t = s.advance m := hleave
    · refine ⟨.error error, m, hm, ?_, fun place hp failure => ?_⟩
      · rw [run, hb, hl]
      rcases hbody place hp failure with h | h
      · refine .inl ⟨h.le, ?_⟩
        rw [run, Source.failingAt_pos, h.leave, hl]
      · refine .inr ⟨h.le, h.run_within, fun he => ?_⟩
        obtain ⟨⟨error', herror, heq⟩, hst⟩ := h.leave_at_end what he
        obtain ⟨⟨⟩, -⟩ := Prod.mk.inj (hl.symm.trans heq)
        exact ⟨⟨error, herror, rfl⟩, hst⟩
    · obtain ⟨o, n, hn, hr, hfail⟩ := ih b stops (s := s.advance m) hf
      rw [Source.advance_rest, List.length_drop] at hn hfail
      refine ⟨o, m + n, by omega, ?_, fun place hp failure => ?_⟩
      · rw [run, hb, hl, ← Source.advance_advance]
        exact hr
      rcases hbody place hp failure with h | h
      · have hle := h.le
        have hrun : (within what size body next).run stops (s.failingAt place failure) =
            (next b).run stops ((s.failingAt place failure).advance m) := by
          rw [run, Source.failingAt_pos, h.leave, hl]
        rcases hfail (place - m) (by omega) failure with h' | h'
        · exact .inl (h'.after hle hp hrun)
        · exact .inr (h'.after hle hp hrun)
      · have hle := h.le
        refine .inr ⟨by omega, h.run_within, fun he => ?_⟩
        obtain ⟨⟨error', -, heq⟩, -⟩ := h.leave_at_end what (by omega)
        cases (Prod.mk.inj (hl.symm.trans heq)).1

/-! ### Deliveries -/

/-- **However the bytes are delivered.** What a program makes of some bytes, which program it may
be, is an outcome and a number of bytes that it takes. It comes to the same from a source that hands
the bytes over in chunks and with interruptions. From one that fails at some place before it took
the last of its bytes, it comes to this failure with all bytes up to there taken; a failure behind
them changes nothing, unless it comes in place of an end of the bytes that the program reports.

Reading a tag, reading into one, passing over one, and every item and frame that they read are
such programs. -/
theorem run_delivered (p : Reading α) (stops : List Nat) (bytes : Bytes) (pos : Nat) :
    ∃ o, ∃ q ≤ bytes.length,
      p.run stops { rest := bytes, pos } = (o, { rest := bytes.drop q, pos := pos + q }) ∧
      ∀ pace, let s : Source := { rest := bytes, pos, pace }
        p.run stops s = (o, { rest := bytes.drop q, pos := pos + q, pace }) ∧
        ∀ place failure, let t := s.failingAt place failure
          (place < q → p.run stops t = (.error (.io failure), t.advance place)) ∧
          (q ≤ place → (∀ expected got, o ≠ .error (.unexpectedEnd expected got)) →
            p.run stops t = (o, t.advance q)) := by
  obtain ⟨o, q, hq, hr, hfail⟩ :=
    exists_spared_or_stopped p stops (s := { rest := bytes, pos }) rfl
  change q ≤ bytes.length at hq
  refine ⟨o, q, hq, hr, fun pace => ?_⟩
  intro s
  have hpaced : ∀ {t : Source} {o t'}, p.run stops t = (o, t') →
      p.run stops (t.withPace pace) = (o, t'.withPace pace) := fun h => by
    rw [run_withPace, h]
  refine ⟨hpaced hr, fun place failure => ?_⟩
  rcases Nat.lt_or_ge bytes.length place with hlt | hp
  · -- the place lies behind all bytes, so the source does not fail
    have hs : s.failingAt place failure = s := Source.failingAt_of_lt hlt failure
    intro t
    have ht : t = s := hs
    rw [ht]
    exact ⟨fun h => by omega, fun _ _ => hpaced hr⟩
  intro t
  have ht : t = (Source.failingAt { rest := bytes, pos } place failure).withPace pace :=
    Source.failingAt_withPace { rest := bytes, pos } pace place failure
  rw [ht]
  rcases hfail place hp failure with h | h
  · have hle := h.le
    exact ⟨fun hlt => by omega, fun _ _ => hpaced h.run⟩
  · refine ⟨fun _ => hpaced h.run, fun hle ho => ?_⟩
    obtain ⟨⟨_, ⟨expected, got, rfl⟩, rfl⟩, -⟩ := h.at_end (le_antisymm h.le hle)
    exact absurd rfl (ho expected got)

/-- An array with one element, handed over byte by byte with interruptions: cut off inside the frame
by a failure that looks like an end of the bytes, and behind its last byte. -/
theorem run_delivered_array :
    let p := Registry.read {}
    let s : Source := { rest := [21, 3, 1, 1, 7], pace := .steady (some 1) true }
    let failure : IoFailure := ⟨.unexpectedEof, "gone"⟩
    p.run [] s = (.ok (.mk 21 (.tagArray [.mk 1 (.bool true)])), s.advance 5) ∧
    p.run [] (s.failingAt 4 failure) =
      (.error (.io failure), (s.failingAt 4 failure).advance 4) ∧
    p.run [] (s.failingAt 5 failure) =
      (.ok (.mk 21 (.tagArray [.mk 1 (.bool true)])), (s.failingAt 5 failure).advance 5) := by
  intro p s failure
  have hread : p.run [] { rest := [21, 3, 1, 1, 7] } =
      (.ok (.mk 21 (.tagArray [.mk 1 (.bool true)])), { rest := [], pos := 5 }) := by
    cbv
  obtain ⟨o, q, -, hr, hall⟩ := run_delivered p [] [21, 3, 1, 1, 7] 0
  obtain ⟨rfl, ht⟩ := Prod.mk.inj (hr.symm.trans hread)
  obtain rfl : q = 5 := by
    have hpos : 0 + q = 5 := congrArg Source.pos ht
    omega
  obtain ⟨hpaced, hfail⟩ := hall (.steady (some 1) true)
  exact ⟨hpaced, (hfail 4 failure).1 (by decide), (hfail 5 failure).2 le_rfl (by rintro _ _ ⟨⟩)⟩

end Reading

end TagFormat
