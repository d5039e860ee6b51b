import TagFormat.Proofs.Input.Yields

/-! # Programs look no further than they read

A program that never claims on its own account that the bytes ended (`Candid`) either settles on a
result from the bytes that it has read, whatever follows them, or has read all the bytes there are
(`settles_or_runsOut`). In the first case it reports the end of the bytes only at the end of a
frame, so outside of all frames never. -/

namespace TagFormat

/-- The report that the bytes ended. -/
def TagError.IsEnd (error : TagError) : Prop :=
  ∃ expected got, error = .unexpectedEnd expected got

/-- More bytes behind those of a source. -/
def Source.extend (s : Source) (extra : Bytes) : Source :=
  { s with rest := s.rest ++ extra }

theorem Source.extend_nil (s : Source) : s.extend [] = s := by
  rw [extend, List.append_nil]

theorem Source.extend_advance {s : Source} {n : Nat} (h : n ≤ s.rest.length) (extra : Bytes) :
    (s.extend extra).advance n = (s.advance n).extend extra := by
  simp only [extend, advance, List.drop_append_of_le_length h]

namespace Reading

variable {α β : Type}

/-! ### Programs that never claim that the bytes ended -/

/-- The program reports the end of the bytes only where it asks for bytes. -/
def Candid : {γ : Type} → Reading γ → Prop
  | _, .done _ => True
  | _, .fail error => ¬error.IsEnd
  | _, .take _ _ next => ∀ bytes, (next bytes).Candid
  | _, .room next => ∀ left, (next left).Candid
  | _, .within _ _ body next => body.Candid ∧ ∀ b, (next b).Candid

theorem Candid.bind {p : Reading α} {f : α → Reading β} (hp : p.Candid)
    (hf : ∀ a, (f a).Candid) : (p.bind f).Candid := by
  induction p with
  | done a => exact hf a
  | fail error => exact hp
  | take before count next ih => exact fun bytes => ih bytes (hp bytes) hf
  | room next ih => exact fun left => ih left (hp left) hf
  | within what size body next _ ih => exact ⟨hp.1, fun b => ih b (hp.2 b) hf⟩

theorem candid_ofExcept {r : Except TagError α} (h : ∀ error, r = .error error → ¬error.IsEnd) :
    (ofExcept r).Candid := by
  cases r with
  | error error => exact h error rfl
  | ok a => trivial

/-! ### One run, and what follows the bytes -/

/-- The program comes to the outcome `o` after `n` bytes that are there, in the frames that end at
`stops`, whatever follows the bytes; if it reports the end of the bytes, a frame ends there. -/
structure Settles (p : Reading α) (stops : List Nat) (s : Source) (o : Except TagError α)
    (n : Nat) : Prop where
  le : n ≤ s.rest.length
  within_stops : ∀ stop ∈ stops, s.pos + n ≤ stop
  run : ∀ extra, p.run stops (s.extend extra) = (o, (s.extend extra).advance n)
  at_stop : ∀ error, o = .error error → error.IsEnd → s.pos + n ∈ stops

/-- The program asks for more bytes than there are, before any of the frames ends. -/
structure RunsOut (p : Reading α) (stops : List Nat) (s : Source) : Prop where
  before_stops : ∀ stop ∈ stops, s.pos + s.rest.length < stop
  run : ∃ error : TagError, error.IsEnd ∧ p.run stops s = (.error error, s.advance s.rest.length)

variable {stops : List Nat} {s : Source}

theorem Settles.run_self {p : Reading α} {o : Except TagError α} {n : Nat}
    (h : p.Settles stops s o n) : p.run stops s = (o, s.advance n) := by
  have := h.run []
  rwa [Source.extend_nil] at this

/-- One step is followed by a program that settles. -/
theorem Settles.after {p q : Reading α} {m n : Nat} {o : Except TagError α}
    (hm : m ≤ s.rest.length)
    (hrun : ∀ extra, p.run stops (s.extend extra) = q.run stops ((s.extend extra).advance m))
    (h : q.Settles stops (s.advance m) o n) : p.Settles stops s o (m + n) := by
  have hle := h.le
  rw [Source.advance_rest, List.length_drop] at hle
  refine ⟨by omega, fun stop hs => ?_, fun extra => ?_, fun error ho he => ?_⟩
  · have := h.within_stops stop hs
    rw [Source.advance_pos] at this
    omega
  · rw [hrun, Source.extend_advance hm, h.run, ← Source.extend_advance hm, Source.advance_advance]
  · have := h.at_stop error ho he
    rwa [Source.advance_pos, Nat.add_assoc] at this

/-- One step is followed by a program that runs out of bytes. -/
theorem RunsOut.after {p q : Reading α} {m : Nat} (hm : m ≤ s.rest.length)
    (hrun : p.run stops s = q.run stops (s.advance m)) (h : q.RunsOut stops (s.advance m)) :
    p.RunsOut stops s := by
  have hlen : m + (s.advance m).rest.length = s.rest.length := by
    rw [Source.advance_rest, List.length_drop]
    omega
  obtain ⟨error, he, hr⟩ := h.run
  refine ⟨fun stop hs => ?_, error, he, ?_⟩
  · have := h.before_stops stop hs
    rw [Source.advance_pos] at this
    omega
  · rw [hrun, hr, Source.advance_advance, hlen]

/-! ### Taking bytes -/

theorem add_allowed_le {place count : Nat} (hs : ∀ stop ∈ stops, place ≤ stop) :
    ∀ stop ∈ stops, place + allowed stops place count ≤ stop := fun stop h => by
  have := (le_allowed_iff.mp (le_refl (allowed stops place count))).2 stop h
  have := hs stop h
  omega

/-- A reader that gets less than it asks for gets all that one of the frames has left. -/
theorem add_allowed_mem {place count : Nat} (hs : ∀ stop ∈ stops, place ≤ stop)
    (h : allowed stops place count ≠ count) : place + allowed stops place count ∈ stops := by
  induction stops generalizing count with
  | nil => exact absurd rfl h
  | cons stop stops ih =>
    have hstop := hs stop List.mem_cons_self
    have hs' : ∀ stop ∈ stops, place ≤ stop := fun t ht => hs t (List.mem_cons_of_mem _ ht)
    have hcons : allowed (stop :: stops) place count =
        allowed stops place (min count (stop - place)) := rfl
    rw [hcons] at h ⊢
    by_cases he : allowed stops place (min count (stop - place)) = min count (stop - place)
    · rw [he] at h ⊢
      have : place + min count (stop - place) = stop := by omega
      rw [this]
      exact List.mem_cons_self
    · exact List.mem_cons_of_mem _ (ih hs' he)

theorem run_take_of_le {before count : Nat} {next : Bytes → Reading α}
    (h : allowed stops s.pos count = count) (hc : count ≤ s.rest.length) :
    (take before count next).run stops s =
      (next (s.rest.take count)).run stops (s.advance count) := by
  have hl : (s.rest.take count).length = count := by
    rw [List.length_take, Nat.min_eq_left hc]
  rw [run, h, Source.fill_of_le hc]
  simp only [hl, if_true]

theorem run_take_of_ne {before count : Nat} {next : Bytes → Reading α}
    (h : allowed stops s.pos count ≠ count) (hc : allowed stops s.pos count ≤ s.rest.length) :
    (take before count next).run stops s =
      (.error (.unexpectedEnd (before + count) (before + allowed stops s.pos count)),
        s.advance (allowed stops s.pos count)) := by
  have hl : (s.rest.take (allowed stops s.pos count)).length = allowed stops s.pos count := by
    rw [List.length_take, Nat.min_eq_left hc]
  rw [run, Source.fill_of_le hc]
  simp only [hl, if_neg h]

theorem run_take_of_lt {before count : Nat} {next : Bytes → Reading α} (hf : s.failure = none)
    (h : s.rest.length < allowed stops s.pos count) :
    (take before count next).run stops s =
      (.error (.unexpectedEnd (before + count) (before + s.rest.length)),
        s.advance s.rest.length) := by
  have hle := allowed_le stops s.pos count
  rw [run, Source.fill_of_lt h, Source.atEnd, hf]
  simp only
  rw [if_neg (by omega)]

/-! ### Leaving a frame -/

/-- A frame whose body settles: what becomes of its outcome does not hang on what follows. -/
theorem Settles.within_of_error {what : String} {size n : Nat} {body : Reading β}
    {next : β → Reading α} {error : TagError}
    (h : body.Settles ((s.pos + size) :: stops) s (.error error) n) :
    ∃ o, (within what size body next).Settles stops s o n := by
  have hstops : ∀ stop ∈ stops, s.pos + n ≤ stop :=
    fun stop hs => h.within_stops stop (List.mem_cons_of_mem _ hs)
  have hleave : ∃ error', (∀ t : Source, t.pos = s.pos + n →
      leave what size (s.pos + size) ((.error error, t) : Except TagError β × Source) =
        (.error error', t)) ∧ (error'.IsEnd → s.pos + n ∈ stops) := by
    by_cases he : error.IsEnd
    · obtain ⟨expected, got, rfl⟩ := he
      by_cases hn : s.pos + n = s.pos + size
      · refine ⟨.format (.overrun what size), fun t ht => ?_, ?_⟩
        · rw [leave, if_pos (ht.trans hn)]
        · rintro ⟨expected, got, he⟩
          cases he
      · refine ⟨.unexpectedEnd expected got, fun t ht => ?_, fun _ => ?_⟩
        · rw [leave, if_neg (by rw [ht]; exact hn)]
        · exact (List.mem_cons.mp (h.at_stop _ rfl ⟨_, _, rfl⟩)).resolve_left hn
    · refine ⟨error, fun t _ => ?_, fun h => absurd h he⟩
      cases error <;> first | rfl | exact absurd ⟨_, _, rfl⟩ he
  obtain ⟨error', hl, hmem⟩ := hleave
  refine ⟨.error error', h.le, hstops, fun extra => ?_, ?_⟩
  · have hr := h.run extra
    have hpos : (s.extend extra).pos = s.pos := rfl
    rw [Reading.run, hpos, hr, hl _ rfl]
  · rintro _ ⟨⟩
    exact hmem

theorem Settles.within_of_ok {what : String} {size n : Nat} {body : Reading β}
    {next : β → Reading α} {b : β} (h : body.Settles ((s.pos + size) :: stops) s (.ok b) n)
    (hn : n ≠ size) : ∃ o, (within what size body next).Settles stops s o n := by
  refine ⟨.error (.format (.trailingBytes what (s.pos + size - (s.pos + n)))), h.le,
    fun stop hs => h.within_stops stop (List.mem_cons_of_mem _ hs), fun extra => ?_, ?_⟩
  · have hpos : (s.extend extra).pos = s.pos := rfl
    rw [Reading.run, hpos, h.run extra, leave, Source.advance_pos, hpos,
      if_neg (by omega)]
  · rintro _ ⟨⟩ ⟨expected, got, he⟩
    cases he

theorem RunsOut.within {what : String} {size : Nat} {body : Reading β} {next : β → Reading α}
    (h : body.RunsOut ((s.pos + size) :: stops) s) :
    (within what size body next).RunsOut stops s := by
  obtain ⟨_, ⟨expected, got, rfl⟩, hr⟩ := h.run
  have hlt := h.before_stops _ List.mem_cons_self
  refine ⟨fun stop hs => h.before_stops stop (List.mem_cons_of_mem _ hs),
    .unexpectedEnd expected got, ⟨expected, got, rfl⟩, ?_⟩
  rw [Reading.run, hr, leave, Source.advance_pos, if_neg (by omega)]

/-! ### Whole programs -/

/-- **A program looks no further than it reads**: it settles on an outcome, whatever follows, or it
asks for more bytes than there are. -/
theorem settles_or_runsOut {p : Reading α} (hp : p.Candid) (hf : s.failure = none)
    (hs : ∀ stop ∈ stops, s.pos ≤ stop) : (∃ o n, p.Settles stops s o n) ∨ p.RunsOut stops s := by
  induction p generalizing stops s with
  | done a => exact .inl ⟨.ok a, 0, Nat.zero_le _, hs, fun extra => rfl, fun _ h => nomatch h⟩
  | fail error =>
    refine .inl ⟨.error error, 0, Nat.zero_le _, hs, fun extra => rfl, ?_⟩
    rintro _ ⟨⟩ he
    exact absurd he hp
  | take before count next ih =>
    rcases Nat.lt_or_ge s.rest.length (allowed stops s.pos count) with hlt | hge
    · refine .inr ⟨fun stop h' => ?_, _, ⟨_, _, rfl⟩, run_take_of_lt hf hlt⟩
      have := (le_allowed_iff.mp (Nat.succ_le_of_lt hlt)).2 stop h'
      omega
    · have hge' : ∀ extra, allowed stops s.pos count ≤ (s.extend extra).rest.length := by
        intro extra
        rw [Source.extend, List.length_append]
        omega
      by_cases he : allowed stops s.pos count = count
      · have hrun : ∀ extra, (take before count next).run stops (s.extend extra) =
            (next (s.rest.take count)).run stops ((s.extend extra).advance count) := fun extra => by
          rw [run_take_of_le (s := s.extend extra) he (he ▸ hge' extra), Source.extend,
            List.take_append_of_le_length (he ▸ hge)]
        have hfit := (allowed_eq_iff hs).mp he
        rcases ih (s.rest.take count) (hp _) (s := s.advance count) hf hfit with ⟨o, n, h⟩ | h
        · exact .inl ⟨o, count + n, h.after (he ▸ hge) hrun⟩
        · exact .inr (h.after (he ▸ hge) (run_take_of_le he (he ▸ hge)))
      · refine .inl ⟨.error (.unexpectedEnd (before + count) (before + allowed stops s.pos count)),
          allowed stops s.pos count, hge, add_allowed_le hs, fun extra => ?_,
          fun _ _ _ => add_allowed_mem hs he⟩
        exact run_take_of_ne (s := s.extend extra) he (hge' extra)
  | room next ih =>
    rcases ih (stops.head?.map (· - s.pos)) (hp _) hf hs with ⟨o, n, h⟩ | h
    · exact .inl ⟨o, n, h.le, h.within_stops, h.run, h.at_stop⟩
    · exact .inr ⟨h.before_stops, h.run⟩
  | within what size body next ihb ih =>
    have hs' : ∀ stop ∈ (s.pos + size) :: stops, s.pos ≤ stop := by
      simpa using hs
    rcases ihb hp.1 hf hs' with ⟨o, m, h⟩ | h
    · rcases o with error | b
      · exact .inl (h.within_of_error.imp fun o ho => ⟨m, ho⟩)
      · by_cases hm : m = size
        · subst hm
          have hrun : ∀ extra, (within what m body next).run stops (s.extend extra) =
              (next b).run stops ((s.extend extra).advance m) := fun extra => by
            have hpos : (s.extend extra).pos = s.pos := rfl
            rw [run, hpos, h.run extra, leave, Source.advance_pos, hpos, if_pos rfl]
          have hfit : ∀ stop ∈ stops, (s.advance m).pos ≤ stop :=
            fun stop h' => h.within_stops stop (List.mem_cons_of_mem _ h')
          rcases ih b (hp.2 b) (s := s.advance m) hf hfit with ⟨o, n, h'⟩ | h'
          · exact .inl ⟨o, m + n, h'.after h.le hrun⟩
          · refine .inr (h'.after h.le ?_)
            have := hrun []
            rwa [Source.extend_nil] at this
        · exact .inl (h.within_of_ok hm |>.imp fun o ho => ⟨m, ho⟩)
    · exact .inr h.within

/-! ### Outside of all frames -/

variable {p : Reading α} {o : Except TagError α} {t : Source}

theorem settles_of_not_isEnd (hp : p.Candid) (hf : s.failure = none) (h : p.run [] s = (o, t))
    (ho : ∀ error, o = .error error → ¬error.IsEnd) : ∃ n, p.Settles [] s o n := by
  rcases settles_or_runsOut hp hf (List.forall_mem_nil (s.pos ≤ ·)) with ⟨o', n, hn⟩ | hn
  · obtain ⟨rfl, -⟩ := Prod.mk.inj (h.symm.trans hn.run_self)
    exact ⟨n, hn⟩
  · obtain ⟨error, he, hr⟩ := hn.run
    obtain ⟨rfl, -⟩ := Prod.mk.inj (h.symm.trans hr)
    exact absurd he (ho error rfl)

theorem eq_advance_of_isEnd (hp : p.Candid) (hf : s.failure = none) {error : TagError}
    (he : error.IsEnd) (h : p.run [] s = (.error error, t)) : t = s.advance s.rest.length := by
  rcases settles_or_runsOut hp hf (List.forall_mem_nil (s.pos ≤ ·)) with ⟨o', n, hn⟩ | hn
  · obtain ⟨rfl, -⟩ := Prod.mk.inj (h.symm.trans hn.run_self)
    exact absurd (hn.at_stop error rfl he) List.not_mem_nil
  · obtain ⟨error', -, hr⟩ := hn.run
    exact (Prod.mk.inj (h.symm.trans hr)).2

end Reading

end TagFormat
