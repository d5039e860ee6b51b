import TagFormat.Proofs.Input.Delivery

/-! # How many bytes a program takes

Whoever reads goes on from one place to another and passes the end of no frame (`onward_run`), also
a caller that is no program and makes of the single calls what it likes (`Caller.onward_run`). So a
frame is left with a result only if exactly its bytes have been taken, and never after more of them
(`spends_leave`), whatever was done in it. For programs this can be told from the steps that they
are made of: `p.Takes least most` says that `p` takes no more than `most` bytes, and no fewer than
`least` if it succeeds (`Takes.spends_run`). -/

namespace TagFormat

open Reading

variable {α β : Type}

/-! ### Onward within frames -/

/-- The source `t` is `s` after some bytes, before the end of each frame that had not ended. -/
def Source.Onward (stops : List Nat) (s t : Source) : Prop :=
  ∃ n ≤ s.rest.length, t = s.advance n ∧ ∀ stop ∈ stops, s.pos ≤ stop → s.pos + n ≤ stop

/-- What came of reading from `s`: no more than `most` bytes were taken, and with a result no fewer
than `least`. -/
def Source.Spends (s : Source) (least most : Nat) (r : Except TagError α × Source) : Prop :=
  ∃ n ≤ s.rest.length, n ≤ most ∧ r.2 = s.advance n ∧ ∀ a, r.1 = .ok a → least ≤ n

namespace Source

variable {stops : List Nat} {s t u : Source}

theorem Onward.refl (stops : List Nat) (s : Source) : Onward stops s s :=
  ⟨0, Nat.zero_le _, rfl, fun _ _ h => h⟩

theorem Onward.trans (h : Onward stops s t) (h' : Onward stops t u) : Onward stops s u := by
  obtain ⟨m, hm, rfl, hsm⟩ := h
  obtain ⟨n, hn, rfl, hsn⟩ := h'
  rw [advance_rest, List.length_drop] at hn
  refine ⟨m + n, by omega, advance_advance .., fun stop hmem hle => ?_⟩
  have := hsn stop hmem (hsm stop hmem hle)
  rw [advance_pos] at this
  omega

/-- In fewer frames there is no less room. -/
theorem Onward.tail {stop : Nat} (h : Onward (stop :: stops) s t) : Onward stops s t := by
  obtain ⟨n, hn, ht, hstops⟩ := h
  exact ⟨n, hn, ht, fun stop hmem => hstops stop (List.mem_cons_of_mem _ hmem)⟩

/-- A reader that takes what the frames allow passes the end of none. -/
theorem onward_advance {want n : Nat} (hn : n ≤ s.rest.length) (ha : n ≤ allowed stops s.pos want) :
    Onward stops s (s.advance n) := by
  refine ⟨n, hn, rfl, fun stop hmem hle => ?_⟩
  have := (le_allowed_iff.mp ha).2 stop hmem
  omega

theorem onward_fill (stops : List Nat) (s : Source) (want : Nat) :
    Onward stops s (s.fill (allowed stops s.pos want)).2.2 := by
  rcases Nat.lt_or_ge s.rest.length (allowed stops s.pos want) with hlt | hge
  · rw [fill_of_lt hlt]
    exact onward_advance le_rfl hlt.le
  · rw [fill_of_le hge]
    exact onward_advance hge le_rfl

variable {least most m : Nat} {r : Except TagError α × Source}

theorem Spends.of_error {error : TagError} (hr : m ≤ s.rest.length) (hm : m ≤ most) :
    s.Spends least most ((.error error, s.advance m) : Except TagError α × Source) :=
  ⟨m, hr, hm, rfl, fun _ h => nomatch h⟩

/-- What is taken after the first `m` bytes. -/
theorem Spends.after (hr : m ≤ s.rest.length) (hm : m ≤ most)
    (h : (s.advance m).Spends (least - m) (most - m) r) : s.Spends least most r := by
  obtain ⟨n, hn, hmost, ht, hok⟩ := h
  rw [advance_rest, List.length_drop] at hn
  refine ⟨m + n, by omega, by omega, by rw [ht, advance_advance], fun a ha => ?_⟩
  have := hok a ha
  omega

end Source

namespace Reading

/-- **No program passes the end of a frame**, and none goes back. -/
theorem onward_run (p : Reading α) (stops : List Nat) (s : Source) :
    Source.Onward stops s (p.run stops s).2 := by
  induction p generalizing stops s with
  | done a => exact .refl stops s
  | fail error => exact .refl stops s
  | take before count next ih =>
    have hfill := s.onward_fill stops count
    rw [run]
    generalize s.fill (allowed stops s.pos count) = filled at hfill
    obtain ⟨got, stop, t⟩ := filled
    by_cases hgot : got.length = count
    · cases stop with
      | failed failure => exact hfill
      | filled | ended =>
        simp only [hgot, if_true]
        exact hfill.trans (ih got stops t)
    · cases stop with
      | failed failure => exact hfill
      | filled | ended =>
        simp only [hgot, if_false]
        exact hfill
  | room next ih =>
    rw [run]
    exact ih _ stops s
  | within what size body next ihb ih =>
    have hbody := (ihb ((s.pos + size) :: stops) s).tail
    rw [run]
    rw [← leave_snd what size (s.pos + size)] at hbody
    generalize leave what size (s.pos + size) (body.run ((s.pos + size) :: stops) s) = left
      at hbody ⊢
    obtain ⟨error | b, t⟩ := left
    · exact hbody
    · exact hbody.trans (ih b stops t)

/-- Where a frame has ended, nothing is read. -/
theorem run_snd_of_stop_le {p : Reading α} {stops : List Nat} {stop : Nat} {s : Source}
    (hmem : stop ∈ stops) (hle : stop ≤ s.pos) : (p.run stops s).2 = s := by
  induction p generalizing stops with
  | done a => rfl
  | fail error => rfl
  | take before count next ih =>
    have hzero : allowed stops s.pos count = 0 := by
      have := (le_allowed_iff.mp (le_refl (allowed stops s.pos count))).2 stop hmem
      omega
    rw [run, hzero, Source.fill_of_le (Nat.zero_le _)]
    by_cases hc : count = 0
    · simp only [List.take_zero, List.length_nil, hc, if_true]
      exact ih _ hmem
    · simp only [List.take_zero, List.length_nil, Ne.symm hc, if_false]
      rfl
  | room next ih => exact ih _ hmem
  | within what size body next ihb ih =>
    have hbody := ihb (List.mem_cons_of_mem (s.pos + size) hmem)
    rw [run]
    rw [← leave_snd what size (s.pos + size)] at hbody
    generalize leave what size (s.pos + size) (body.run ((s.pos + size) :: stops) s) = left
      at hbody ⊢
    obtain ⟨error | b, t⟩ := left
    · exact hbody
    · obtain rfl : t = s := hbody
      exact ih b hmem

end Reading

/-! ### Callers -/

/-- One that reads as it likes: it makes single calls, is told how each of them ended, be it with an
interruption, with a failure or at the end of the bytes, and comes to an outcome of its own. -/
inductive Caller (α : Type) where
  | stop (outcome : Except TagError α)
  | call (want : Nat) (next : Source.Delivery → Caller α)

namespace Caller

/-- Plays a caller against a source, inside frames that end at `stops`, after `attempt` calls at this
place. Where a frame has ended, no call reaches the source. -/
def run : Caller α → (stops : List Nat) → (attempt : Nat) → Source → Except TagError α × Source
  | .stop outcome, _, _, s => (outcome, s)
  | .call want next, stops, attempt, s =>
    match allowed stops s.pos want with
    | 0 => (next (.bytes [])).run stops attempt s
    | count + 1 =>
      match s.call (count + 1) attempt with
      | .bytes (b :: got) => (next (.bytes (b :: got))).run stops 0 (s.advance (got.length + 1))
      | delivery => (next delivery).run stops (attempt + 1) s

/-- A program, and then a caller. -/
def after (first : Reading β) (c : β → Caller α) (stops : List Nat) (s : Source) :
    Except TagError α × Source :=
  match first.run stops s with
  | (.ok b, t) => (c b).run stops 0 t
  | (.error error, t) => (.error error, t)

/-- A program and then a caller, in a frame of `size` bytes that has to be used up exactly. -/
def exactly (what : String) (size : Nat) (first : Reading β) (c : β → Caller α) (stops : List Nat)
    (s : Source) : Except TagError α × Source :=
  leave what size (s.pos + size) (after first c ((s.pos + size) :: stops) s)

/-- A call hands over bytes that are there, and no more than it was asked for. -/
theorem length_le_of_call {s : Source} {count attempt : Nat} {got : Bytes}
    (h : s.call count attempt = .bytes got) : got.length ≤ s.rest.length ∧ got.length ≤ count := by
  rw [Source.call] at h
  split_ifs at h
  split at h
  · cases h
  · have hgot := Source.Delivery.bytes.inj h
    have hlimit : s.pace.limit s.pos count ≤ count := by
      unfold Pace.limit
      split <;> omega
    rw [← hgot, List.length_take]
    omega

/-- **No caller passes the end of a frame.** -/
theorem onward_run (c : Caller α) (stops : List Nat) (attempt : Nat) (s : Source) :
    Source.Onward stops s (c.run stops attempt s).2 := by
  induction c generalizing attempt s with
  | stop outcome => exact .refl stops s
  | call want next ih =>
    rw [run]
    split
    · exact ih _ attempt s
    · next count ha =>
      split
      · next b got hcall =>
        obtain ⟨hrest, hcount⟩ := length_le_of_call hcall
        rw [List.length_cons] at hrest hcount
        exact (Source.onward_advance hrest (hcount.trans ha.ge)).trans (ih _ 0 _)
      · exact ih _ (attempt + 1) s

theorem onward_after (first : Reading β) (c : β → Caller α) (stops : List Nat) (s : Source) :
    Source.Onward stops s (after first c stops s).2 := by
  have hfirst := first.onward_run stops s
  rw [after]
  generalize first.run stops s = r at hfirst
  obtain ⟨error | b, t⟩ := r
  · exact hfirst
  · exact hfirst.trans ((c b).onward_run stops 0 t)

end Caller

/-! ### Frames -/

/-- **A frame is left with a result** only where exactly its bytes have been taken, whatever was
done in it. -/
theorem spends_leave {what : String} {size : Nat} {stops : List Nat} {s : Source}
    {r : Except TagError α × Source} (h : Source.Onward ((s.pos + size) :: stops) s r.2) :
    s.Spends size size (leave what size (s.pos + size) r) := by
  obtain ⟨n, hn, ht, hstops⟩ := h
  have hsize := hstops _ List.mem_cons_self (Nat.le_add_right _ _)
  refine ⟨n, hn, by omega, (leave_snd ..).trans ht, fun a ha => ?_⟩
  obtain ⟨-, hpos⟩ := leave_eq_ok_iff.mp (show leave what size (s.pos + size) r =
    (.ok a, (leave what size (s.pos + size) r).2) from Prod.ext ha rfl)
  rw [leave_snd, ht, Source.advance_pos] at hpos
  omega

theorem Caller.spends_exactly (what : String) (size : Nat) (first : Reading β) (c : β → Caller α)
    (stops : List Nat) (s : Source) : s.Spends size size (exactly what size first c stops s) :=
  spends_leave (onward_after first c _ s)

/-! ### Programs -/

namespace Reading

/-- The program takes no more than `most` bytes, and no fewer than `least` if it succeeds. -/
def Takes : {γ : Type} → Reading γ → (least most : Nat) → Prop
  | _, .done _, least, _ => least = 0
  | _, .fail _, _, _ => True
  | _, .take _ count next, least, most =>
    count ≤ most ∧ ∀ bytes, (next bytes).Takes (least - count) (most - count)
  | _, .room next, least, most => ∀ left, (next left).Takes least most
  | _, .within _ size _ next, least, most =>
    size ≤ most ∧ ∀ b, (next b).Takes (least - size) (most - size)

variable {p : Reading α} {least most : Nat}

/-- **What can be told from its steps** holds of every run of a program. -/
theorem Takes.spends_run (h : p.Takes least most) (stops : List Nat) (s : Source) :
    s.Spends least most (p.run stops s) := by
  induction p generalizing least most s with
  | done a => exact ⟨0, Nat.zero_le _, Nat.zero_le _, rfl, fun _ _ => h.le⟩
  | fail error => exact ⟨0, Nat.zero_le _, Nat.zero_le _, rfl, fun a ha => by cases ha⟩
  | take before count next ih =>
    obtain ⟨hc, hn⟩ := h
    have hle := allowed_le stops s.pos count
    rw [run]
    rcases Nat.lt_or_ge s.rest.length (allowed stops s.pos count) with hlt | hge
    · rw [Source.fill_of_lt hlt]
      cases s.atEnd with
      | failed failure => exact .of_error le_rfl (by omega)
      | filled | ended =>
        simp only
        rw [if_neg (by omega)]
        exact .of_error le_rfl (by omega)
    · rw [Source.fill_of_le hge]
      simp only [List.length_take, Nat.min_eq_left hge]
      -- A frame may allow fewer bytes than are asked for; those are taken before it fails.
      split_ifs with he
      · rw [he] at hge ⊢
        exact .after hge hc (ih _ (hn _) _)
      · exact .of_error hge (by omega)
  | room next ih =>
    rw [run]
    exact ih _ (h _) s
  | within what size body next ihb ih =>
    obtain ⟨hsize, hn⟩ := h
    have hleft : s.Spends size size
        (leave what size (s.pos + size) (body.run ((s.pos + size) :: stops) s)) :=
      spends_leave (onward_run body _ s)
    obtain ⟨n, hnr, hns, ht, hok⟩ := hleft
    rw [run]
    generalize leave what size (s.pos + size) (body.run ((s.pos + size) :: stops) s) = left
      at ht hok
    obtain ⟨error | b, t⟩ := left
    · obtain rfl : t = s.advance n := ht
      exact .of_error hnr (by omega)
    · obtain rfl : t = s.advance n := ht
      obtain rfl : n = size := le_antisymm hns (hok b rfl)
      exact .after hnr hsize (ih b (hn b) _)

/-! ### Programs one after another -/

theorem Takes.mono {least' most' : Nat} (h : p.Takes least most) (hl : least' ≤ least)
    (hm : most ≤ most') : p.Takes least' most' := by
  induction p generalizing least most least' most' with
  | done a => exact Nat.le_zero.mp (hl.trans h.le)
  | fail error => trivial
  | take before count next ih =>
    exact ⟨h.1.trans hm, fun bytes => ih bytes (h.2 bytes) (by omega) (by omega)⟩
  | room next ih => exact fun left => ih left (h left) hl hm
  | within what size body next _ ih =>
    exact ⟨h.1.trans hm, fun b => ih b (h.2 b) (by omega) (by omega)⟩

/-- What follows on a program takes the rest. -/
theorem Takes.bind {f : α → Reading β} {m n : Nat} (hp : p.Takes m n) (hn : n ≤ most)
    (hf : ∀ a, (f a).Takes (least - m) (most - n)) : (p.bind f).Takes least most := by
  induction p generalizing m n least most with
  | done a =>
    obtain rfl : m = 0 := hp
    exact (hf a).mono le_rfl (Nat.sub_le ..)
  | fail error => trivial
  | take before count next ih =>
    obtain ⟨hc, hnext⟩ := hp
    exact ⟨hc.trans hn, fun bytes => ih bytes (hnext bytes) (by omega) fun a =>
      (hf a).mono (by omega) (by omega)⟩
  | room next ih => exact fun left => ih left (hp left) hn hf
  | within what size body next _ ih =>
    obtain ⟨hsize, hnext⟩ := hp
    exact ⟨hsize.trans hn, fun b => ih b (hnext b) (by omega) fun a =>
      (hf a).mono (by omega) (by omega)⟩

theorem Takes.map (h : p.Takes least most) (f : α → β) :
    (p.bind fun a => done (f a)).Takes least most :=
  h.bind le_rfl fun _ => Nat.sub_self least

/-- A check takes no bytes. -/
theorem Takes.check {r : Except TagError β} {f : β → Reading α}
    (h : ∀ b, r = .ok b → (f b).Takes least most) : ((ofExcept r).bind f).Takes least most := by
  cases r with
  | error error => trivial
  | ok b => exact h b rfl

/-! ### Small programs -/

theorem takes_ofExcept (r : Except TagError α) : (ofExcept r).Takes 0 0 := by
  cases r with
  | error error => trivial
  | ok a => rfl

theorem takes_block (n : Nat) : (block n).Takes n n :=
  ⟨le_rfl, fun _ => Nat.sub_self n⟩

theorem takes_byte : byte.Takes 1 1 :=
  ⟨le_rfl, fun _ => rfl⟩

theorem takes_number (width : Nat) : (number width).Takes width width :=
  ⟨le_rfl, fun _ => Nat.sub_self width⟩

theorem takes_uint16 : uint16.Takes 2 2 :=
  (takes_number 2).map _

theorem takes_uint32 : uint32.Takes 4 4 :=
  (takes_number 4).map _

theorem takes_uint64 : uint64.Takes 8 8 :=
  (takes_number 8).map _

theorem takes_int32 : int32.Takes 4 4 :=
  takes_uint32.map _

theorem takes_text (n : Nat) : (text n).Takes n n := by
  refine (takes_block n).bind le_rfl fun bytes => ?_
  cases Utf8.decode bytes with
  | error fault => trivial
  | ok s => exact Nat.sub_self n

/-- Frames are used up exactly. -/
theorem takes_exactly (what : String) (size : Nat) (body : Reading α) :
    (exactly what size body).Takes size size :=
  ⟨le_rfl, fun _ => Nat.sub_self size⟩

theorem takes_varint : varint.Takes 1 9 := by
  refine takes_byte.bind (by decide) fun header => ?_
  have hbody : Varint.bodyLength header ≤ 8 := by
    have := header.toNat_lt
    rw [Varint.bodyLength, Varint.base]
    omega
  split
  · rfl
  · exact ⟨hbody, fun _ => (takes_ofExcept _).mono (Nat.zero_sub _).le (Nat.zero_le _)⟩

theorem takes_signedVarint : signedVarint.Takes 1 9 :=
  takes_varint.map _

end Reading

end TagFormat
