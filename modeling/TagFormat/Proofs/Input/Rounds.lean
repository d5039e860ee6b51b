import TagFormat.Proofs.Input.Items
import TagFormat.Proofs.Input.Taking

/-! # Loops that read

The loops over counted items, over items up to the end of a frame and over the entries of a
dictionary are given as what they do in one round (`countedRound`, `sequenceRound`, `entryRound`).
Their `Rounds` are played without any bound on their number, and each of them leaves less of the
frame than there was. If an item takes a byte, the loops come to an end in this way, and come to what
the programs come to that are bounded by a count or by the size of the frame (`ends_times`,
`ends_untilEnd`, `ends_entriesInto`). -/

namespace TagFormat.Reading

variable {α β σ τ : Type}

/-! ### Programs that take a byte -/

/-- The program comes to a result only after a byte. -/
def Advances (p : Reading α) : Prop :=
  ∀ (stops : List Nat) (s t : Source) (a : α), p.run stops s = (.ok a, t) →
    ∃ n, 0 < n ∧ n ≤ s.rest.length ∧ t = s.advance n

theorem advances_fail (error : TagError) : (fail error : Reading α).Advances :=
  fun _ _ _ _ h => nomatch (Prod.mk.inj h).1

theorem Takes.advances {p : Reading α} {least most : Nat} (h : p.Takes least most)
    (hpos : 0 < least) : p.Advances := by
  intro stops s t a hrun
  obtain ⟨n, hn, -, ht, hok⟩ := h.spends_run stops s
  rw [hrun] at ht hok
  exact ⟨n, hpos.trans_le (hok a rfl), hn, ht⟩

theorem advances_varint : varint.Advances :=
  takes_varint.advances Nat.one_pos

/-- What follows gives no byte back. -/
theorem Advances.bind {p : Reading α} (h : p.Advances) (f : α → Reading β) :
    (p.bind f).Advances := by
  intro stops s t b hrun
  rw [run_bind] at hrun
  rcases hp : p.run stops s with ⟨error | a, u⟩
  all_goals
    rw [hp] at hrun
  · cases (Prod.mk.inj hrun).1
  · obtain ⟨m, hm, hrest, rfl⟩ := h _ _ _ _ hp
    obtain ⟨n, hn, ht, -⟩ := (f a).onward_run stops (s.advance m)
    change (f a).run stops (s.advance m) = (.ok b, t) at hrun
    rw [hrun] at ht
    rw [Source.advance_rest, List.length_drop] at hn
    exact ⟨m + n, by omega, by omega, ht.trans (Source.advance_advance ..)⟩

/-- A byte is taken from each frame around, so none of them had ended. -/
theorem Advances.limit_lt {p : Reading α} (h : p.Advances) {stops : List Nat} {s t : Source}
    {a : α} (hrun : p.run stops s = (.ok a, t)) {stop : Nat} (hmem : stop ∈ stops) :
    stop - t.pos < stop - s.pos := by
  obtain ⟨n, hn, -, rfl⟩ := h _ _ _ _ hrun
  rw [Source.advance_pos]
  rcases Nat.lt_or_ge s.pos stop with hlt | hge
  · omega
  · have hs := run_snd_of_stop_le (p := p) hmem hge
    rw [hrun] at hs
    have hpos : s.pos + n = s.pos := congrArg Source.pos hs
    omega

/-! ### Rounds -/

/-- What a loop does in a state and with so many bytes of the frame left: it reads the next state,
or it is finished. -/
abbrev Round (σ : Type) : Type 1 :=
  (left : Nat) → σ → Option (Reading σ)

/-- The rounds from a state, in a frame that ends at `stop` inside others. After each round that is
followed by another the frame has less left than before. -/
inductive Rounds (round : Round σ) (stop : Nat) (around : List Nat) :
    σ → Source → Except TagError σ × Source → Prop where
  | finished {st : σ} {s : Source} (h : round (stop - s.pos) st = none) :
      Rounds round stop around st s (.ok st, s)
  | failed {st : σ} {s t : Source} {p : Reading σ} {error : TagError}
      (h : round (stop - s.pos) st = some p) (hp : p.run (stop :: around) s = (.error error, t)) :
      Rounds round stop around st s (.error error, t)
  | next {st st' : σ} {s t : Source} {p : Reading σ} {out : Except TagError σ × Source}
      (h : round (stop - s.pos) st = some p) (hp : p.run (stop :: around) s = (.ok st', t))
      (hlt : stop - t.pos < stop - s.pos) (more : Rounds round stop around st' t out) :
      Rounds round stop around st s out

/-- The rounds from a state come to an end, and `r` is what `finish` makes of it. -/
def Ends (round : Round σ) (finish : σ → τ) (stop : Nat) (around : List Nat) (st : σ) (s : Source)
    (r : Except TagError τ × Source) : Prop :=
  ∃ out t, Rounds round stop around st s (out, t) ∧ r = (out.map finish, t)

variable {round : Round σ} {finish : σ → τ} {stop : Nat} {around : List Nat} {st : σ} {s : Source}

theorem Ends.finished (h : round (stop - s.pos) st = none) :
    Ends round finish stop around st s (.ok (finish st), s) :=
  ⟨.ok st, s, .finished h, rfl⟩

/-- One round, and what the loop makes of the state after it. -/
theorem Ends.step {p : Reading σ} {loop : σ → Reading τ} (h : round (stop - s.pos) st = some p)
    (hp : p.Advances) (hloop : ∀ st' t, stop - t.pos < stop - s.pos →
      Ends round finish stop around st' t ((loop st').run (stop :: around) t)) :
    Ends round finish stop around st s ((p.bind loop).run (stop :: around) s) := by
  rw [run_bind]
  rcases hrun : p.run (stop :: around) s with ⟨error | st', t⟩
  · exact ⟨.error error, t, .failed h hrun, rfl⟩
  · have hlt := hp.limit_lt hrun List.mem_cons_self
    obtain ⟨out, u, hrounds, hr⟩ := hloop st' t hlt
    exact ⟨out, u, .next h hrun hlt hrounds, hr⟩

theorem run_bind_assoc (p : Reading α) (f : α → Reading β) (g : β → Reading τ)
    (stops : List Nat) (s : Source) :
    ((p.bind f).bind g).run stops s = (p.bind fun a => (f a).bind g).run stops s := by
  simp only [run_bind]
  rcases p.run stops s with ⟨error | a, t⟩ <;> rfl

/-! ### The loops of the readers -/

/-- A round over counted items, in the state of how many are to come and which were read, the last
one first. -/
def countedRound (item : Reading α) : Round (Nat × List α)
  | _, (0, _) => none
  | _, (count + 1, read) => some (item.bind fun a => .done (count, a :: read))

/-- A round over items up to the end of the frame. -/
def sequenceRound (item : Reading α) : Round (List α)
  | 0, _ => none
  | _ + 1, read => some (item.bind fun a => .done (a :: read))

/-- A round over the entries of a dictionary. -/
def entryRound (what : String) (key : Reading String) (value : Reading α) :
    Round (Nat × InsertionMap String α)
  | _, (0, _) => none
  | _, (count + 1, m) => some (key.bind fun k => value.bind fun v =>
      if m.contains k then .fail (.format (.duplicateKey what k))
      else .done (count, m.insert k v))

theorem ends_timesFrom {item : Reading α} (h : item.Advances) : ∀ {count : Nat} {read : List α}
    {s : Source}, Ends (countedRound item) (fun st => st.2.reverse) stop around (count, read) s
      ((item.timesFrom count read).run (stop :: around) s)
  | 0, read, s => .finished rfl
  | count + 1, read, s => by
    have hrun := run_bind_assoc item (fun a => .done (count, a :: read))
      (fun st => item.timesFrom st.1 st.2) (stop :: around) s
    rw [timesFrom]
    -- it is the frame and not the count that lets the rounds come to an end
    exact hrun ▸ Ends.step rfl (h.bind _) fun st t hlt => ends_timesFrom h
termination_by _ _ s => stop - s.pos

/-- **Counted items** are read in rounds, however many are claimed. -/
theorem ends_times {item : Reading α} (h : item.Advances) (count : Nat) (s : Source) :
    Ends (countedRound item) (fun st => st.2.reverse) stop around (count, []) s
      ((item.times count).run (stop :: around) s) :=
  ends_timesFrom h

theorem ends_untilEndFrom {item : Reading α} (h : item.Advances) : ∀ {most : Nat} {read : List α}
    {s : Source}, stop - s.pos ≤ most → Ends (sequenceRound item) List.reverse stop around read s
      ((item.untilEndFrom most read).run (stop :: around) s)
  | 0, read, s, hmost => by
    refine .finished ?_
    rw [Nat.le_zero.mp hmost, sequenceRound]
  | most + 1, read, s, hmost => by
    rw [untilEndFrom, run, List.head?_cons, Option.map_some]
    cases hleft : stop - s.pos with
    | zero =>
      refine .finished ?_
      rw [hleft, sequenceRound]
    | succ left =>
      have hrun := run_bind_assoc item (fun a => .done (a :: read))
        (fun read => item.untilEndFrom most read) (stop :: around) s
      have hround : sequenceRound item (stop - s.pos) read =
          some (item.bind fun a => .done (a :: read)) := by
        rw [hleft, sequenceRound]
      refine hrun ▸ Ends.step hround (h.bind _) fun read' t hlt => ?_
      have hmost' : stop - t.pos ≤ most := by omega
      exact ends_untilEndFrom h hmost'

/-- **Items up to the end of a frame** are read in rounds, as many as the frame has room for. -/
theorem ends_untilEnd {item : Reading α} (h : item.Advances) (size : Nat) (s : Source) :
    Ends (sequenceRound item) List.reverse (s.pos + size) around [] s
      ((item.untilEnd size).run ((s.pos + size) :: around) s) :=
  ends_untilEndFrom h (Nat.add_sub_cancel_left ..).le

theorem ends_entriesInto {what : String} {key : Reading String} {value : Reading α}
    (hk : key.Advances) : ∀ {count : Nat} {m : InsertionMap String α} {s : Source},
      Ends (entryRound what key value) Prod.snd stop around (count, m) s
        ((entriesInto what key value count m).run (stop :: around) s)
  | 0, m, s => .finished rfl
  | count + 1, m, s => by
    have hrun : (entriesInto what key value (count + 1) m).run (stop :: around) s =
        ((key.bind fun k => value.bind fun v =>
          if m.contains k then .fail (.format (.duplicateKey what k))
          else .done (count, m.insert k v)).bind fun st =>
            entriesInto what key value st.1 st.2).run (stop :: around) s := by
      rw [entriesInto]
      simp only [bind_eq, run_bind]
      rcases key.run (stop :: around) s with ⟨error | k, t⟩
      · rfl
      · simp only
        rcases value.run (stop :: around) t with ⟨error | v, u⟩
        · rfl
        · by_cases hc : m.contains k
          · simp only [hc, if_true]
            rfl
          · simp only [hc]
            rfl
    exact hrun ▸ Ends.step rfl (hk.bind _) fun st t hlt => ends_entriesInto hk
termination_by _ _ s => stop - s.pos

end TagFormat.Reading
