import TagFormat.Proofs.Input.Taking
import TagFormat.Proofs.Registry.Locality
import TagFormat.Scalar.Script

/-! # Which frame an error names

A frame looks at the errors that pass it. Here a program is played with frames that let every error
pass as it was raised, along with the frames around the step that raised it (`Reading.raise`). What
`run` makes of the program follows from that (`run_eq_settle_raise`): a step that ran out of bytes
is blamed on the innermost frame with nothing left, and everything else stays as it was. A frame
itself goes no further than its size and than the frames around it (`exists_confined`). Both
together are `run_attributed`, along with what tells that the frames around the step are those which
are open there: one that opens around a program comes last (`raise_exactly`), those of a part that is
done leave nothing behind (`raise_bind`), and a step without frames has none (`Frameless.raise_eq`).

Scripts of typed steps are such programs (`Scalar.Step.runAll_eq_run`). What one of their steps
raises as the end of the bytes is one: the source has nothing left, or some frame
(`Scalar.Step.exists_raised`). -/

namespace TagFormat

namespace Reading

variable {α β : Type}

/-! ### Frames that are open -/

/-- A frame that was opened at the place `start`. -/
structure Frame where
  what : String
  start : Nat
  size : Nat

/-- The place where a frame ends. -/
def Frame.stop (f : Frame) : Nat :=
  f.start + f.size

/-- The bytes that a frame has left for a reader at `place`. -/
def Frame.limit (f : Frame) (place : Nat) : Nat :=
  f.stop - place

/-- An error as it was raised, with the frames around the step that raised it, the innermost
first. -/
structure Raised where
  error : TagError
  frames : List Frame

/-- The error that comes out of all frames, raised at `place`. -/
def Raised.outcome (r : Raised) (place : Nat) : TagError :=
  match r.error with
  | .unexpectedEnd expected got =>
    match r.frames.find? fun f => f.limit place = 0 with
    | some f => .format (.overrun f.what f.size)
    | none => .unexpectedEnd expected got
  | error => error

/-- The error has passed one more frame. -/
def Raised.past (r : Raised) (f : Frame) : Raised :=
  { r with frames := r.frames ++ [f] }

/-- Plays a program like `run`, except that no frame looks at an error that passes it. -/
def raise : {γ : Type} → Reading γ → (stops : List Nat) → Source → Except Raised γ × Source
  | _, .done a, _, s => (.ok a, s)
  | _, .fail error, _, s => (.error ⟨error, []⟩, s)
  | _, .take before count next, stops, s =>
    match s.fill (allowed stops s.pos count) with
    | (_, .failed failure, s) => (.error ⟨.io failure, []⟩, s)
    | (got, _, s) =>
      if got.length = count then (next got).raise stops s
      else (.error ⟨.unexpectedEnd (before + count) (before + got.length), []⟩, s)
  | _, .room next, stops, s => (next (stops.head?.map (· - s.pos))).raise stops s
  | _, .within what size body next, stops, s =>
    let f : Frame := ⟨what, s.pos, size⟩
    match body.raise (f.stop :: stops) s with
    | (.ok b, t) =>
      if f.limit t.pos = 0 then (next b).raise stops t
      else (.error ⟨.format (.trailingBytes what (f.limit t.pos)), []⟩, t)
    | (.error r, t) => (.error (r.past f), t)

/-- What comes out of all frames. -/
def settle : Except Raised α × Source → Except TagError α × Source
  | (.ok a, t) => (.ok a, t)
  | (.error r, t) => (.error (r.outcome t.pos), t)

/-! ### Frames that are closed -/

/-- What comes of a part in which no frame is open. -/
def bare : Except TagError α × Source → Except Raised α × Source
  | (.ok a, t) => (.ok a, t)
  | (.error error, t) => (.error ⟨error, []⟩, t)

/-- What comes of a frame, by what came of the part in it. -/
def Frame.close (f : Frame) : Except Raised α × Source → Except Raised α × Source
  | (.ok a, t) =>
    if f.limit t.pos = 0 then (.ok a, t)
    else (.error ⟨.format (.trailingBytes f.what (f.limit t.pos)), []⟩, t)
  | (.error r, t) => (.error (r.past f), t)

/-- The program opens no frame. -/
def Frameless : {γ : Type} → Reading γ → Prop
  | _, .done _ | _, .fail _ => True
  | _, .take _ _ next => ∀ bytes, (next bytes).Frameless
  | _, .room next => ∀ left, (next left).Frameless
  | _, .within _ _ _ _ => False

/-- **A step without frames** raises its errors outside of all frames. -/
theorem Frameless.raise_eq {p : Reading α} (h : p.Frameless) (stops : List Nat) (s : Source) :
    p.raise stops s = bare (p.run stops s) := by
  induction p generalizing stops s with
  | done a => rfl
  | fail error => rfl
  | take before count next ih =>
    rw [run, raise]
    rcases s.fill (allowed stops s.pos count) with ⟨got, stop, t⟩
    cases stop with
    | failed failure => rfl
    | filled | ended =>
      by_cases hgot : got.length = count
      · simp only [hgot, if_true]
        exact ih got (h got) stops t
      · simp only [hgot, if_false]
        rfl
  | room next ih => exact ih _ (h _) stops s
  | within => exact h.elim

/-- **A part that is done** leaves none of its frames behind. -/
theorem raise_bind (p : Reading α) (f : α → Reading β) (stops : List Nat) (s : Source) :
    (p.bind f).raise stops s = match p.raise stops s with
      | (.ok a, t) => (f a).raise stops t
      | (.error r, t) => (.error r, t) := by
  induction p generalizing stops s with
  | done a => rfl
  | fail error => rfl
  | take before count next ih =>
    rw [bind, raise, raise]
    rcases s.fill (allowed stops s.pos count) with ⟨got, stop, t⟩
    cases stop with
    | failed failure => rfl
    | filled | ended =>
      by_cases hgot : got.length = count
      · simp only [hgot, if_true]
        exact ih got f stops t
      · simp only [hgot, if_false]
  | room next ih => exact ih _ f stops s
  | within what size body next _ ih =>
    rw [bind, raise, raise]
    rcases body.raise _ s with ⟨r | b, t⟩
    · rfl
    · simp only
      split_ifs
      · exact ih b f stops t
      · rfl

/-- **A frame** is the last of those around what is raised in it. -/
theorem raise_exactly (what : String) (size : Nat) (p : Reading α) (stops : List Nat) (s : Source) :
    (exactly what size p).raise stops s =
      Frame.close ⟨what, s.pos, size⟩ (p.raise ((s.pos + size) :: stops) s) := by
  rw [exactly, raise, Frame.stop]
  rcases p.raise ((s.pos + size) :: stops) s with ⟨r | a, t⟩ <;> rfl

/-! ### Leaving frames -/

variable {r : Raised} {f : Frame} {place : Nat}

theorem Frame.limit_eq_zero_iff (h : place ≤ f.stop) : f.limit place = 0 ↔ place = f.stop := by
  unfold limit
  omega

namespace Raised

theorem outcome_of_not_isEnd (h : ¬r.error.IsEnd) (place : Nat) : r.outcome place = r.error := by
  unfold outcome
  split
  · next expected got he => exact absurd ⟨expected, got, he⟩ h
  · rfl

theorem outcome_of_find?_eq_some (h : r.error.IsEnd)
    (hf : r.frames.find? (fun f => f.limit place = 0) = some f) :
    r.outcome place = .format (.overrun f.what f.size) := by
  obtain ⟨expected, got, he⟩ := h
  rw [outcome, he]
  simp only [hf]

theorem outcome_of_find?_eq_none (hf : r.frames.find? (fun f => f.limit place = 0) = none) :
    r.outcome place = r.error := by
  unfold outcome
  split
  · next expected got he =>
    simp only [hf]
    exact he.symm
  · rfl

/-- The frames further in are asked first. -/
theorem find?_past (r : Raised) (f : Frame) (place : Nat) :
    (r.past f).frames.find? (fun f => f.limit place = 0) =
      (r.frames.find? fun f => f.limit place = 0).or
        (if f.limit place = 0 then some f else none) := by
  rw [past, List.find?_append, List.find?_singleton]
  simp only [decide_eq_true_eq]

end Raised

theorem leave_error_of_not_isEnd {error : TagError} (h : ¬error.IsEnd) (what : String)
    (size stop : Nat) (t : Source) :
    leave what size stop ((.error error, t) : Except TagError α × Source) = (.error error, t) := by
  cases error with
  | unexpectedEnd expected got => exact absurd ⟨expected, got, rfl⟩ h
  | io | invalidVarint | varintOverflow | shortWrite | unsupportedId | unexpectedId | format
    | tooLarge => rfl

theorem leave_error_of_isEnd {error : TagError} (h : error.IsEnd) {f : Frame} {t : Source}
    (ht : t.pos ≤ f.stop) :
    leave f.what f.size f.stop ((.error error, t) : Except TagError α × Source) =
      (.error (if f.limit t.pos = 0 then .format (.overrun f.what f.size) else error), t) := by
  obtain ⟨expected, got, rfl⟩ := h
  rw [leave]
  by_cases hstop : t.pos = f.stop
  · rw [if_pos hstop, if_pos ((Frame.limit_eq_zero_iff ht).mpr hstop)]
  · rw [if_neg hstop, if_neg (mt (Frame.limit_eq_zero_iff ht).mp hstop)]

/-- **One frame** that an error passes is asked after those further in. -/
theorem leave_settle {t : Source} (ht : t.pos ≤ f.stop) :
    leave f.what f.size f.stop (settle (.error r, t) : Except TagError α × Source) =
      settle (.error (r.past f), t) := by
  have hfind := r.find?_past f t.pos
  rw [settle, settle]
  by_cases he : r.error.IsEnd
  · cases hf : r.frames.find? fun f => f.limit t.pos = 0 with
    | some g =>
      rw [hf, Option.some_or] at hfind
      rw [Raised.outcome_of_find?_eq_some he hf,
        Raised.outcome_of_find?_eq_some (r := r.past f) he hfind]
      rfl
    | none =>
      rw [hf, Option.none_or] at hfind
      rw [Raised.outcome_of_find?_eq_none hf, leave_error_of_isEnd he ht]
      by_cases hlimit : f.limit t.pos = 0
      · rw [if_pos hlimit] at hfind ⊢
        rw [Raised.outcome_of_find?_eq_some (r := r.past f) he hfind]
      · rw [if_neg hlimit] at hfind ⊢
        rw [Raised.outcome_of_find?_eq_none hfind, Raised.past]
  · rw [Raised.outcome_of_not_isEnd he, Raised.outcome_of_not_isEnd (r := r.past f) he]
    exact leave_error_of_not_isEnd he ..

namespace Frame

variable {s : Source} (f : Frame) (hs : f.start = s.pos) (body : Reading β) (next : β → Reading α)
  (stops : List Nat)

include hs

theorem run_within : (within f.what f.size body next).run stops s =
    match leave f.what f.size f.stop (body.run (f.stop :: stops) s) with
    | (.ok b, s) => (next b).run stops s
    | (.error error, s) => (.error error, s) := by
  rw [run, ← hs]
  rfl

theorem raise_within : (within f.what f.size body next).raise stops s =
    match body.raise (f.stop :: stops) s with
    | (.ok b, t) =>
      if f.limit t.pos = 0 then (next b).raise stops t
      else (.error ⟨.format (.trailingBytes f.what (f.limit t.pos)), []⟩, t)
    | (.error r, t) => (.error (r.past f), t) := by
  obtain ⟨what, start, size⟩ := f
  subst hs
  rw [raise]

end Frame

/-- **What comes out of all frames** hangs on the error as it was raised and on what each of the
frames around it had left there. -/
theorem run_eq_settle_raise (p : Reading α) (stops : List Nat) (s : Source) :
    p.run stops s = settle (p.raise stops s) := by
  induction p generalizing stops s with
  | done a => rfl
  | fail error =>
    have he : (Raised.mk error []).outcome s.pos = error := Raised.outcome_of_find?_eq_none rfl
    rw [run, raise, settle, he]
  | take before count next ih =>
    rw [run, raise]
    rcases s.fill (allowed stops s.pos count) with ⟨got, stop, t⟩
    cases stop with
    | failed failure => rfl
    | filled | ended =>
      by_cases hgot : got.length = count
      · simp only [hgot, if_true]
        exact ih got stops t
      · simp only [hgot, if_false]
        rfl
  | room next ih => exact ih _ stops s
  | within what size body next ihb ih =>
    let f : Frame := ⟨what, s.pos, size⟩
    have hbody := onward_run body (f.stop :: stops) s
    rw [ihb] at hbody
    rw [f.run_within rfl, f.raise_within rfl, ihb]
    generalize body.raise (f.stop :: stops) s = out at hbody ⊢
    obtain ⟨r | b, t⟩ := out
    all_goals
      obtain ⟨n, -, ht, hstop⟩ := hbody
      obtain rfl : t = s.advance n := ht
      have ht : (s.advance n).pos ≤ f.stop := hstop f.stop List.mem_cons_self (Nat.le_add_right ..)
    · rw [leave_settle ht]
      rfl
    · by_cases h : (s.advance n).pos = f.stop
      · simp only [settle, leave, if_pos h, if_pos ((Frame.limit_eq_zero_iff ht).mpr h)]
        exact ih b stops _
      · simp only [settle, leave, if_neg h, if_neg (mt (Frame.limit_eq_zero_iff ht).mp h)]
        rfl

/-! ### Running out of bytes -/

/-- **The end of the bytes is one.** Where a program that does not claim so itself raises the end of
the bytes, the source has ended, or a frame has. -/
theorem raise_of_isEnd {p : Reading α} {stops : List Nat} {s t : Source} {r : Raised}
    (hp : p.Candid) (h : p.raise stops s = (.error r, t)) (he : r.error.IsEnd) :
    t.rest = [] ∨ (∃ f ∈ r.frames, f.limit t.pos = 0) ∨ ∃ stop ∈ stops, stop ≤ t.pos := by
  induction p generalizing stops s r with
  | done a => cases h
  | fail error =>
    cases h
    exact absurd he hp
  | take before count next ih =>
    rw [raise] at h
    rcases Nat.lt_or_ge s.rest.length (allowed stops s.pos count) with hlt | hge
    · have hle := allowed_le stops s.pos count
      have hne : s.rest.length ≠ count := by omega
      rw [Source.fill_of_lt hlt] at h
      generalize s.atEnd = ending at h
      cases ending with
      | failed failure =>
        cases h
        obtain ⟨expected, got, he⟩ := he
        cases he
      | filled | ended =>
        simp only [hne, if_false] at h
        cases h
        exact .inl (List.drop_length ..)
    · rw [Source.fill_of_le hge] at h
      by_cases hc : allowed stops s.pos count = count
      · rw [hc] at h hge
        simp only [List.length_take, Nat.min_eq_left hge, if_true] at h
        exact ih _ (hp _) h he
      · simp only [List.length_take, Nat.min_eq_left hge, hc, if_false] at h
        cases h
        have hmore : ¬allowed stops s.pos count + 1 ≤ allowed stops s.pos count := by omega
        rw [le_allowed_iff, not_and] at hmore
        have hle := allowed_le stops s.pos count
        obtain ⟨stop, hstop⟩ := not_forall.mp (hmore (by omega))
        obtain ⟨hmem, hstop⟩ := Classical.not_imp.mp hstop
        refine .inr (.inr ⟨stop, hmem, ?_⟩)
        rw [Source.advance_pos]
        omega
  | room next ih => exact ih _ (hp _) h he
  | within what size body next ihb ih =>
    rw [raise] at h
    split at h
    · split_ifs at h
      · exact ih _ (hp.2 _) h he
      · cases h
        obtain ⟨expected, got, he⟩ := he
        cases he
    · next r' t' hbody =>
      cases h
      rcases ihb hp.1 hbody he with hrest | ⟨f, hf, hlimit⟩ | ⟨stop, hmem, hle⟩
      · exact .inl hrest
      · exact .inr (.inl ⟨f, List.mem_append_left _ hf, hlimit⟩)
      · rcases List.mem_cons.mp hmem with rfl | hmem
        · exact .inr (.inl ⟨_, List.mem_append_right _ (List.mem_singleton_self _),
            Nat.sub_eq_zero_of_le hle⟩)
        · exact .inr (.inr ⟨stop, hmem, hle⟩)

/-! ### One frame among others -/

/-- A frame of `size` bytes, opened at `s` inside the frames `around`, took `n` bytes: no more than
its size and than each of the others had left. With a result these are exactly its bytes, and each of
the others has as many less left. If what is done in it ends early, it reports the rest. -/
structure Confined (what : String) (size : Nat) (body : Reading α) (around : List Frame)
    (s : Source) (n : Nat) : Prop where
  le_size : n ≤ size
  le_limit : ∀ f ∈ around, n ≤ f.limit s.pos
  le_rest : n ≤ s.rest.length
  run_snd : ((exactly what size body).run (around.map Frame.stop) s).2 = s.advance n
  of_ok : ∀ a, ((exactly what size body).run (around.map Frame.stop) s).1 = .ok a →
    n = size ∧ ∀ f ∈ around, f.limit (s.advance n).pos + size = f.limit s.pos
  of_early : ∀ a, (body.run ((s.pos + size) :: around.map Frame.stop) s).1 = .ok a → n < size →
    ((exactly what size body).run (around.map Frame.stop) s).1 =
      .error (.format (.trailingBytes what (size - n)))

/-- **Every frame** is confined, whatever is done in it. -/
theorem exists_confined (what : String) (size : Nat) (body : Reading α) (around : List Frame)
    (s : Source) : ∃ n, Confined what size body around s n := by
  have hbody := onward_run body ((s.pos + size) :: around.map Frame.stop) s
  have hspends : s.Spends size size ((exactly what size body).run (around.map Frame.stop) s) := by
    rw [run_exactly]
    exact spends_leave hbody
  obtain ⟨n, hrest, hsize, hleft, hok⟩ := hspends
  have hsnd : ((exactly what size body).run (around.map Frame.stop) s).2 =
      (body.run ((s.pos + size) :: around.map Frame.stop) s).2 := by
    rw [run_exactly, leave_snd]
  have haround : ∀ f ∈ around, n ≤ f.limit s.pos := by
    intro f hf
    have hmem := List.mem_map_of_mem (f := Frame.stop) hf
    unfold Frame.limit
    rcases Nat.lt_or_ge s.pos f.stop with hlt | hge
    · obtain ⟨m, -, ht, hstops⟩ := hbody
      have := hstops f.stop (List.mem_cons_of_mem _ hmem) hlt.le
      have hmn : s.pos + m = s.pos + n := congrArg Source.pos
        (ht.symm.trans (hsnd.symm.trans hleft))
      omega
    · have hs := run_snd_of_stop_le (p := body) (List.mem_cons_of_mem (s.pos + size) hmem) hge
      have hn : s.pos = s.pos + n := congrArg Source.pos
        (hs.symm.trans (hsnd.symm.trans hleft))
      omega
  refine ⟨n, hsize, haround, hrest, hleft, fun a ha => ?_, fun a ha hlt => ?_⟩
  · obtain rfl : n = size := le_antisymm hsize (hok a ha)
    refine ⟨rfl, fun f hf => ?_⟩
    have := haround f hf
    unfold Frame.limit at this ⊢
    rw [Source.advance_pos]
    omega
  · have hrun : body.run ((s.pos + size) :: around.map Frame.stop) s = (.ok a, s.advance n) :=
      Prod.ext ha (hsnd.symm.trans hleft)
    rw [run_exactly, hrun, leave, Source.advance_pos, if_neg (by omega), Nat.add_sub_add_left]

/-! ### All frames -/

/-- What becomes of an error on its way out of the frames around it. -/
structure Raised.Attributed (r : Raised) (place : Nat) (error : TagError) : Prop where
  overrun : r.error.IsEnd → ∀ before f after, r.frames = before ++ f :: after →
    (∀ g ∈ before, g.limit place ≠ 0) → f.limit place = 0 →
      error = .format (.overrun f.what f.size)
  unchanged_iff : r.error.IsEnd → (error = r.error ↔ ∀ f ∈ r.frames, f.limit place ≠ 0)
  other : ¬r.error.IsEnd → error = r.error

theorem Raised.attributed_outcome (r : Raised) (place : Nat) :
    r.Attributed place (r.outcome place) where
  overrun he before f after hr hbefore hf := by
    refine outcome_of_find?_eq_some he ?_
    rw [hr, List.find?_append, List.find?_eq_none.mpr (by simpa using hbefore), Option.none_or,
      List.find?_cons_of_pos (by simpa using hf)]
  unchanged_iff he := by
    constructor
    · intro h f hf hlimit
      have hsome : (r.frames.find? fun f => f.limit place = 0).isSome :=
        List.find?_isSome.mpr ⟨f, hf, by simpa using hlimit⟩
      obtain ⟨g, hg⟩ := Option.isSome_iff_exists.mp hsome
      obtain ⟨expected, got, hr⟩ := id he
      rw [outcome_of_find?_eq_some he hg, hr] at h
      cases h
    · intro h
      exact outcome_of_find?_eq_none (List.find?_eq_none.mpr (by simpa using h))
  other he := outcome_of_not_isEnd he place

/-- **Frames and their errors.** Whatever a program does in a frame, be it inside of others that
have fewer bytes left than the frame declares, the frame goes no further than its size and than they
let it; it succeeds only after exactly its bytes, which all of them then have less; and left early,
it reports what it had left. A program that meets an error comes to it as `raise` tells: an end of
the bytes is blamed on the innermost frame around the step with nothing left, and stays the end of
the bytes exactly where there is none; all other errors pass all frames as they are. The frames around
a step are those which are open there: none if it opens none, those of the part that it belongs to,
and behind them any that is opened around this. -/
theorem run_attributed (p : Reading α) (around : List Frame) (s : Source) :
    (∀ what size, ∃ n, Confined what size p around s n) ∧
    (∀ a t, p.raise (around.map Frame.stop) s = (.ok a, t) →
      p.run (around.map Frame.stop) s = (.ok a, t)) ∧
    (∀ r t, p.raise (around.map Frame.stop) s = (.error r, t) →
      ∃ error, p.run (around.map Frame.stop) s = (.error error, t) ∧
        r.Attributed t.pos error) ∧
    (p.Frameless → p.raise (around.map Frame.stop) s = bare (p.run (around.map Frame.stop) s)) ∧
    (∀ {β : Type} (f : α → Reading β), (p.bind f).raise (around.map Frame.stop) s =
      match p.raise (around.map Frame.stop) s with
      | (.ok a, t) => (f a).raise (around.map Frame.stop) t
      | (.error r, t) => (.error r, t)) ∧
    ∀ what size, (exactly what size p).raise (around.map Frame.stop) s =
      Frame.close ⟨what, s.pos, size⟩ (p.raise ((s.pos + size) :: around.map Frame.stop) s) := by
  have hrun := p.run_eq_settle_raise (around.map Frame.stop) s
  refine ⟨fun what size => exists_confined what size p around s, fun a t h => ?_,
    fun r t h => ⟨r.outcome t.pos, ?_, r.attributed_outcome t.pos⟩, fun h => h.raise_eq _ s,
    fun f => raise_bind p f _ s, fun what size => raise_exactly what size p _ s⟩
  · rw [hrun, h, settle]
  · rw [hrun, h, settle]

/-- A number of four bytes in a frame of five, of which the frame around it lets it have two: both
that frame and the one outside of it have nothing left. Outside of all frames, what the number raises
has none around it. -/
theorem run_attributed_nested :
    let p := exactly "list" 3 (block 1 |>.bind fun _ => exactly "pair" 2 (exactly "id" 5 (number 4)))
    let s := Source.ofBytes [1, 2, 3, 4, 5]
    p.run [] s = (.error (.format (.overrun "pair" 2)), s.advance 3) ∧
    (number 6).raise [] s = (.error ⟨.unexpectedEnd 6 5, []⟩, s.advance 5) := by
  intro p s
  let pair : Frame := ⟨"pair", 1, 2⟩
  have hraise : p.raise [] s =
      (.error ⟨.unexpectedEnd 4 2, [⟨"id", 1, 5⟩, pair, ⟨"list", 0, 3⟩]⟩, s.advance 3) := by
    cbv
  obtain ⟨error, hrun, herror⟩ := (run_attributed p [] s).2.2.1 _ _ hraise
  rw [herror.overrun ⟨4, 2, rfl⟩ [⟨"id", 1, 5⟩] pair [⟨"list", 0, 3⟩] rfl (by decide) (by decide)]
    at hrun
  exact ⟨hrun, (run_attributed (number 6) [] s).2.2.2.1 fun _ => trivial⟩

end Reading

/-! ### Scripts -/

namespace Scalar

mutual

/-- The program of a step of a script, which keeps no log. -/
def Step.program : Step → Reading Unit
  | .item kind => kind.read.bind fun _ => .done ()
  | .frame size what steps => Reading.exactly what size (Step.programAll steps)
  | .room => .room fun _ => .done ()
  | .fits count what => Reading.ensureFits what count

/-- The program of the steps of a script. -/
def Step.programAll : List Step → Reading Unit
  | [] => .done ()
  | step :: steps => step.program.bind fun _ => Step.programAll steps

end

mutual

theorem Step.run_eq (stops : List Nat) (s : Source) : ∀ step : Step,
    ((step.run stops s).outcome, (step.run stops s).source) = step.program.run stops s
  | .item kind => by
    rw [run, program, Reading.run_bind]
    rcases kind.read.run stops s with ⟨error | value, t⟩ <;> rfl
  | .frame size what steps => by
    have hsteps := Step.runAll_eq_run ((s.pos + size) :: stops) s steps
    rw [run, program, Reading.run_exactly, ← hsteps]
    generalize Reading.leave what size (s.pos + size) _ = left
    rcases left with ⟨error | value, t⟩ <;> rfl
  | .room => by
    rw [run, program]
    rfl
  | .fits count what => by
    rw [run, program]
    rcases (Reading.ensureFits what count).run stops s with ⟨error | value, t⟩ <;> rfl

/-- **A script** comes to the outcome of its program. -/
theorem Step.runAll_eq_run (stops : List Nat) (s : Source) : ∀ steps : List Step,
    ((Step.runAll stops s steps).outcome, (Step.runAll stops s steps).source) =
      (Step.programAll steps).run stops s
  | [] => by
    rw [runAll, programAll]
    rfl
  | step :: steps => by
    rw [runAll, programAll, Reading.run_bind, ← Step.run_eq stops s step]
    cases h : (step.run stops s).outcome with
    | error error => rw [h]
    | ok value =>
      simp only
      exact Step.runAll_eq_run stops (step.run stops s).source steps

end

theorem Kind.candid_read (kind : Kind) : kind.read.Candid := by
  cases kind with
  | uint8 | int8 => exact Reading.candid_byte.map _
  | uint16 | int16 => exact Reading.candid_uint16.map _
  | uint32 | float32 => exact Reading.candid_uint32.map _
  | int32 => exact Reading.candid_int32.map _
  | uint64 | int64 | float64 => exact Reading.candid_uint64.map _
  | varint => exact Reading.candid_varint.map _
  | signedVarint => exact (Reading.candid_varint.map _).map _
  | block length => exact (Reading.candid_block length).map _
  | text length => exact (Reading.candid_text length).map _

mutual

theorem Step.candid_program : ∀ step : Step, step.program.Candid
  | .item kind => by
    rw [program]
    exact kind.candid_read.map _
  | .frame size what steps => by
    rw [program]
    exact (Step.candid_programAll steps).exactly
  | .room => by
    rw [program]
    exact fun _ => trivial
  | .fits count what => by
    rw [program]
    exact Reading.candid_ensureFits what count

/-- Steps never claim on their own account that the bytes ended. -/
theorem Step.candid_programAll : ∀ steps : List Step, (Step.programAll steps).Candid
  | [] => by
    rw [programAll]
    trivial
  | step :: steps => by
    rw [programAll]
    exact (Step.candid_program step).bind fun _ => Step.candid_programAll steps

end

/-- **A script that fails** does so with what becomes of the error that one of its steps raised; and
if that is the end of the bytes, the source has ended or a frame around the step has. -/
theorem Step.exists_raised {steps : List Step} {s : Source} {error : TagError}
    (h : (Step.runAll [] s steps).outcome = .error error) :
    let t := (Step.runAll [] s steps).source
    ∃ r, (Step.programAll steps).raise [] s = (.error r, t) ∧ r.Attributed t.pos error ∧
      (r.error.IsEnd → t.rest = [] ∨ ∃ f ∈ r.frames, f.limit t.pos = 0) := by
  intro t
  have hrun := Step.runAll_eq_run [] s steps
  rw [h, Reading.run_eq_settle_raise] at hrun
  rcases hraise : (Step.programAll steps).raise [] s with ⟨r | u, t'⟩
  all_goals
    rw [hraise, Reading.settle] at hrun
    obtain ⟨herror, rfl⟩ := Prod.mk.inj hrun
  · obtain rfl := Except.error.inj herror
    refine ⟨r, rfl, r.attributed_outcome t.pos, fun he => ?_⟩
    have hend := Reading.raise_of_isEnd (Step.candid_programAll steps) hraise he
    simpa using hend
  · cases herror

end Scalar

end TagFormat
