import Mathlib.Data.List.Basic
import TagFormat.Input.Reading
import TagFormat.Proofs.Input.Fill

/-! # What a program reads from which bytes

`p.Yields left c a` says that `p` reads `a` from exactly the bytes `c`, in a frame with `left` bytes
left. Nothing in it depends on a source, on its pace, or on the frames further out. Running `p`
succeeds exactly when the source starts with such bytes and no frame ends among them
(`run_eq_ok_iff`). So a statement of when a program succeeds, and with what, is a statement about
`Yields`, to be proved along `yields_bind`. -/

namespace TagFormat.Reading

variable {α β : Type}

/-! ### Sequences of programs -/

theorem run_bind (p : Reading α) (f : α → Reading β) (stops : List Nat) (s : Source) :
    (p.bind f).run stops s = match p.run stops s with
      | (.ok a, s) => (f a).run stops s
      | (.error error, s) => (.error error, s) := by
  induction p generalizing stops s with
  | done a => rfl
  | fail error => rfl
  | take before count next ih =>
    simp only [bind, run]
    rcases s.fill (allowed stops s.pos count) with ⟨got, stop, s⟩
    cases stop <;> simp only <;> try rfl
    all_goals
      split_ifs
      · exact ih got f stops s
      · rfl
  | room next ih =>
    simp only [bind, run]
    exact ih _ f stops s
  | within what size body next _ ih =>
    simp only [bind, run]
    rcases leave what size (s.pos + size) (body.run ((s.pos + size) :: stops) s) with
      ⟨error | b, s⟩
    · rfl
    · exact ih b f stops s

theorem run_bind_of_ok {p : Reading α} {f : α → Reading β} {stops : List Nat} {s t : Source}
    {a : α} (h : p.run stops s = (.ok a, t)) : (p.bind f).run stops s = (f a).run stops t := by
  rw [run_bind, h]

theorem run_bind_of_error {p : Reading α} {f : α → Reading β} {stops : List Nat} {s t : Source}
    {error : TagError} (h : p.run stops s = (.error error, t)) :
    (p.bind f).run stops s = (.error error, t) := by
  rw [run_bind, h]

/-! ### Frames -/

theorem run_exactly (what : String) (size : Nat) (body : Reading α) (stops : List Nat)
    (s : Source) : (exactly what size body).run stops s =
      leave what size (s.pos + size) (body.run ((s.pos + size) :: stops) s) := by
  rw [exactly, run]
  rcases leave what size (s.pos + size) (body.run ((s.pos + size) :: stops) s) with ⟨error | b, t⟩
  all_goals rfl

theorem allowed_le (stops : List Nat) (place count : Nat) : allowed stops place count ≤ count := by
  induction stops generalizing count with
  | nil => exact le_rfl
  | cons stop stops ih =>
    rw [allowed, List.foldl_cons]
    exact (ih _).trans (min_le_left _ _)

theorem le_allowed_iff {stops : List Nat} {place count n : Nat} :
    n ≤ allowed stops place count ↔ n ≤ count ∧ ∀ stop ∈ stops, n ≤ stop - place := by
  induction stops generalizing count with
  | nil => simp [allowed]
  | cons stop stops ih =>
    rw [allowed, List.foldl_cons, ← allowed, ih, Nat.le_min, List.forall_mem_cons, and_assoc]

/-- A reader gets all that it asks for exactly when no frame ends before that. -/
theorem allowed_eq_iff {stops : List Nat} {place count : Nat} (h : ∀ stop ∈ stops, place ≤ stop) :
    allowed stops place count = count ↔ ∀ stop ∈ stops, place + count ≤ stop := by
  constructor
  · intro he stop hs
    have := (le_allowed_iff.mp he.ge).2 stop hs
    have := h stop hs
    omega
  · intro hs
    have hle := allowed_le stops place count
    refine le_antisymm hle (le_allowed_iff.mpr ⟨le_rfl, fun stop h' => ?_⟩)
    have := hs stop h'
    omega

/-! ### The bytes of a successful run -/

/-- **`p` reads `a` from exactly the bytes `c`**, in a frame with `left` bytes left. -/
def Yields : {γ : Type} → Reading γ → (left : Option Nat) → (c : Bytes) → γ → Prop
  | _, .done a, _, c, b => c = [] ∧ b = a
  | _, .fail _, _, _, _ => False
  | _, .take _ count next, left, c, b =>
    count ≤ c.length ∧ (next (c.take count)).Yields (left.map (· - count)) (c.drop count) b
  | _, .room next, left, c, b => (next left).Yields left c b
  | _, .within _ size body next, left, c, b => size ≤ c.length ∧
    ∃ x, body.Yields (some size) (c.take size) x ∧
      (next x).Yields (left.map (· - size)) (c.drop size) b

/-- What the innermost of frames that end at `stops` has left at `place`. -/
def roomAt (stops : List Nat) (place : Nat) : Option Nat :=
  stops.head?.map (· - place)

theorem roomAt_add (stops : List Nat) (place n : Nat) :
    roomAt stops (place + n) = (roomAt stops place).map (· - n) := by
  cases stops <;> simp [roomAt, Nat.sub_add_eq]

/-- Taking bytes succeeds when they are there and no frame ends among them. -/
theorem run_take_eq_ok_iff {before count : Nat} {next : Bytes → Reading α} {stops : List Nat}
    {s : Source} (hs : ∀ stop ∈ stops, s.pos ≤ stop) {a : α} {s' : Source} :
    (take before count next).run stops s = (.ok a, s') ↔
      (count ≤ s.rest.length ∧ ∀ stop ∈ stops, s.pos + count ≤ stop) ∧
        (next (s.rest.take count)).run stops (s.advance count) = (.ok a, s') := by
  rw [run]
  have hle := allowed_le stops s.pos count
  rcases Nat.lt_or_ge s.rest.length (allowed stops s.pos count) with hlt | hge
  · rw [Source.fill_of_lt hlt, Source.atEnd]
    cases s.failure with
    | none =>
      simp only
      rw [if_neg (by omega)]
      simp
      omega
    | some failure =>
      simp
      omega
  · rw [Source.fill_of_le hge]
    simp only [List.length_take, Nat.min_eq_left hge]
    by_cases he : allowed stops s.pos count = count
    · rw [if_pos he, he, ← allowed_eq_iff hs]
      simp only [he, and_true]
      rw [he] at hge
      exact (and_iff_right hge).symm
    · rw [if_neg he, ← allowed_eq_iff hs]
      simp [he]

theorem leave_eq_ok_iff {what : String} {size stop : Nat} {r : Except TagError α × Source} {a : α}
    {s : Source} : leave what size stop r = (.ok a, s) ↔ r = (.ok a, s) ∧ s.pos = stop := by
  obtain ⟨outcome, t⟩ := r
  rcases outcome with error | b
  · cases error <;> simp [leave]
    split_ifs <;> simp
  · simp only [leave]
    split_ifs with h <;> simp
    · rintro rfl rfl
      exact h
    · rintro rfl rfl
      exact h

theorem run_within_eq_ok_iff {what : String} {size : Nat} {body : Reading β}
    {next : β → Reading α} {stops : List Nat} {s : Source} {a : α} {s' : Source} :
    (within what size body next).run stops s = (.ok a, s') ↔
      ∃ b t, body.run ((s.pos + size) :: stops) s = (.ok b, t) ∧ t.pos = s.pos + size ∧
        (next b).run stops t = (.ok a, s') := by
  rw [run]
  constructor
  · intro h
    split at h
    · next b t hl =>
      obtain ⟨hb, ht⟩ := leave_eq_ok_iff.mp hl
      exact ⟨b, t, hb, ht, h⟩
    · simp at h
  · rintro ⟨b, t, hb, ht, h⟩
    rw [leave_eq_ok_iff.mpr ⟨hb, ht⟩]
    exact h

/-- **A program succeeds** exactly when the source starts with bytes that it reads and that lie
within all frames. -/
theorem run_eq_ok_iff {p : Reading α} {stops : List Nat} {s : Source}
    (hs : ∀ stop ∈ stops, s.pos ≤ stop) {a : α} {s' : Source} :
    p.run stops s = (.ok a, s') ↔ ∃ n ≤ s.rest.length, s' = s.advance n ∧
      (∀ stop ∈ stops, s.pos + n ≤ stop) ∧ p.Yields (roomAt stops s.pos) (s.rest.take n) a := by
  induction p generalizing stops s s' with
  | done b =>
    simp only [run, Prod.mk.injEq, Except.ok.injEq, Yields]
    constructor
    · rintro ⟨rfl, rfl⟩
      exact ⟨0, Nat.zero_le _, rfl, hs, by simp, rfl⟩
    · rintro ⟨n, hn, rfl, -, hnil, rfl⟩
      have : n = 0 := by
        have := congrArg List.length hnil
        rw [List.length_take, List.length_nil] at this
        omega
      subst this
      exact ⟨rfl, rfl⟩
  | fail error => simp [run, Yields]
  | take before count next ih =>
    rw [run_take_eq_ok_iff hs]
    constructor
    · rintro ⟨⟨hc, hf⟩, h⟩
      obtain ⟨n, hn, rfl, hst, hy⟩ := (ih _ (by simpa using hf)).mp h
      rw [Source.advance_rest, List.length_drop] at hn
      refine ⟨count + n, by omega, Source.advance_advance .., ?_, ?_, ?_⟩
      · intro stop h'
        have := hst stop h'
        rw [Source.advance_pos] at this
        omega
      · rw [List.length_take]
        omega
      · rw [List.take_take, Nat.min_eq_left (by omega), ← roomAt_add, List.drop_take,
          Nat.add_sub_cancel_left]
        exact hy
    · rintro ⟨n, hn, rfl, hst, hy⟩
      obtain ⟨hc, hy⟩ := hy
      rw [List.length_take] at hc
      have hf : ∀ stop ∈ stops, s.pos + count ≤ stop := fun stop h' => by
        have := hst stop h'
        omega
      refine ⟨⟨by omega, hf⟩, (ih _ (by simpa using hf)).mpr ⟨n - count, ?_, ?_, ?_, ?_⟩⟩
      · rw [Source.advance_rest, List.length_drop]
        omega
      · rw [Source.advance_advance, Nat.add_sub_cancel' (by omega)]
      · intro stop h'
        have := hst stop h'
        rw [Source.advance_pos]
        omega
      · rw [List.take_take, Nat.min_eq_left (by omega), ← roomAt_add, List.drop_take] at hy
        exact hy
  | room next ih =>
    simp only [run, Yields]
    exact ih _ hs
  | within what size body next ihb ih =>
    rw [run_within_eq_ok_iff]
    have hs' : ∀ stop ∈ (s.pos + size) :: stops, s.pos ≤ stop := by
      simpa using hs
    constructor
    · rintro ⟨b, t, hb, ht, h⟩
      obtain ⟨m, hm, rfl, hst, hyb⟩ := (ihb hs').mp hb
      rw [Source.advance_pos, Nat.add_left_cancel_iff] at ht
      subst ht
      have hf : ∀ stop ∈ stops, s.pos + m ≤ stop := fun stop h' => hst stop (by simp [h'])
      obtain ⟨n, hn, rfl, hst', hy⟩ := (ih b (by simpa using hf)).mp h
      rw [Source.advance_rest, List.length_drop] at hn
      refine ⟨m + n, by omega, Source.advance_advance .., ?_, ?_, b, ?_, ?_⟩
      · intro stop h'
        have := hst' stop h'
        rw [Source.advance_pos] at this
        omega
      · rw [List.length_take]
        omega
      · rw [List.take_take, Nat.min_eq_left (by omega)]
        simpa [roomAt] using hyb
      · rw [← roomAt_add, List.drop_take, Nat.add_sub_cancel_left]
        exact hy
    · rintro ⟨n, hn, rfl, hst, hsize, b, hyb, hy⟩
      rw [List.length_take] at hsize
      rw [List.take_take, Nat.min_eq_left (by omega)] at hyb
      rw [← roomAt_add, List.drop_take] at hy
      have hf : ∀ stop ∈ stops, s.pos + size ≤ stop := fun stop h' => by
        have := hst stop h'
        omega
      refine ⟨b, s.advance size, (ihb hs').mpr ⟨size, by omega, rfl, ?_, ?_⟩, rfl,
        (ih b (by simpa using hf)).mpr ⟨n - size, ?_, ?_, ?_, hy⟩⟩
      · simpa using hf
      · simpa [roomAt] using hyb
      · rw [Source.advance_rest, List.length_drop]
        omega
      · rw [Source.advance_advance, Nat.add_sub_cancel' (by omega)]
      · intro stop h'
        have := hst stop h'
        rw [Source.advance_pos]
        omega

/-- **Over plain bytes**, a program that is not in a frame succeeds when the bytes start with some
that it reads. -/
theorem run_ofBytes_eq_ok_iff {p : Reading α} {bytes : Bytes} {a : α} {s : Source} :
    p.run [] (.ofBytes bytes) = (.ok a, s) ↔
      ∃ c rest, bytes = c ++ rest ∧ s = (Source.ofBytes bytes).advance c.length ∧
        p.Yields none c a := by
  rw [run_eq_ok_iff (by simp)]
  constructor
  · rintro ⟨n, hn, rfl, -, hy⟩
    refine ⟨bytes.take n, bytes.drop n, (List.take_append_drop n bytes).symm, ?_, hy⟩
    rw [List.length_take, Nat.min_eq_left (show n ≤ bytes.length from hn)]
  · rintro ⟨c, rest, rfl, rfl, hy⟩
    refine ⟨c.length, by simp [Source.ofBytes], rfl, by simp, ?_⟩
    simpa [Source.ofBytes, roomAt] using hy

/-- From a source that starts with `c`, a program that is not in a frame comes to the end of `c`
exactly when it reads `c`. -/
theorem run_eq_ok_advance_iff {p : Reading α} {s : Source} {c rest : Bytes}
    (h : s.rest = c ++ rest) {a : α} :
    p.run [] s = (.ok a, s.advance c.length) ↔ p.Yields none c a := by
  have htake : s.rest.take c.length = c := by rw [h, List.take_left]
  have hle : c.length ≤ s.rest.length := by
    rw [h, List.length_append]
    exact Nat.le_add_right _ _
  rw [run_eq_ok_iff (by simp)]
  constructor
  · rintro ⟨n, hn, hs, -, hy⟩
    have hpos := congrArg Source.pos hs
    simp only [Source.advance_pos, Nat.add_left_cancel_iff] at hpos
    rwa [← hpos, htake] at hy
  · intro hy
    exact ⟨c.length, hle, rfl, List.forall_mem_nil _, by rwa [htake]⟩

/-- From a source that starts with bytes that a program reads, and that lie within all frames, the
program reads them. -/
theorem run_of_yields {p : Reading α} {stops : List Nat} {s : Source} {c rest : Bytes}
    (h : s.rest = c ++ rest) (hs : ∀ stop ∈ stops, s.pos + c.length ≤ stop) {a : α}
    (hy : p.Yields (roomAt stops s.pos) c a) : p.run stops s = (.ok a, s.advance c.length) := by
  have hpos : ∀ stop ∈ stops, s.pos ≤ stop := fun stop hm => by
    have := hs stop hm
    omega
  refine (run_eq_ok_iff hpos).mpr ⟨c.length, ?_, rfl, hs, ?_⟩
  · rw [h, List.length_append]
    omega
  · rwa [h, List.take_left]

/-- Of bytes that start alike, a program reads as many here as there. -/
theorem Yields.eq_of_append_eq {p : Reading α} {c c' rest rest' : Bytes} {a a' : α}
    (h : p.Yields none c a) (h' : p.Yields none c' a') (heq : c ++ rest = c' ++ rest') :
    c = c' ∧ a = a' := by
  have hnil : ∀ {n : Nat}, ∀ stop ∈ ([] : List Nat), (Source.ofBytes (c ++ rest)).pos + n ≤ stop :=
    List.forall_mem_nil _
  have hrun := run_of_yields (s := .ofBytes (c ++ rest)) rfl hnil h
  have hrun' := run_of_yields (s := .ofBytes (c ++ rest)) heq hnil h'
  obtain ⟨ha, hs⟩ := Prod.mk.inj (hrun.symm.trans hrun')
  have hpos := congrArg Source.pos hs
  rw [Source.advance_pos, Source.advance_pos, Nat.add_left_cancel_iff] at hpos
  exact ⟨(List.append_inj heq hpos).1, Except.ok.inj ha⟩

/-! ### Programs one after another -/

theorem yields_bind (p : Reading α) (f : α → Reading β) (left : Option Nat) (c : Bytes) (b : β) :
    (p.bind f).Yields left c b ↔ ∃ c₁ c₂ a, c = c₁ ++ c₂ ∧ p.Yields left c₁ a ∧
      (f a).Yields (left.map (· - c₁.length)) c₂ b := by
  induction p generalizing left c with
  | done a =>
    simp only [bind, Yields]
    constructor
    · intro h
      exact ⟨[], c, a, rfl, ⟨rfl, rfl⟩, by simpa using h⟩
    · rintro ⟨_, c₂, _, rfl, ⟨rfl, rfl⟩, h⟩
      simpa using h
  | fail error => simp [bind, Yields]
  | take before count next ih =>
    simp only [bind, Yields]
    constructor
    · rintro ⟨hc, h⟩
      obtain ⟨c₁, c₂, a, hd, h₁, h₂⟩ := (ih _ f _ _).mp h
      refine ⟨c.take count ++ c₁, c₂, a, ?_, ⟨?_, ?_⟩, ?_⟩
      · rw [List.append_assoc, ← hd, List.take_append_drop]
      · rw [List.length_append, List.length_take]
        omega
      · rw [List.take_left' (by rw [List.length_take]; omega),
          List.drop_left' (by rw [List.length_take]; omega)]
        exact h₁
      · rw [List.length_append, List.length_take, Nat.min_eq_left hc]
        simpa [Function.comp_def, Nat.sub_add_eq] using h₂
    · rintro ⟨c₁, c₂, a, rfl, ⟨hc, h₁⟩, h₂⟩
      refine ⟨by rw [List.length_append]; omega, ?_⟩
      rw [List.take_append_of_le_length hc, List.drop_append_of_le_length hc]
      refine (ih _ f _ _).mpr ⟨c₁.drop count, c₂, a, rfl, h₁, ?_⟩
      have hl : ∀ n, n - count - (c₁.length - count) = n - c₁.length := fun n => by omega
      simpa [Function.comp_def, hl] using h₂
  | room next ih => exact ih _ f left c
  | within what size body next _ ih =>
    simp only [bind, Yields]
    constructor
    · rintro ⟨hc, x, hx, h⟩
      obtain ⟨c₁, c₂, a, hd, h₁, h₂⟩ := (ih x f _ _).mp h
      refine ⟨c.take size ++ c₁, c₂, a, ?_, ⟨?_, x, ?_, ?_⟩, ?_⟩
      · rw [List.append_assoc, ← hd, List.take_append_drop]
      · rw [List.length_append, List.length_take]
        omega
      · rw [List.take_left' (by rw [List.length_take]; omega)]
        exact hx
      · rw [List.drop_left' (by rw [List.length_take]; omega)]
        exact h₁
      · rw [List.length_append, List.length_take, Nat.min_eq_left hc]
        simpa [Function.comp_def, Nat.sub_add_eq] using h₂
    · rintro ⟨c₁, c₂, a, rfl, ⟨hc, x, hx, h₁⟩, h₂⟩
      refine ⟨by rw [List.length_append]; omega, x, ?_, ?_⟩
      · rwa [List.take_append_of_le_length hc]
      · rw [List.drop_append_of_le_length hc]
        refine (ih x f _ _).mpr ⟨c₁.drop size, c₂, a, rfl, h₁, ?_⟩
        have hl : ∀ n, n - size - (c₁.length - size) = n - c₁.length := fun n => by omega
        simpa [Function.comp_def, hl] using h₂

end TagFormat.Reading
