import Mathlib.Order.Nat
import TagFormat.Input.Source

/-! # Sources: what asking for bytes gives

However a source is paced, asking it for bytes that it has gives exactly those bytes (`fill_of_le`),
and asking it for more gives all that it has and then meets its end (`fill_of_lt`). -/

namespace TagFormat.Source

/-! ### Places -/

@[simp] theorem advance_rest (s : Source) (n : Nat) : (s.advance n).rest = s.rest.drop n := rfl

theorem rest_advance {s : Source} {bytes suffix : Bytes} (h : s.rest = bytes ++ suffix) :
    (s.advance bytes.length).rest = suffix := by
  rw [advance_rest, h, List.drop_left]

@[simp] theorem advance_pos (s : Source) (n : Nat) : (s.advance n).pos = s.pos + n := rfl

@[simp] theorem advance_failure (s : Source) (n : Nat) : (s.advance n).failure = s.failure := rfl

@[simp] theorem advance_pace (s : Source) (n : Nat) : (s.advance n).pace = s.pace := rfl

@[simp] theorem advance_zero (s : Source) : s.advance 0 = s := rfl

theorem advance_advance (s : Source) (m n : Nat) : (s.advance m).advance n = s.advance (m + n) := by
  simp only [advance, List.drop_drop, Nat.add_assoc]

/-! ### Calls -/

/-- What a call meets that is not interrupted. -/
def met (s : Source) (want : Nat) : Delivery :=
  match s.rest, s.failure with
  | [], some failure => .failed failure
  | rest, _ => .bytes (rest.take (s.pace.limit s.pos want))

theorem met_of_nil {s : Source} (h : s.rest = []) (want : Nat) :
    s.met want = match s.failure with
      | none => .bytes []
      | some failure => .failed failure := by
  rw [met, h]
  cases s.failure <;> simp

theorem met_of_ne_nil {s : Source} (h : s.rest ≠ []) (want : Nat) :
    s.met want = .bytes (s.rest.take (s.pace.limit s.pos want)) := by
  rw [met]
  split
  · next hnil _ => exact absurd hnil h
  · rfl

theorem met_ne_interrupted (s : Source) (want : Nat) : s.met want ≠ .interrupted := by
  by_cases h : s.rest = []
  · rw [met_of_nil h]
    cases s.failure <;> simp
  · rw [met_of_ne_nil h]
    simp

theorem call_of_lt {s : Source} {attempt : Nat} (h : attempt < s.pace.interruptions s.pos)
    (want : Nat) : s.call want attempt = .interrupted := by
  rw [call, if_pos h]

theorem call_of_le {s : Source} {attempt : Nat} (h : s.pace.interruptions s.pos ≤ attempt)
    (want : Nat) : s.call want attempt = s.met want := by
  rw [call, if_neg (by omega)]
  rfl

theorem insist_eq_met {s : Source} {want : Nat} : ∀ {tries attempt : Nat},
    s.pace.interruptions s.pos ≤ tries + attempt → s.insist want tries attempt = s.met want
  | 0, attempt, h => by
    rw [insist, call_of_le (by omega)]
  | tries + 1, attempt, h => by
    rw [insist]
    rcases Nat.lt_or_ge attempt (s.pace.interruptions s.pos) with hlt | hge
    · rw [call_of_lt hlt]
      exact insist_eq_met (by omega)
    · rw [call_of_le hge]
      cases hm : s.met want with
      | interrupted => exact absurd hm (met_ne_interrupted s want)
      | bytes got => rfl
      | failed failure => rfl

theorem deliver_eq_met (s : Source) (want : Nat) : s.deliver want = s.met want :=
  insist_eq_met (by omega)

/-- A call that meets bytes hands over at least one of them. -/
theorem deliver_of_ne_nil {s : Source} (h : s.rest ≠ []) {want : Nat} (hw : 0 < want) :
    ∃ n, 0 < n ∧ n ≤ want ∧ n ≤ s.rest.length ∧ s.deliver want = .bytes (s.rest.take n) := by
  have hpos : 0 < s.rest.length := List.length_pos_iff.mpr h
  have hl : 0 < s.pace.limit s.pos want ∧ s.pace.limit s.pos want ≤ want := by
    unfold Pace.limit
    split <;> omega
  refine ⟨min (s.pace.limit s.pos want) s.rest.length, by omega, by omega, by omega, ?_⟩
  rw [deliver_eq_met, met_of_ne_nil h, List.take_eq_take_min]

/-! ### Runs of calls -/

/-- How asking for more than there is comes to its end. -/
def atEnd (s : Source) : Stop :=
  match s.failure with
  | none => .ended
  | some failure => .failed failure

theorem fillIn_of_ne_nil {s : Source} (h : s.rest ≠ []) (calls : Nat) {want : Nat}
    (hw : 0 < want) : ∃ n, 0 < n ∧ n ≤ want ∧ n ≤ s.rest.length ∧
      fillIn (calls + 1) want s =
        (s.rest.take n ++ (fillIn calls (want - n) (s.advance n)).1,
          (fillIn calls (want - n) (s.advance n)).2) := by
  obtain ⟨n, hn, hle, hlen, hd⟩ := deliver_of_ne_nil h hw
  refine ⟨n, hn, hle, hlen, ?_⟩
  have hgot : (s.rest.take n).length = n := by rw [List.length_take]; omega
  obtain ⟨w, rfl⟩ := Nat.exists_eq_succ_of_ne_zero hw.ne'
  rw [fillIn, hd]
  · cases ht : s.rest.take n with
    | nil =>
      rw [ht] at hgot
      exact absurd hgot hn.ne
    | cons b got =>
      rw [ht, List.length_cons] at hgot
      simp only [hgot]
  · simp

theorem fillIn_of_le : ∀ {calls want : Nat} {s : Source}, want ≤ calls → want ≤ s.rest.length →
    fillIn calls want s = (s.rest.take want, .filled, s.advance want)
  | calls, 0, s, _, _ => by
    rw [fillIn]
    simp
  | 0, want + 1, s, h, _ => by omega
  | calls + 1, want + 1, s, h, hl => by
    have hne : s.rest ≠ [] := List.ne_nil_of_length_pos (by omega)
    obtain ⟨n, hn, hle, hlen, hf⟩ := fillIn_of_ne_nil hne calls (Nat.succ_pos want)
    rw [hf, fillIn_of_le (by omega) (by rw [advance_rest, List.length_drop]; omega),
      advance_advance, advance_rest, ← List.take_add, Nat.add_sub_cancel' hle]

theorem fillIn_of_lt : ∀ {calls want : Nat} {s : Source}, want ≤ calls → s.rest.length < want →
    fillIn calls want s = (s.rest, s.atEnd, s.advance s.rest.length)
  | calls, 0, s, _, h => by omega
  | 0, want + 1, s, h, _ => by omega
  | calls + 1, want + 1, s, h, hl => by
    by_cases hne : s.rest = []
    · rw [fillIn, deliver_eq_met, met_of_nil hne, atEnd, hne, List.length_nil, advance_zero]
      · cases s.failure <;> rfl
      · simp
    · obtain ⟨n, hn, hle, hlen, hf⟩ := fillIn_of_ne_nil hne calls (Nat.succ_pos want)
      rw [hf, fillIn_of_lt (by omega) (by rw [advance_rest, List.length_drop]; omega),
        advance_advance, advance_rest, List.take_append_drop, List.length_drop,
        Nat.add_sub_cancel' hlen]
      rfl

/-- **Asking for bytes that are there** gives them. -/
theorem fill_of_le {s : Source} {want : Nat} (h : want ≤ s.rest.length) :
    s.fill want = (s.rest.take want, .filled, s.advance want) :=
  fillIn_of_le le_rfl h

/-- **Asking for more bytes than there are** gives all that there are, and meets the end. -/
theorem fill_of_lt {s : Source} {want : Nat} (h : s.rest.length < want) :
    s.fill want = (s.rest, s.atEnd, s.advance s.rest.length) :=
  fillIn_of_lt le_rfl h

end TagFormat.Source
