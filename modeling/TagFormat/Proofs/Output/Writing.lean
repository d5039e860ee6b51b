import Mathlib.Algebra.GroupWithZero.Nat
import Mathlib.Data.List.Infix
import TagFormat.Output.Writing

/-! # Writings: their bytes, and what a sink takes of them

The bytes of a writing are made up of those of its parts (`Within`), and their number adds up
(`Fills`). A sink that has room for them (`Sink.Fits`) takes all of them, whatever its pace, and the
tally tells their number (`runCounted_of_fits`). -/

namespace TagFormat

/-! ### Sinks with room for a block -/

namespace Sink

@[simp] theorem take_capacity (s : Sink) (b : Bytes) : (s.take b).capacity = s.capacity := rfl

theorem length_taken_take (s : Sink) (b : Bytes) :
    (s.take b).taken.length = s.taken.length + b.length :=
  List.length_append

theorem take_take (s : Sink) (a b : Bytes) : (s.take a).take b = s.take (a ++ b) := by
  simp only [take, List.append_assoc]

theorem take_nil (s : Sink) : s.take [] = s := by
  simp only [take, List.append_nil]

variable {s : Sink}

/-- What a call meets that is not interrupted. -/
def met (s : Sink) (count : Nat) : Acceptance :=
  match s.capacity, s.failure with
  | none, _ => .took (s.pace.limit s.taken.length count)
  | some cap, failure =>
    match cap - s.taken.length, failure with
    | 0, some failure => .failed failure
    | room, _ => .took (min (s.pace.limit s.taken.length count) room)

theorem met_ne_interrupted (s : Sink) (count : Nat) : s.met count ≠ .interrupted := by
  unfold met
  split
  · simp
  · split <;> simp

theorem call_of_lt {attempt : Nat} (h : attempt < s.pace.interruptions s.taken.length)
    (count : Nat) : s.call count attempt = .interrupted := by
  rw [call, if_pos h]

theorem call_of_le {attempt : Nat} (h : s.pace.interruptions s.taken.length ≤ attempt)
    (count : Nat) : s.call count attempt = s.met count := by
  rw [call, if_neg (by omega)]
  rfl

theorem insist_eq_met {count : Nat} : ∀ {tries attempt : Nat},
    s.pace.interruptions s.taken.length ≤ tries + attempt →
      s.insist count tries attempt = s.met count
  | 0, attempt, h => by
    rw [insist, call_of_le (by omega)]
  | tries + 1, attempt, h => by
    rw [insist]
    rcases Nat.lt_or_ge attempt (s.pace.interruptions s.taken.length) with hlt | hge
    · rw [call_of_lt hlt]
      exact insist_eq_met (by omega)
    · rw [call_of_le hge]
      have hne := met_ne_interrupted s count
      cases hm : s.met count with
      | interrupted => exact absurd hm hne
      | took n => rfl
      | failed failure => rfl

theorem offer_eq_met (s : Sink) (count : Nat) : s.offer count = s.met count :=
  insist_eq_met (by omega)

theorem limit_le (pace : Pace) (place want : Nat) : pace.limit place want ≤ want := by
  unfold Pace.limit
  split <;> omega

theorem limit_pos (pace : Pace) (place : Nat) {want : Nat} (h : 0 < want) :
    0 < pace.limit place want := by
  unfold Pace.limit
  split <;> omega

/-- A sink has room for so many bytes more. -/
def Fits (s : Sink) (count : Nat) : Prop :=
  ∀ cap, s.capacity = some cap → s.taken.length + count ≤ cap

theorem fits_of_unlimited (h : s.capacity = none) (count : Nat) : s.Fits count := by
  intro cap hcap
  rw [h] at hcap
  cases hcap

theorem Fits.of_le {m n : Nat} (h : s.Fits n) (hm : m ≤ n) : s.Fits m := by
  intro cap hcap
  have hn := h cap hcap
  omega

theorem Fits.take {b : Bytes} {n : Nat} (h : s.Fits (b.length + n)) : (s.take b).Fits n := by
  intro cap hcap
  have hn := h cap hcap
  rw [length_taken_take]
  omega

/-- As long as there is room, a call takes at least one byte. -/
theorem offer_of_fits (h : s.Fits 1) {count : Nat} (hc : 0 < count) :
    ∃ n, n < count ∧ s.Fits (n + 1) ∧ s.offer count = .took (n + 1) := by
  have hle := limit_le s.pace s.taken.length count
  have hpos := limit_pos s.pace s.taken.length hc
  rw [offer_eq_met]
  cases hcap : s.capacity with
  | none =>
    have hmet : s.met count = .took (s.pace.limit s.taken.length count) := by
      unfold met
      rw [hcap]
    refine ⟨s.pace.limit s.taken.length count - 1, by omega, fits_of_unlimited hcap _, ?_⟩
    rw [hmet, Nat.sub_add_cancel hpos]
  | some cap =>
    have hroom := h cap hcap
    obtain ⟨room, hr⟩ := Nat.exists_eq_succ_of_ne_zero (show cap - s.taken.length ≠ 0 by omega)
    have hmet : s.met count = .took (min (s.pace.limit s.taken.length count) (room + 1)) := by
      unfold met
      simp only [hcap, hr]
    refine ⟨min (s.pace.limit s.taken.length count) (room + 1) - 1, by omega, ?_, ?_⟩
    · intro cap' hcap'
      obtain rfl := Option.some.inj (hcap.symm.trans hcap')
      omega
    · rw [hmet, Nat.sub_add_cancel (by omega)]

theorem pushIn_of_fits : ∀ {calls written : Nat} {b : Bytes} {s : Sink}, s.Fits b.length →
    b.length ≤ calls → pushIn calls b written s = ({ written := written + b.length }, s.take b)
  | calls, written, [], s, _, _ => by
    rw [pushIn, take_nil]
    rfl
  | 0, written, b :: bs, s, _, hc => absurd hc (Nat.not_succ_le_zero _)
  | calls + 1, written, b :: bs, s, h, hc => by
    have hpos : 0 < (b :: bs).length := Nat.succ_pos _
    obtain ⟨n, hn, -, ho⟩ := offer_of_fits (h.of_le hpos) hpos
    have hlen : ((b :: bs).take (n + 1)).length = n + 1 := List.length_take_of_le hn
    have hrest : ((b :: bs).drop (n + 1)).length = (b :: bs).length - (n + 1) := List.length_drop
    rw [pushIn, ho]
    · simp only
      rw [pushIn_of_fits (Fits.take (h.of_le (by omega))) (by omega), take_take,
        List.take_append_drop, hrest]
      congr 2
      omega
    · simp

/-- **A sink that has room for a block** takes all of it, whatever its pace. -/
theorem push_of_fits {b : Bytes} (h : s.Fits b.length) :
    s.push b = ({ written := b.length }, s.take b) := by
  rw [push, pushIn_of_fits h le_rfl, Nat.zero_add]

end Sink

namespace Writing

theorem pushAll_of_fits : ∀ {pieces : List Bytes} {t : Tally}, t.sink.Fits pieces.flatten.length →
    pushAll pieces t = (.ok (), { sink := t.sink.take pieces.flatten,
                                  count := t.count + pieces.flatten.length })
  | [], t, _ => by
    rw [pushAll, List.flatten_nil, Sink.take_nil]
    rfl
  | b :: pieces, t, h => by
    rw [List.flatten_cons, List.length_append] at h
    rw [pushAll, Tally.push, Sink.push_of_fits (h.of_le (Nat.le_add_right _ _))]
    simp only [Sink.Push.outcome, if_true]
    rw [pushAll_of_fits h.take, List.flatten_cons, List.length_append, Sink.take_take,
      Nat.add_assoc]

/-- **What a sink with room takes** of a writing, and what the tally tells. -/
theorem runCounted_of_fits {s : Sink} {w : Writing} (h : s.Fits w.bytes.length) :
    w.runCounted s = (match w.failure with | none => .ok () | some error => .error error,
      { sink := s.take w.bytes, count := w.bytes.length }) := by
  rw [runCounted, pushAll_of_fits (t := { sink := s }) h]
  cases w.failure with
  | none => simp [bytes]
  | some error => simp [bytes]

/-- **What a sink without a limit takes** of a writing, and what the tally tells. -/
theorem runCounted_of_unlimited {s : Sink} (h : s.capacity = none) (w : Writing) :
    w.runCounted s = (match w.failure with | none => .ok () | some error => .error error,
      { sink := s.take w.bytes, count := w.bytes.length }) :=
  runCounted_of_fits (Sink.fits_of_unlimited h _)

theorem writeTo_eq_ok {s s' : Sink} (h : s.capacity = none) {w : Writing} {n : Nat}
    (hw : w.writeTo s = (.ok n, s')) :
    w.failure = none ∧ n = w.bytes.length ∧ s' = s.take w.bytes := by
  rw [writeTo, runCounted_of_unlimited h] at hw
  cases hf : w.failure with
  | some error =>
    rw [hf] at hw
    cases hw
  | none =>
    rw [hf] at hw
    obtain ⟨⟨⟩, rfl⟩ := Prod.mk.inj hw
    exact ⟨rfl, rfl, rfl⟩

/-! ### One writing after the other -/

@[simp] theorem bytes_empty : ({} : Writing).bytes = [] := rfl

@[simp] theorem failure_empty : ({} : Writing).failure = none := rfl

@[simp] theorem bytes_block (b : Bytes) : (block b).bytes = b :=
  List.append_nil b

@[simp] theorem failure_block (b : Bytes) : (block b).failure = none := rfl

@[simp] theorem failure_fail (error : TagError) : (fail error).failure = some error := rfl

variable {a b c : Writing}

theorem append_of_none (h : a.failure = none) :
    a ++ b = { pieces := a.pieces ++ b.pieces, failure := b.failure } := by
  change append a b = _
  rw [append, h]

theorem append_of_some {error : TagError} (h : a.failure = some error) : a ++ b = a := by
  change append a b = _
  rw [append, h]

@[simp] theorem failure_append_eq_none :
    (a ++ b).failure = none ↔ a.failure = none ∧ b.failure = none := by
  cases h : a.failure with
  | none => simp [append_of_none h]
  | some error => simp [append_of_some h, h]

theorem toBytes_of_none (h : a.failure = none) : a.toBytes = .ok a.bytes := by
  rw [toBytes, h]

theorem toBytes_eq_ok_iff {bytes : Bytes} :
    a.toBytes = .ok bytes ↔ a.failure = none ∧ a.bytes = bytes := by
  rw [toBytes]
  cases a.failure with
  | none => exact ⟨fun h => ⟨rfl, Except.ok.inj h⟩, fun h => congrArg Except.ok h.2⟩
  | some error => exact ⟨(nomatch ·), fun h => nomatch h.1⟩

/-- The first failure counts. -/
theorem failure_append (a b : Writing) : (a ++ b).failure = a.failure.or b.failure := by
  cases h : a.failure with
  | none => rw [append_of_none h, Option.none_or]
  | some error => rw [append_of_some h, h, Option.some_or]

theorem bytes_append (h : a.failure = none) : (a ++ b).bytes = a.bytes ++ b.bytes := by
  rw [append_of_none h, bytes, List.flatten_append]
  rfl

/-- The writings of some items, one after another. -/
def concat (l : List Writing) : Writing :=
  l.foldr (· ++ ·) {}

@[simp] theorem concat_nil : concat [] = {} := rfl

@[simp] theorem concat_cons (w : Writing) (l : List Writing) :
    concat (w :: l) = w ++ concat l := rfl

theorem failure_concat_eq_none {α : Type} {f : α → Writing} : ∀ {l : List α},
    (concat (l.map f)).failure = none ↔ ∀ e ∈ l, (f e).failure = none
  | [] => by simp
  | e :: l => by
    rw [List.map_cons, concat_cons, failure_append_eq_none, List.forall_mem_cons,
      failure_concat_eq_none]

theorem failure_concat {α : Type} (f : α → Writing) : ∀ l : List α,
    (concat (l.map f)).failure = l.findSome? fun e => (f e).failure
  | [] => rfl
  | e :: l => by
    rw [List.map_cons, concat_cons, failure_append, failure_concat f l, List.findSome?_cons]
    cases (f e).failure <;> rfl

theorem bytes_concat {α : Type} {f : α → Writing} : ∀ {l : List α},
    (∀ e ∈ l, (f e).failure = none) → (concat (l.map f)).bytes = l.flatMap fun e => (f e).bytes
  | [], _ => rfl
  | e :: l, h => by
    obtain ⟨he, hl⟩ := List.forall_mem_cons.mp h
    rw [List.map_cons, concat_cons, bytes_append he, bytes_concat hl, List.flatMap_cons]

/-! ### The number of bytes -/

/-- Unless it fails, the writing has `n` bytes. -/
def Fills (w : Writing) (n : Nat) : Prop :=
  w.failure = none → w.bytes.length = n

theorem fills_empty : ({} : Writing).Fills 0 :=
  fun _ => rfl

theorem fills_block (b : Bytes) : (block b).Fills b.length :=
  fun _ => by rw [bytes_block]

theorem fills_fail (error : TagError) (n : Nat) : (fail error).Fills n := by
  rintro ⟨⟩

theorem Fills.append {m n : Nat} (ha : a.Fills m) (hb : b.Fills n) : (a ++ b).Fills (m + n) := by
  intro h
  obtain ⟨h₁, h₂⟩ := failure_append_eq_none.mp h
  rw [bytes_append h₁, List.length_append, ha h₁, hb h₂]

theorem fills_concat {α : Type} {f : α → Writing} {g : α → Nat} : ∀ {l : List α},
    (∀ e ∈ l, (f e).Fills (g e)) → (concat (l.map f)).Fills (l.map g).sum
  | [], _ => fills_empty
  | e :: l, h => by
    obtain ⟨he, hl⟩ := List.forall_mem_cons.mp h
    rw [List.map_cons, List.map_cons, List.sum_cons]
    exact he.append (fills_concat hl)

/-! ### Parts -/

/-- Unless `b` fails, `a` does not either, and its bytes stand somewhere in those of `b`. -/
def Within (a b : Writing) : Prop :=
  b.failure = none → a.failure = none ∧ a.bytes <:+: b.bytes

theorem Within.refl (a : Writing) : a.Within a :=
  fun h => ⟨h, List.infix_rfl⟩

theorem Within.trans (hab : a.Within b) (hbc : b.Within c) : a.Within c := by
  intro h
  obtain ⟨hb, hi⟩ := hbc h
  exact ⟨(hab hb).1, (hab hb).2.trans hi⟩

theorem within_append_left (a b : Writing) : a.Within (a ++ b) := by
  intro h
  have ha := (failure_append_eq_none.mp h).1
  rw [bytes_append ha]
  exact ⟨ha, (List.prefix_append _ _).isInfix⟩

theorem within_append_right (a b : Writing) : b.Within (a ++ b) := by
  intro h
  obtain ⟨ha, hb⟩ := failure_append_eq_none.mp h
  rw [bytes_append ha]
  exact ⟨hb, (List.suffix_append _ _).isInfix⟩

theorem within_concat : ∀ {l : List Writing}, a ∈ l → a.Within (concat l)
  | [], h => absurd h List.not_mem_nil
  | w :: l, h => by
    rcases List.mem_cons.mp h with rfl | h
    · exact within_append_left _ _
    · exact (within_concat h).trans (within_append_right _ _)

end Writing

end TagFormat
