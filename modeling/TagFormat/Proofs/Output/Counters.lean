import Mathlib.Data.List.Permutation
import TagFormat.Proofs.Output.Capacity
import TagFormat.Proofs.Tag.Size

/-! # A counter for every tag under way

Every tag is written through a counter of its own, put on where the tag begins and taken off where
it ends, and a block that is written inside of several tags goes through the counters of all of
them. `Tag.marked` is the writing of a tag with these places marked: without the marks it is the
writing itself (`Tag.writing_marked`), and played against a sink it comes to the same
(`Marked.run_eq`). At every call each counter tells how many bytes the sink took since it was put
on (`Counters.exact_run`).

`writing_bounded` puts this beside what a sink with a limit holds in the end. -/

namespace TagFormat

/-! ### Marked writings -/

/-- What happens while a tag is written. -/
inductive Mark where
  | begun
  | block (bytes : Bytes)
  | ended

/-- The block of a mark. -/
def Mark.block? : Mark → Option Bytes
  | .block bytes => some bytes
  | .begun | .ended => none

/-- A writing with marks where tags begin and end. -/
structure Marked where
  marks : List Mark := []
  /-- The error after the last mark. -/
  failure : Option TagError := none

namespace Marked

/-- One after the other; what comes after an error never happens. -/
def append (a b : Marked) : Marked :=
  match a.failure with
  | some _ => a
  | none => { marks := a.marks ++ b.marks, failure := b.failure }

instance : Append Marked := ⟨append⟩

/-- A writing without marks of its own. -/
def plain (w : Writing) : Marked where
  marks := w.pieces.map .block
  failure := w.failure

/-- What is written through a counter. -/
def counted (m : Marked) : Marked :=
  { marks := [.begun] } ++ m ++ { marks := [.ended] }

/-- The marked writings of some items, one after another. -/
def concat (l : List Marked) : Marked :=
  l.foldr (· ++ ·) {}

/-- The writing without the marks. -/
def writing (m : Marked) : Writing where
  pieces := m.marks.filterMap Mark.block?
  failure := m.failure

variable {a b m : Marked}

theorem append_of_none (h : a.failure = none) :
    a ++ b = { marks := a.marks ++ b.marks, failure := b.failure } := by
  change append a b = _
  rw [append, h]

theorem append_of_some {error : TagError} (h : a.failure = some error) : a ++ b = a := by
  change append a b = _
  rw [append, h]

theorem writing_append (a b : Marked) : (a ++ b).writing = a.writing ++ b.writing := by
  rcases h : a.failure with _ | error
  · have hw : a.writing.failure = none := h
    rw [append_of_none h, Writing.append_of_none hw, writing, List.filterMap_append]
    rfl
  · have hw : a.writing.failure = some error := h
    rw [append_of_some h, Writing.append_of_some hw]

theorem writing_concat {α : Type} {f : α → Marked} {g : α → Writing}
    (h : ∀ e, (f e).writing = g e) (l : List α) :
    (concat (l.map f)).writing = Writing.concat (l.map g) := by
  induction l with
  | nil => rfl
  | cons e l ih =>
    have hcons : concat ((e :: l).map f) = f e ++ concat (l.map f) := rfl
    rw [hcons, List.map_cons, Writing.concat_cons, writing_append, h, ih]

theorem writing_plain (w : Writing) : (plain w).writing = w := by
  have hpieces : (w.pieces.map Mark.block).filterMap Mark.block? = w.pieces := by
    rw [List.filterMap_map]
    exact List.filterMap_some
  rw [writing, plain, hpieces]

theorem writing_counted (m : Marked) : m.counted.writing = m.writing := by
  have hempty : ∀ w : Writing, w ++ {} = w := fun w => by
    rcases h : w.failure with _ | error
    · rw [Writing.append_of_none h, List.append_nil, ← h]
    · rw [Writing.append_of_some h]
  have hbegun : ({ marks := [.begun] } : Marked).writing = {} := rfl
  have hended : ({ marks := [.ended] } : Marked).writing = {} := rfl
  rw [counted, writing_append, writing_append, hbegun, hended, hempty,
    Writing.append_of_none rfl]
  rfl

end Marked

/-- Text in a tag of its own. -/
def Tag.markedString (s : String) : Marked :=
  (Marked.plain (Tag.stringWriting s)).counted

mutual

/-- The writing of a payload, with marks where tags begin and end. -/
def Payload.marked : Payload → Marked
  | .tagArray tags =>
    .plain (.block (Varint.encode (UInt64.ofNat tags.length))) ++ Tag.markedAll tags
  | .tagSequence tags => Tag.markedAll tags
  | .dictionary ⟨⟨slots⟩, _, count⟩ =>
    .plain (.block (Varint.encode (UInt64.ofNat count))) ++ Tag.markedEntries slots
  | .stringDictionary m =>
    .plain (.block (Varint.encode (UInt64.ofNat m.size))) ++
      .concat (m.toList.map fun e => Tag.markedString e.1 ++ Tag.markedString e.2)
  | .document ⟨_, t⟩ => .plain (.uint16 Payload.documentVersion) ++ t.marked
  | .nested ⟨_, some t⟩ => t.marked
  | p => .plain p.writing
termination_by structural p => p

/-- The writing of a tag, with marks where tags begin and end. A tag that cannot stand under its id
is refused before its counter is put on. -/
def Tag.marked : Tag → Marked
  | .mk id p =>
    match Header.fault? id p.valueSize with
    | some error => .plain (.fail error)
    | none => (.plain (Header.writing id (UInt64.ofNat p.valueSize)) ++ p.marked).counted
termination_by structural t => t

/-- The writings of tags one after another. -/
def Tag.markedAll : List Tag → Marked
  | [] => {}
  | t :: ts => t.marked ++ Tag.markedAll ts
termination_by structural ts => ts

/-- The writings of the entries of a dictionary. -/
def Tag.markedEntries : List (Option (String × Tag)) → Marked
  | [] => {}
  | none :: slots => Tag.markedEntries slots
  | some (key, t) :: slots => Tag.markedString key ++ t.marked ++ Tag.markedEntries slots
termination_by structural slots => slots

end

namespace Tag

theorem writing_markedString (s : String) : (markedString s).writing = stringWriting s := by
  rw [markedString, Marked.writing_counted, Marked.writing_plain]

theorem writing_markedAll {tags : List Tag} (h : ∀ t ∈ tags, t.marked.writing = t.writing) :
    (markedAll tags).writing = writings tags := by
  induction tags with
  | nil => rfl
  | cons t tags ih =>
    obtain ⟨ht, htags⟩ := List.forall_mem_cons.mp h
    rw [markedAll, writings, Marked.writing_append, ht, ih htags]

theorem writing_markedEntries {slots : List (Option (String × Tag))}
    (h : ∀ e ∈ InsertionMap.entries slots, e.2.marked.writing = e.2.writing) :
    (markedEntries slots).writing = entryWritings slots := by
  induction slots with
  | nil => rfl
  | cons slot slots ih =>
    rcases slot with _ | ⟨key, t⟩
    · rw [markedEntries, entryWritings]
      exact ih h
    · obtain ⟨ht, hslots⟩ := List.forall_mem_cons.mp h
      rw [markedEntries, entryWritings, Marked.writing_append, Marked.writing_append,
        writing_markedString, ht, ih hslots]

end Tag

theorem Payload.writing_marked {p : Payload}
    (h : ∀ u ∈ p.children, u.marked.writing = u.writing) : p.marked.writing = p.writing := by
  cases p with
  | tagArray tags =>
    have h : ∀ t ∈ tags, t.marked.writing = t.writing := h
    rw [marked, writing, Marked.writing_append, Marked.writing_plain, Tag.writing_markedAll h]
  | tagSequence tags =>
    have h : ∀ t ∈ tags, t.marked.writing = t.writing := h
    rw [marked, writing, Tag.writing_markedAll h]
  | dictionary m =>
    obtain ⟨⟨slots⟩, index, count⟩ := m
    have hslots : ∀ e ∈ InsertionMap.entries slots, e.2.marked.writing = e.2.writing :=
      fun e he => h e.2 (List.mem_map_of_mem he)
    rw [marked, writing, Marked.writing_append, Marked.writing_plain,
      Tag.writing_markedEntries hslots]
  | stringDictionary m =>
    have hentry : ∀ e : String × String, (Tag.markedString e.1 ++ Tag.markedString e.2).writing =
        Tag.stringWriting e.1 ++ Tag.stringWriting e.2 := by
      intro e
      rw [Marked.writing_append, Tag.writing_markedString, Tag.writing_markedString]
    rw [marked, writing_stringDictionary, Marked.writing_append, Marked.writing_plain,
      Marked.writing_concat hentry]
  | document v =>
    obtain ⟨version, t⟩ := v
    rw [marked, writing, Marked.writing_append, Marked.writing_plain,
      h t (List.mem_singleton_self t)]
  | nested slot =>
    obtain ⟨id, _ | t⟩ := slot
    · rfl
    · rw [marked, writing, h t (List.mem_singleton_self t)]
  | _ => exact Marked.writing_plain _

/-- **Without the marks** it is the writing of the tag. -/
theorem Tag.writing_marked : ∀ t : Tag, t.marked.writing = t.writing := by
  refine Tag.induction fun t ih => ?_
  obtain ⟨id, p⟩ := t
  have hp : p.marked.writing = p.writing := Payload.writing_marked ih
  rw [marked, writing, Header.framing]
  cases Header.fault? id p.valueSize with
  | some error => exact Marked.writing_plain _
  | none =>
    simp only
    rw [Marked.writing_counted, Marked.writing_append, Marked.writing_plain, hp]

/-! ### Counters -/

/-- A counter, and how many bytes the sink had taken when it was put on, which is there to speak
about and which nothing looks at. -/
structure Counter where
  since : Nat
  count : Nat := 0

/-- A sink behind counters, the one put on last before the others. -/
structure Counters where
  sink : Sink
  counters : List Counter := []

namespace Counters

/-- The counters after a number of calls that offer a block. -/
def pushIn (calls : Nat) (b : Bytes) (c : Counters) : Counters where
  sink := (c.sink.pushIn calls b 0).2
  counters := c.counters.map fun k =>
    { k with count := k.count + (c.sink.pushIn calls b 0).1.written }

/-- Plays marks against a sink, up to the first block that is not taken whole. -/
def run : List Mark → Counters → Except TagError Unit × Counters
  | [], c => (.ok (), c)
  | .begun :: marks, c =>
    run marks { c with counters := { since := c.sink.taken.length } :: c.counters }
  | .ended :: marks, c => run marks { c with counters := c.counters.tail }
  | .block b :: marks, c =>
    match (c.sink.push b).1.outcome b.length with
    | .ok () => run marks (c.pushIn b.length b)
    | .error error => (.error error, c.pushIn b.length b)

/-- Every counter tells how many bytes the sink took since it was put on. -/
def Exact (c : Counters) : Prop :=
  ∀ k ∈ c.counters, k.since + k.count = c.sink.taken.length

variable {c : Counters}

/-- One call after another, a block keeps the counters exact. -/
theorem Exact.pushIn (h : c.Exact) (calls : Nat) (b : Bytes) : (c.pushIn calls b).Exact := by
  have hlen := Sink.length_taken_pushIn calls b c.sink
  intro k hk
  obtain ⟨k, hmem, rfl⟩ := List.mem_map.mp hk
  have hk := h k hmem
  unfold Counters.pushIn
  simp only
  omega

theorem exact_run (marks : List Mark) (h : c.Exact) : (run marks c).2.Exact := by
  induction marks generalizing c with
  | nil => exact h
  | cons mark marks ih =>
    cases mark with
    | begun =>
      have hbegun :
          Exact { c with counters := { since := c.sink.taken.length } :: c.counters } := by
        intro k hk
        rcases List.mem_cons.mp hk with rfl | hk
        · rfl
        · exact h k hk
      exact ih hbegun
    | ended =>
      have hended : Exact { c with counters := c.counters.tail } :=
        fun k hk => h k (List.mem_of_mem_tail hk)
      exact ih hended
    | block b =>
      have hblock := h.pushIn b.length b
      rw [run]
      cases (c.sink.push b).1.outcome b.length with
      | error error => exact hblock
      | ok _ => exact ih hblock

/-- The marks make no difference to what the sink takes. -/
theorem run_eq_pushAll (marks : List Mark) (c : Counters) (t : Tally) (h : t.sink = c.sink) :
    (run marks c).1 = (Writing.pushAll (marks.filterMap Mark.block?) t).1 ∧
      (run marks c).2.sink = (Writing.pushAll (marks.filterMap Mark.block?) t).2.sink := by
  induction marks generalizing c t with
  | nil => exact ⟨rfl, h.symm⟩
  | cons mark marks ih =>
    cases mark with
    | begun => exact ih _ t h
    | ended => exact ih _ t h
    | block b =>
      have hcons : (Mark.block b :: marks).filterMap Mark.block? =
          b :: marks.filterMap Mark.block? := rfl
      have hsink : (t.push b).2.sink = (c.pushIn b.length b).sink := by
        unfold pushIn
        rw [← h]
        rfl
      rw [hcons, run, Writing.pushAll, ← h]
      have hpush : (t.push b).1 = (t.sink.push b).1 := rfl
      rcases ht : t.push b with ⟨p, u⟩
      rw [ht] at hsink hpush
      simp only at hsink hpush ⊢
      rw [← hpush]
      cases p.outcome b.length with
      | error error => exact ⟨rfl, hsink.symm⟩
      | ok _ => exact ih _ u hsink

end Counters

/-- Plays a marked writing against a sink. -/
def Marked.run (m : Marked) (s : Sink) : Except TagError Unit × Counters :=
  match Counters.run m.marks { sink := s }, m.failure with
  | (.ok (), c), some error => (.error error, c)
  | result, _ => result

/-- With the marks it comes to the same as without. -/
theorem Marked.run_eq (m : Marked) (s : Sink) :
    ((m.run s).1, (m.run s).2.sink) = m.writing.run s := by
  obtain ⟨ho, hs⟩ := Counters.run_eq_pushAll m.marks { sink := s } { sink := s } rfl
  rw [Writing.run, Writing.runCounted, run]
  have hpieces : m.writing.pieces = m.marks.filterMap Mark.block? := rfl
  have hfailure : m.writing.failure = m.failure := rfl
  rw [hpieces, hfailure]
  generalize Counters.run m.marks { sink := s } = r at ho hs ⊢
  generalize Writing.pushAll (m.marks.filterMap Mark.block?) { sink := s } = r' at ho hs ⊢
  obtain ⟨o, sink, counters⟩ := r
  obtain ⟨o', t⟩ := r'
  simp only at ho hs
  subst ho hs
  rcases o with error | _ <;> cases m.failure <;> rfl

/-! ### Tags and orders -/

/-- **What a sink holds** of a tag, or of a list of orders, is a prefix of what a sink without a
limit holds, and where it is cut does not hang on the pace. At every call, in the middle of a block
and after a failure too, the counter of every tag under way, and the tally of the orders, tells the
number of bytes that the sink took since it was put on. -/
theorem writing_bounded :
    (∀ t : Tag, Writing.Bounded t.writeTo t.writing.pieces ∧
      (∀ s n s', t.writeTo s = (.ok n, s') → s'.taken.length = s.taken.length + n) ∧
      ∀ s, ((t.marked.run s).1, (t.marked.run s).2.sink) = t.writing.run s ∧
        ∀ played calls b,
          let c := (Counters.run (t.marked.marks.take played) { sink := s }).2.pushIn calls b
          ∀ k ∈ c.counters, k.since + k.count = c.sink.taken.length) ∧
    ∀ orders : List Scalar.Order,
      Writing.Bounded (Scalar.Order.run orders) (orders.map Scalar.Order.block) ∧
      ∀ s, (∀ i n, (Scalar.Order.runAll orders { sink := s }).1[i]? = some n →
          n = (Scalar.Order.runAll (orders.take (i + 1)) { sink := s }).2.2.count) ∧
        ∀ played calls b,
          let t := (Scalar.Order.runAll (orders.take played) { sink := s }).2.2.pushIn calls b
          s.taken.length + t.count = t.sink.taken.length := by
  refine ⟨fun t => ⟨Writing.bounded_writeTo t.writing,
    fun s n s' h => Writing.length_taken_of_writeTo h, fun s => ⟨?_, fun played calls b => ?_⟩⟩,
    fun orders => ⟨Scalar.Order.bounded_run orders, fun s => ⟨fun i n h => ?_,
      fun played calls b => ?_⟩⟩⟩
  · rw [Marked.run_eq, Tag.writing_marked]
  · have hnone : Counters.Exact { sink := s } := List.forall_mem_nil _
    exact (Counters.exact_run _ hnone).pushIn calls b
  · rw [Scalar.Order.runAll_snd, List.map_take]
    exact Scalar.Order.count_of_mem_runAll h
  · have hblocks := Writing.count_pushAll ((orders.take played).map Scalar.Order.block)
      { sink := s }
    rw [← Scalar.Order.runAll_snd] at hblocks
    have hcalls := Tally.count_pushIn calls b
      (Scalar.Order.runAll (orders.take played) { sink := s }).2.2
    simp only at hblocks ⊢
    omega

/-- An array of one number in a sink with room for five bytes, which ends inside the number; and the
two counters, of the array and of the number, after one more byte of the whole. -/
theorem writing_bounded_array :
    let t : Tag := .mk 21 (.tagArray [.mk 7 (.int32 258)])
    let one : Pace := .steady (some 1) true
    t.toBytes = .ok [21, 6, 1, 7, 0, 0, 1, 2] ∧
    (∀ pace, t.writeTo { capacity := some 5, pace } =
      (.error (.shortWrite 4 1), { taken := [21, 6, 1, 7, 0], capacity := some 5, pace })) ∧
    (∀ pace failure, t.writeTo { capacity := some 5, failure := some failure, pace } =
      (.error (.io failure),
        { taken := [21, 6, 1, 7, 0], capacity := some 5, failure := some failure, pace })) ∧
    ((Counters.run (t.marked.marks.take 6) { sink := { pace := one } }).2.pushIn 2
      [0, 0, 1, 2]).counters = [{ since := 3, count := 3 }, { since := 0, count := 6 }] := by
  intro t one
  have hpieces : t.writing.pieces = [[21], [6], [1], [7], [0, 0, 1, 2]] := by cbv
  obtain ⟨⟨o, -, hlimited⟩, -, -⟩ := writing_bounded.1 t
  rw [hpieces] at hlimited
  refine ⟨by cbv, fun pace => ?_, fun pace failure => ?_, by cbv⟩
  · obtain ⟨error, -, hrun⟩ := (hlimited 5 none).2 (by decide)
    have hsmooth : t.writeTo { capacity := some 5 } =
        (.error (.shortWrite 4 1), { taken := [21, 6, 1, 7, 0], capacity := some 5 }) := by
      cbv
    obtain ⟨⟨⟩, -⟩ := Prod.mk.inj ((hrun { capacity := some 5 } rfl rfl).symm.trans hsmooth)
    exact hrun { capacity := some 5, pace } rfl rfl
  · obtain ⟨error, rfl, hrun⟩ := (hlimited 5 (some failure)).2 (by decide)
    exact hrun { capacity := some 5, failure := some failure, pace } rfl rfl

end TagFormat
