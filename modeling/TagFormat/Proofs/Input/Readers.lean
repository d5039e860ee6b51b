import TagFormat.Proofs.Input.Runs
import TagFormat.Proofs.Input.Taking
import TagFormat.Proofs.InsertionMap.Mapped

/-! # Readers of any make

A reader need not be a program: it may make of every failure in it what it likes. Readers are put
together as programs are, one after another, in frames, and over and over again. Three things are
said of them, each of what is put together if it holds of the parts. A reader *agrees* with a program
that reads what some function makes of what the reader reads (`Agrees`). It *gives* a value from some
bytes if it reads it wherever these stand (`Gives`). And it *makes* only values of some sort if it
stays in its frames and comes to no other result (`Makes`). -/

namespace TagFormat

open Reading

variable {α β γ : Type}

/-- One that reads from a source inside frames that end at some places, be it a program or not. -/
abbrev Reader (α : Type) : Type :=
  List Nat → Source → Except TagError α × Source

theorem Reading.run_ensureFits {what : String} {count stop : Nat} {stops : List Nat} {s : Source}
    (h : s.pos + count ≤ stop) : (ensureFits what count).run (stop :: stops) s = (.ok (), s) := by
  have hroom : ¬stop - s.pos < count := by omega
  unfold ensureFits
  simp only [run, List.head?_cons, Option.map_some, if_neg hroom]

namespace Reader

/-- The reader goes on from one place to another and passes the end of no frame. -/
def Stays (read : Reader α) : Prop :=
  ∀ stops s, Source.Onward stops s (read stops s).2

/-! ### Readers made of readers -/

/-- Reads nothing. -/
def done (a : α) : Reader α := fun _ s => (.ok a, s)

/-- Goes on with `f` where the reader has come to a result. -/
def bind (read : Reader α) (f : α → Reader β) : Reader β := fun stops s =>
  match read stops s with
  | (.ok a, t) => f a stops t
  | (.error error, t) => (.error error, t)

/-- Reads what `f` makes of what the reader reads. -/
def map (f : α → β) (read : Reader α) : Reader β :=
  read.bind fun a => done (f a)

/-- Asks how many bytes the innermost frame has left. -/
def room : Reader (Option Nat) := fun stops s => (.ok (roomAt stops s.pos), s)

/-- Reads in a frame of `size` bytes that has to be used up exactly. -/
def exactly (what : String) (size : Nat) (body : Reader α) : Reader α := fun stops s =>
  leave what size (s.pos + size) (body ((s.pos + size) :: stops) s)

/-- Reads in a frame of the declared size, which is at least `minimum`. -/
def framed (what : String) (minimum : Nat) (declared : Declared) (body : Nat → Reader α) :
    Reader α :=
  bind (ofExcept (declared.atLeast what minimum)).run fun size => exactly what size (body size)

/-- Reads a number that the frame may hold in bytes, and as many things as it tells. -/
def counts (what : String) (things : Nat → Reader α) : Reader α :=
  bind varint.run fun count => bind (ensureFits what count.toNat).run fun _ => things count.toNat

/-- Reads `count` items, before which the items `before` were read, the last one first. -/
def timesFrom (item : Reader α) : (count : Nat) → (before : List α) → Reader (List α)
  | 0, before => done before.reverse
  | count + 1, before => item.bind fun a => timesFrom item count (a :: before)

/-- Reads items until the frame is used up, `most` of them at most, after the items `before`. -/
def untilEndFrom (item : Reader α) : (most : Nat) → (before : List α) → Reader (List α)
  | 0, before => done before.reverse
  | most + 1, before => room.bind fun
    | some 0 => done before.reverse
    | _ => item.bind fun a => untilEndFrom item most (a :: before)

/-- Reads `count` entries and adds them to `m`. A key that is there already is refused after its
value has been read. -/
def entriesInto (what : String) (key : Reader String) (value : Reader α) :
    (count : Nat) → InsertionMap String α → Reader (InsertionMap String α)
  | 0, m => done m
  | count + 1, m => key.bind fun k => value.bind fun v =>
    if m.contains k then (Reading.fail (.format (.duplicateKey what k))).run
    else entriesInto what key value count (m.insert k v)

/-- Reads items with a count before them. -/
def counted (what : String) (declared : Declared) (item : Reader α) : Reader (List α) :=
  framed what 1 declared fun _ => counts what fun count => item.timesFrom count []

/-- Reads items up to the end of a frame. -/
def sequence (what : String) (declared : Declared) (item : Reader α) : Reader (List α) :=
  framed what 0 declared fun size => item.untilEndFrom size []

/-- Reads a dictionary. -/
def entries (what : String) (declared : Declared) (key : Reader String) (value : Reader α) :
    Reader (InsertionMap String α) :=
  framed what 1 declared fun _ => counts what fun count => entriesInto what key value count ∅

variable {read : Reader α} {what : String} {declared : Declared} {f : α → β}

theorem bind_of_ok {next : α → Reader β} {stops : List Nat} {s t : Source} {a : α}
    (h : read stops s = (.ok a, t)) : read.bind next stops s = next a stops t := by
  rw [bind, h]

theorem bind_of_error {next : α → Reader β} {stops : List Nat} {s t : Source} {error : TagError}
    (h : read stops s = (.error error, t)) : read.bind next stops s = (.error error, t) := by
  rw [bind, h]

theorem map_eq_ok_iff {stops : List Nat} {s t : Source} {b : β} :
    read.map f stops s = (.ok b, t) ↔ ∃ a, read stops s = (.ok a, t) ∧ f a = b := by
  unfold map bind done
  rcases read stops s with ⟨error | a, u⟩
  · simp
  · simp [and_comm]

/-! ### Readers and programs -/

/-- The program reads what `f` makes of what the reader reads. -/
def Agrees (read : Reader α) (f : α → β) (p : Reading β) : Prop :=
  ∀ stops s, p.run stops s = read.map f stops s

theorem map_map (g : β → γ) (f : α → β) (read : Reader α) :
    (read.map f).map g = read.map (g ∘ f) := by
  funext stops s
  unfold map bind
  generalize read stops s = r
  obtain ⟨error | a, t⟩ := r <;> rfl

theorem map_id (read : Reader α) : read.map id = read := by
  funext stops s
  unfold map bind
  generalize read stops s = r
  obtain ⟨error | a, t⟩ := r <;> rfl

theorem agrees_run (p : Reading α) : Agrees p.run id p := fun stops s => by
  rw [map_id]

theorem agrees_done (f : α → β) (a : α) : (done a).Agrees f (.done (f a)) := fun _ _ => rfl

theorem agrees_fail (f : α → β) (error : TagError) :
    Agrees (Reading.fail error).run f (.fail error) := fun _ _ => rfl

theorem Agrees.bind {p : Reading β} {δ : Type} {next : α → Reader γ} {g : γ → δ}
    {q : β → Reading δ} (h : read.Agrees f p) (hnext : ∀ a, (next a).Agrees g (q (f a))) :
    (read.bind next).Agrees g (p.bind q) := by
  intro stops s
  have hrun := h stops s
  simp only [map, Reader.bind] at hrun ⊢
  rw [run_bind, hrun]
  rcases read stops s with ⟨error | a, t⟩
  · rfl
  · exact hnext a stops t

/-- After a program that both begin with. -/
theorem Agrees.after {p : Reading α} {next : α → Reader β} {g : β → γ} {q : α → Reading γ}
    (h : ∀ a, (next a).Agrees g (q a)) : (Reader.bind p.run next).Agrees g (p.bind q) :=
  (agrees_run p).bind h

theorem Agrees.map {p : Reading β} (h : read.Agrees f p) {δ : Type} {g : α → γ} {g' : γ → δ}
    {f' : β → δ} (hf : ∀ a, g' (g a) = f' (f a)) :
    (read.map g).Agrees g' (p.bind fun b => .done (f' b)) :=
  h.bind fun a => by
    rw [← hf]
    exact agrees_done g' (g a)

theorem Agrees.exactly {p : Reading β} (h : read.Agrees f p) (what : String) (size : Nat) :
    (read.exactly what size).Agrees f (Reading.exactly what size p) := by
  intro stops s
  rw [run_exactly, h]
  unfold Reader.map Reader.bind Reader.exactly
  rcases read ((s.pos + size) :: stops) s with ⟨error | a, t⟩
  · cases error <;> simp only [leave]
    all_goals split_ifs <;> rfl
  · simp only [leave, done]
    split_ifs <;> rfl

theorem Agrees.framed {body : Nat → Reader α} {p : Nat → Reading β} {minimum : Nat}
    (h : ∀ size, (body size).Agrees f (p size)) :
    (framed what minimum declared body).Agrees f (Reading.framed what minimum declared p) :=
  .after fun size => (h size).exactly what size

theorem Agrees.counts {things : Nat → Reader α} {p : Nat → Reading β}
    (h : ∀ count, (things count).Agrees f (p count)) : (counts what things).Agrees f
      (varint.bind fun count => (ensureFits what count.toNat).bind fun _ => p count.toNat) :=
  .after fun count => .after fun _ => h count.toNat

theorem Agrees.timesFrom {p : Reading β} (h : read.Agrees f p) : ∀ (count : Nat) (before : List α),
    (read.timesFrom count before).Agrees (List.map f) (p.timesFrom count (before.map f))
  | 0, before => by
    rw [Reading.timesFrom, ← List.map_reverse]
    exact agrees_done (List.map f) before.reverse
  | count + 1, before => h.bind fun a => h.timesFrom count (a :: before)

theorem untilEndFrom_of_full {stops : List Nat} {s : Source} (h : roomAt stops s.pos = some 0) :
    ∀ (most : Nat) (before : List α),
      read.untilEndFrom most before stops s = (.ok before.reverse, s)
  | 0, _ => rfl
  | most + 1, before => by
    change (match roomAt stops s.pos with
      | some 0 => done before.reverse
      | _ => read.bind fun a => read.untilEndFrom most (a :: before)) stops s = _
    rw [h]
    rfl

theorem untilEndFrom_of_room {stops : List Nat} {s : Source} (h : roomAt stops s.pos ≠ some 0)
    (most : Nat) (before : List α) : read.untilEndFrom (most + 1) before stops s =
      (read.bind fun a => read.untilEndFrom most (a :: before)) stops s := by
  change (match roomAt stops s.pos with
    | some 0 => done before.reverse
    | _ => read.bind fun a => read.untilEndFrom most (a :: before)) stops s = _
  generalize roomAt stops s.pos = left at h ⊢
  rcases left with _ | _ | n
  · rfl
  · exact absurd rfl h
  · rfl

theorem run_untilEndFrom_of_full {p : Reading β} {stops : List Nat} {s : Source}
    (h : roomAt stops s.pos = some 0) : ∀ (most : Nat) (before : List β),
      (p.untilEndFrom most before).run stops s = (.ok before.reverse, s)
  | 0, _ => rfl
  | most + 1, before => by
    rw [Reading.untilEndFrom, run, ← roomAt, h]
    rfl

theorem run_untilEndFrom_of_room {p : Reading β} {stops : List Nat} {s : Source}
    (h : roomAt stops s.pos ≠ some 0) (most : Nat) (before : List β) :
    (p.untilEndFrom (most + 1) before).run stops s =
      (p.bind fun b => p.untilEndFrom most (b :: before)).run stops s := by
  rw [Reading.untilEndFrom, run, ← roomAt]
  split
  · next hfull => exact absurd hfull h
  · rfl

theorem Agrees.untilEndFrom {p : Reading β} (h : read.Agrees f p) : ∀ (most : Nat)
    (before : List α),
    (read.untilEndFrom most before).Agrees (List.map f) (p.untilEndFrom most (before.map f))
  | 0, before => by
    rw [Reading.untilEndFrom, ← List.map_reverse]
    exact agrees_done (List.map f) before.reverse
  | most + 1, before => by
    have hitem : (read.bind fun a => read.untilEndFrom most (a :: before)).Agrees (List.map f)
        (p.bind fun b => p.untilEndFrom most (b :: before.map f)) :=
      h.bind fun a => h.untilEndFrom most (a :: before)
    intro stops s
    by_cases hroom : roomAt stops s.pos = some 0
    · rw [run_untilEndFrom_of_full hroom, ← List.map_reverse]
      unfold Reader.map Reader.bind
      rw [untilEndFrom_of_full hroom]
      rfl
    · rw [run_untilEndFrom_of_room hroom, hitem stops s]
      unfold Reader.map
      rw [Reader.bind, ← untilEndFrom_of_room hroom, Reader.bind]

theorem Agrees.entriesInto {p : Reading β} (h : read.Agrees f p) {key : Reader String}
    {q : Reading String} (hkey : key.Agrees id q) : ∀ (count : Nat) (m : InsertionMap String α),
    (entriesInto what key read count m).Agrees (.map f)
      (Reading.entriesInto what q p count (m.map f))
  | 0, m => agrees_done (InsertionMap.map f) m
  | count + 1, m => hkey.bind fun k => h.bind fun v => by
    rw [InsertionMap.contains_map, ← InsertionMap.map_insert]
    by_cases hk : m.contains k = true
    · simp only [id_eq, if_pos hk]
      exact agrees_fail (InsertionMap.map f) _
    · simp only [id_eq, if_neg hk]
      exact h.entriesInto hkey count (m.insert k v)

theorem Agrees.counted {p : Reading β} (h : read.Agrees f p) (what : String) (declared : Declared) :
    (read.counted what declared).Agrees (List.map f) (Reading.counted what declared p) :=
  .framed fun _ => .counts fun count => h.timesFrom count []

theorem Agrees.sequence {p : Reading β} (h : read.Agrees f p) (what : String)
    (declared : Declared) : (read.sequence what declared).Agrees (List.map f)
      (Reading.framed what 0 declared (Reading.untilEnd p)) :=
  .framed fun size => h.untilEndFrom size []

theorem Agrees.entries {p : Reading β} (h : read.Agrees f p) {key : Reader String}
    {q : Reading String} (hkey : key.Agrees id q) (what : String) (declared : Declared) :
    (entries what declared key read).Agrees (InsertionMap.map f)
      (Reading.entries what declared q p) := by
  have hempty : ∀ count, (Reader.entriesInto what key read count ∅).Agrees (InsertionMap.map f)
      (Reading.entriesInto what q p count ∅) := fun count => by
    have hmap : (Reader.entriesInto what key read count ∅).Agrees (InsertionMap.map f)
        (Reading.entriesInto what q p count ((∅ : InsertionMap String α).map f)) :=
      h.entriesInto hkey count ∅
    rwa [InsertionMap.map_empty] at hmap
  have hcounts : (Reader.counts what fun count =>
      Reader.entriesInto what key read count ∅).Agrees _ _ := .counts hempty
  exact .framed fun _ => hcounts

/-! ### What readers give -/

/-- From a source that starts with the bytes, all of them within all frames, the reader reads `a` and
comes to their end. -/
def Gives (read : Reader α) (bytes : Bytes) (a : α) : Prop :=
  ∀ (stops : List Nat) (s : Source) (rest : Bytes), s.rest = bytes ++ rest →
    (∀ stop ∈ stops, s.pos + bytes.length ≤ stop) → read stops s = (.ok a, s.advance bytes.length)

variable {bytes bytes' : Bytes} {a : α} {b : β}

theorem gives_run {p : Reading α} (h : ∀ left, p.Yields left bytes a) : Gives p.run bytes a :=
  fun _ _ _ hs hstops => run_of_yields hs hstops (h _)

theorem gives_done (a : α) : (done a).Gives [] a := fun _ s _ _ _ =>
  congrArg (_, ·) s.advance_zero.symm

theorem Gives.bind {next : α → Reader β} (h : read.Gives bytes a) (hnext : (next a).Gives bytes' b) :
    (read.bind next).Gives (bytes ++ bytes') b := by
  intro stops s rest hs hstops
  rw [List.append_assoc] at hs
  rw [List.length_append] at hstops ⊢
  have hread := h stops s _ hs fun stop hmem => by
    have := hstops stop hmem
    omega
  have hfollow := hnext stops (s.advance bytes.length) rest (Source.rest_advance hs)
    fun stop hmem => by
      have := hstops stop hmem
      rw [Source.advance_pos]
      omega
  rw [bind_of_ok hread, ← Source.advance_advance]
  exact hfollow

theorem Gives.map (h : read.Gives bytes a) (f : α → β) : (read.map f).Gives bytes (f a) := by
  rw [← List.append_nil bytes]
  exact h.bind (gives_done (f a))

/-- A reader that is given its bytes alone, in a frame that they use up. -/
theorem gives_exactly {what : String} {size : Nat} (hsize : bytes.length = size)
    (h : ∀ (stops : List Nat) (s : Source) (rest : Bytes), s.rest = bytes ++ rest →
      (∀ stop ∈ stops, s.pos + bytes.length ≤ stop) →
      read ((s.pos + bytes.length) :: stops) s = (.ok a, s.advance bytes.length)) :
    (read.exactly what size).Gives bytes a := by
  subst hsize
  intro stops s rest hs hstops
  exact leave_eq_ok_iff.mpr ⟨h stops s rest hs hstops, rfl⟩

theorem Gives.exactly (h : read.Gives bytes a) {what : String} {size : Nat}
    (hsize : bytes.length = size) : (read.exactly what size).Gives bytes a :=
  gives_exactly hsize fun _ s rest hs hstops =>
    h _ s rest hs (List.forall_mem_cons.mpr ⟨Nat.le_refl _, hstops⟩)

theorem framed_of_le {body : Nat → Reader α} {minimum size : Nat} (h : minimum ≤ size) :
    framed what minimum (.exact size) body = (body size).exactly what size := by
  have hsize : (Declared.exact size).atLeast what minimum = .ok size := if_neg (by omega)
  rw [framed, hsize]
  rfl

/-- Where a number is told that the frame can hold, as many things are read behind it. -/
theorem counts_eq {things : Nat → Reader α} {count : Nat} {stops : List Nat} {s : Source}
    {rest : Bytes} (hcount : count < 2 ^ 64)
    (hs : s.rest = Varint.encode (UInt64.ofNat count) ++ rest)
    (hfit : ∀ stop ∈ stops, s.pos + (Varint.encodedSize (UInt64.ofNat count) + count) ≤ stop) :
    counts what things stops s =
      things count stops (s.advance (Varint.encodedSize (UInt64.ofNat count))) := by
  have hn : (UInt64.ofNat count).toNat = count := UInt64.toNat_ofNat_of_lt' hcount
  have hvarint : varint.run stops s = (.ok (UInt64.ofNat count),
      s.advance (Varint.encodedSize (UInt64.ofNat count))) := by
    rw [← Varint.length_encode]
    refine run_of_yields hs (fun stop hmem => ?_) (yields_varint.mpr rfl)
    have := hfit stop hmem
    rw [Varint.length_encode]
    omega
  have hroom : (ensureFits what count).run stops
      (s.advance (Varint.encodedSize (UInt64.ofNat count))) =
        (.ok (), s.advance (Varint.encodedSize (UInt64.ofNat count))) := by
    cases stops with
    | nil => rfl
    | cons stop stops =>
      have := hfit stop List.mem_cons_self
      refine run_ensureFits ?_
      rw [Source.advance_pos]
      omega
  rw [counts, bind_of_ok hvarint, hn, bind_of_ok hroom]

theorem Gives.counts {things : Nat → Reader α} {count : Nat} (hcount : count < 2 ^ 64)
    (hle : count ≤ bytes.length) (h : (things count).Gives bytes a) :
    (counts what things).Gives (Varint.encode (UInt64.ofNat count) ++ bytes) a := by
  intro stops s rest hs hstops
  rw [List.append_assoc] at hs
  rw [List.length_append, Varint.length_encode] at hstops ⊢
  have hrest := Source.rest_advance hs
  rw [Varint.length_encode] at hrest
  rw [counts_eq hcount hs fun stop hmem => by
    have := hstops stop hmem
    omega, ← Source.advance_advance]
  refine h stops _ rest hrest fun stop hmem => ?_
  have := hstops stop hmem
  rw [Source.advance_pos]
  omega

section Lists

variable {δ : Type} {part : δ → Bytes} {back : δ → α}

theorem gives_timesFrom : ∀ (l : List δ) (before : List α),
    (∀ d ∈ l, read.Gives (part d) (back d)) →
    (read.timesFrom l.length before).Gives (l.flatMap part) (before.reverse ++ l.map back)
  | [], before, _ => by
    rw [List.map_nil, List.append_nil]
    exact gives_done before.reverse
  | d :: l, before, h => by
    obtain ⟨hd, hl⟩ := List.forall_mem_cons.mp h
    have hrest := gives_timesFrom l (back d :: before) hl
    rw [List.reverse_cons, List.append_assoc, List.singleton_append] at hrest
    exact hd.bind hrest

/-- **Items with a count before them** are given if each of them is, from a byte at least. -/
theorem gives_counted {l : List δ} (h : ∀ d ∈ l, read.Gives (part d) (back d))
    (hpos : ∀ d ∈ l, 0 < (part d).length) {size : Nat} (hlt : size < 2 ^ 64)
    (hsize : (Varint.encode (UInt64.ofNat l.length) ++ l.flatMap part).length = size) :
    (read.counted what (.exact size)).Gives
      (Varint.encode (UInt64.ofNat l.length) ++ l.flatMap part) (l.map back) := by
  have hle := length_le_length_flatMap hpos
  have hone := Varint.encodedSize_pos (UInt64.ofNat l.length)
  rw [List.length_append, Varint.length_encode] at hsize
  rw [counted, framed_of_le (by omega)]
  refine Gives.exactly (.counts (by omega) hle ?_) ?_
  · exact gives_timesFrom l [] h
  · rw [List.length_append, Varint.length_encode, hsize]

theorem untilEndFrom_eq : ∀ (l : List δ) (before : List α) {most : Nat} {stops : List Nat}
    {s : Source} {rest : Bytes}, (∀ d ∈ l, read.Gives (part d) (back d)) →
    (∀ d ∈ l, 0 < (part d).length) → (l.flatMap part).length ≤ most →
    s.rest = l.flatMap part ++ rest → (∀ stop ∈ stops, s.pos + (l.flatMap part).length ≤ stop) →
    read.untilEndFrom most before ((s.pos + (l.flatMap part).length) :: stops) s =
      (.ok (before.reverse ++ l.map back), s.advance (l.flatMap part).length)
  | [], before, most, stops, s, rest, _, _, _, _, _ => by
    rw [List.map_nil, List.append_nil, List.flatMap_nil, List.length_nil, Source.advance_zero]
    exact untilEndFrom_of_full (by simp [roomAt]) most before
  | d :: l, before, most, stops, s, rest, h, hpos, hmost, hs, hstops => by
    obtain ⟨hd, hl⟩ := List.forall_mem_cons.mp h
    obtain ⟨hpd, hpl⟩ := List.forall_mem_cons.mp hpos
    rw [List.flatMap_cons, List.length_append] at hmost hstops ⊢
    rw [List.flatMap_cons, List.append_assoc] at hs
    obtain ⟨most, rfl⟩ : ∃ n, most = n + 1 := ⟨most - 1, by omega⟩
    have hroom : roomAt ((s.pos + ((part d).length + (l.flatMap part).length)) :: stops) s.pos ≠
        some 0 := by
      simp only [roomAt, List.head?_cons, Option.map_some, ne_eq, Option.some.injEq]
      omega
    have hitem := hd ((s.pos + ((part d).length + (l.flatMap part).length)) :: stops) s _ hs
      (List.forall_mem_cons.mpr ⟨by omega, fun stop hmem => by
        have := hstops stop hmem
        omega⟩)
    have hfit : ∀ stop ∈ stops, (s.advance (part d).length).pos + (l.flatMap part).length ≤ stop := by
      intro stop hmem
      have := hstops stop hmem
      rw [Source.advance_pos]
      omega
    have hmost' : (l.flatMap part).length ≤ most := by omega
    have hrest := untilEndFrom_eq l (back d :: before) hl hpl hmost' (Source.rest_advance hs) hfit
    rw [Source.advance_pos, Nat.add_assoc, Source.advance_advance, List.reverse_cons,
      List.append_assoc, List.singleton_append] at hrest
    rw [untilEndFrom_of_room hroom, bind_of_ok hitem]
    exact hrest

/-- **Items up to the end of the frame** are given if each of them is, from a byte at least. -/
theorem gives_sequence {l : List δ} (h : ∀ d ∈ l, read.Gives (part d) (back d))
    (hpos : ∀ d ∈ l, 0 < (part d).length) {size : Nat} (hsize : (l.flatMap part).length = size) :
    (read.sequence what (.exact size)).Gives (l.flatMap part) (l.map back) := by
  rw [sequence, framed_of_le (Nat.zero_le size)]
  exact gives_exactly hsize fun stops s rest hs hstops =>
    untilEndFrom_eq l [] h hpos hsize.le hs hstops

end Lists

/-! ### What readers make -/

/-- Where no frame has ended, the reader stays in all of them, and comes only to results that have
the property. -/
def Makes (read : Reader α) (property : α → Prop) : Prop :=
  ∀ (stops : List Nat) (s : Source), (∀ stop ∈ stops, s.pos ≤ stop) →
    Source.Onward stops s (read stops s).2 ∧ ∀ a, (read stops s).1 = .ok a → property a

variable {P : α → Prop} {Q : β → Prop}

theorem makes_run {p : Reading α} (h : ∀ left c a, p.Yields left c a → P a) : Makes p.run P :=
  fun stops s hstops => ⟨onward_run p stops s, fun _ ha => by
    obtain ⟨_, _, _, _, hy⟩ := (run_eq_ok_iff hstops).mp (Prod.ext ha rfl)
    exact h _ _ _ hy⟩

theorem Stays.makes (h : read.Stays) : read.Makes fun _ => True :=
  fun stops s _ => ⟨h stops s, fun _ _ => trivial⟩

theorem makes_done {a : α} (h : P a) : (done a).Makes P :=
  fun stops s _ => ⟨.refl stops s, fun _ ha => Except.ok.inj ha ▸ h⟩

theorem makes_fail (error : TagError) : Makes (Reading.fail error).run P :=
  fun stops s _ => ⟨.refl stops s, fun _ ha => nomatch ha⟩

theorem Makes.bind {next : α → Reader β} (h : read.Makes P) (hnext : ∀ a, P a → (next a).Makes Q) :
    (read.bind next).Makes Q := by
  intro stops s hstops
  obtain ⟨hon, hmade⟩ := h stops s hstops
  unfold Reader.bind
  generalize read stops s = r at hon hmade
  obtain ⟨error | a, t⟩ := r
  · exact ⟨hon, fun _ hb => nomatch hb⟩
  · have hfit : ∀ stop ∈ stops, t.pos ≤ stop := fun stop hmem => by
      obtain ⟨n, -, rfl, hn⟩ := hon
      exact hn stop hmem (hstops stop hmem)
    obtain ⟨hon', hmade'⟩ := hnext a (hmade a rfl) stops t hfit
    exact ⟨hon.trans hon', hmade'⟩

/-- After a program of which nothing is known. -/
theorem Makes.after {p : Reading β} {next : β → Reader α} (h : ∀ b, (next b).Makes P) :
    (Reader.bind p.run next).Makes P :=
  (makes_run (P := fun _ => True) fun _ _ _ _ => trivial).bind fun b _ => h b

theorem Makes.map (h : read.Makes P) {f : α → β} (hf : ∀ a, P a → Q (f a)) : (read.map f).Makes Q :=
  h.bind fun a ha => makes_done (hf a ha)

theorem Makes.exactly (h : read.Makes P) (what : String) (size : Nat) :
    (read.exactly what size).Makes P := by
  intro stops s hstops
  obtain ⟨hon, hmade⟩ := h ((s.pos + size) :: stops) s
    (List.forall_mem_cons.mpr ⟨Nat.le_add_right _ _, hstops⟩)
  refine ⟨?_, fun a ha => ?_⟩
  · rw [Reader.exactly, leave_snd]
    exact hon.tail
  · obtain ⟨hread, -⟩ := leave_eq_ok_iff.mp (Prod.ext (show (leave what size (s.pos + size)
      (read ((s.pos + size) :: stops) s)).1 = .ok a from ha) rfl)
    exact hmade a (congrArg Prod.fst hread)

theorem Makes.framed {body : Nat → Reader α} {minimum : Nat} (h : ∀ size, (body size).Makes P) :
    (framed what minimum declared body).Makes P :=
  .after fun size => (h size).exactly what size

theorem Makes.counts {things : Nat → Reader α} (h : ∀ count, (things count).Makes P) :
    (counts what things).Makes P :=
  .after fun count => .after fun _ => h count.toNat

theorem Makes.timesFrom (h : read.Makes P) : ∀ (count : Nat) {before : List α},
    (∀ a ∈ before, P a) → (read.timesFrom count before).Makes fun l => ∀ a ∈ l, P a
  | 0, _, hb => makes_done fun a ha => hb a (List.mem_reverse.mp ha)
  | count + 1, _, hb => h.bind fun _ ha =>
    h.timesFrom count (List.forall_mem_cons.mpr ⟨ha, hb⟩)

theorem makes_room : room.Makes fun _ => True :=
  Stays.makes fun stops s => .refl stops s

theorem Makes.untilEndFrom (h : read.Makes P) : ∀ (most : Nat) {before : List α},
    (∀ a ∈ before, P a) → (read.untilEndFrom most before).Makes fun l => ∀ a ∈ l, P a
  | 0, before, hb => makes_done fun a ha => hb a (List.mem_reverse.mp ha)
  | most + 1, before, hb => makes_room.bind fun left _ => by
    have hdone : (done before.reverse).Makes fun l => ∀ a ∈ l, P a :=
      makes_done fun a ha => hb a (List.mem_reverse.mp ha)
    have hitem := h.bind fun a ha => h.untilEndFrom most (List.forall_mem_cons.mpr ⟨ha, hb⟩)
    split
    · exact hdone
    · exact hitem

/-- A map that comes from its entries, which have the property. -/
def Built (P : α → Prop) (m : InsertionMap String α) : Prop :=
  m = .ofList m.toList ∧ ∀ e ∈ m.toList, P e.2

theorem Makes.entriesInto (h : read.Makes P) {key : Reader String} (hkey : key.Stays) :
    ∀ (count : Nat) {l : List (String × α)}, (l.map Prod.fst).Nodup → (∀ e ∈ l, P e.2) →
      (entriesInto what key read count (.ofList l)).Makes (Built P)
  | 0, l, hl, hP => makes_done (by
    rw [Built, InsertionMap.toList_ofList hl]
    exact ⟨rfl, hP⟩)
  | count + 1, l, hl, hP => hkey.makes.bind fun k _ => h.bind fun v hv => by
    by_cases hk : (InsertionMap.ofList l).contains k = true
    · rw [if_pos hk]
      exact makes_fail _
    · rw [if_neg hk, InsertionMap.insert_ofList]
      exact h.entriesInto hkey count (InsertionMap.nodup_keys_concat hl hk v)
        (List.forall_mem_append.mpr ⟨hP, List.forall_mem_singleton.mpr hv⟩)

theorem Makes.counted (h : read.Makes P) (what : String) (declared : Declared) :
    (read.counted what declared).Makes fun l => ∀ a ∈ l, P a :=
  .framed fun _ => .counts fun count => h.timesFrom count (List.forall_mem_nil _)

theorem Makes.sequence (h : read.Makes P) (what : String) (declared : Declared) :
    (read.sequence what declared).Makes fun l => ∀ a ∈ l, P a :=
  .framed fun size => h.untilEndFrom size (List.forall_mem_nil _)

theorem Makes.entries (h : read.Makes P) {key : Reader String} (hkey : key.Stays) (what : String)
    (declared : Declared) : (entries what declared key read).Makes (Built P) :=
  .framed fun _ => .counts fun count =>
    h.entriesInto hkey count (l := []) List.nodup_nil (List.forall_mem_nil _)

end Reader

end TagFormat
