import TagFormat.Proofs.Registry.Depth
import TagFormat.Proofs.Tag.Overwriting

/-! # The counter of a thread

How deep tags are nested is not counted in the programs that read them but on the thread that they
run on: whoever reads a tag, or a text that is a tag of its own, enters a level, is refused where
the limit of its registry has been reached, and leaves the level again whatever came of it. The
counter belongs to the thread and to no registry, so it would be the worse for every level that is
not left.

Here the readers run with such a counter (`Thread.readTag`), along the accounts of where they call
for the level below. With any number of levels entered they come to what the programs come to that
have so many levels less, and leave the counter as they found it (`Thread.follows_readTag`,
`Thread.follows_readInto`). -/

namespace TagFormat

open Reading

/-- What runs on a thread: inside of frames that end at `stops`, with so many levels entered, and
against a source, it comes to an outcome and leaves a counter and a source behind. -/
def Thread (α : Type) : Type :=
  (stops : List Nat) → (entered : Nat) → Source → Except TagError α × Nat × Source

/-! ### Running with a counter -/

namespace Thread

variable {α β : Type}

/-- A program that does not look at the counter. -/
def plain (p : Reading α) : Thread α := fun stops entered s =>
  ((p.run stops s).1, entered, (p.run stops s).2)

/-- Enters a level, if the limit has not been reached, and leaves it in the end. -/
def enter (limit : Nat) (body : Thread α) : Thread α := fun stops entered s =>
  if limit < entered + 1 then (.error (.format (.tooDeep limit)), entered, s)
  else
    match body stops (entered + 1) s with
    | (o, entered, s) => (o, entered - 1, s)

/-- One after the other; an error ends it. -/
def bind (first : Thread α) (next : α → Thread β) : Thread β := fun stops entered s =>
  match first stops entered s with
  | (.ok a, entered, s) => next a stops entered s
  | (.error error, entered, s) => (.error error, entered, s)

/-- Asks how many bytes the innermost frame has left. -/
def room (next : Option Nat → Thread α) : Thread α := fun stops entered s =>
  next (stops.head?.map (· - s.pos)) stops entered s

/-- Runs in a frame. The counter passes through it. -/
def exactly (what : String) (size : Nat) (body : Thread α) : Thread α := fun stops entered s =>
  match body ((s.pos + size) :: stops) entered s with
  | (o, entered, t) =>
    ((leave what size (s.pos + size) (o, t)).1, entered, (leave what size (s.pos + size) (o, t)).2)

end Thread

/-- Runs a reader on a thread, with the given readers of the level below. -/
def Calls.onThread (tag : Thread Tag) (string : Thread String) :
    {α : Type} → {f : Inner → Reading α} → Calls f → Thread α
  | _, _, .none p => .plain p
  | _, _, .tag => tag
  | _, _, .string => string
  | _, _, .bind first next => .bind (first.onThread tag string) fun a =>
    (next a).onThread tag string
  | _, _, .room next => .room fun left => (next left).onThread tag string
  | _, _, .exactly what size body => .exactly what size (body.onThread tag string)

namespace Thread

variable {α β : Type} (r : Registry) (beyond : Thread Tag)

/-- Reads text in a tag of its own, which calls for nothing further down. -/
def readString : Thread String :=
  enter r.levels (plain (r.readString 1))

/-- Reads a tag, with no more than `fuel` tags under way at a time; what `beyond` does would happen
with more. -/
def readTag : (fuel : Nat) → Thread Tag
  | 0 => beyond
  | fuel + 1 => enter r.levels (r.levelCalls.onThread (readTag fuel) (readString r))

/-- Reads a tag of the id and the kind that `target` has. -/
def readInto (target : Tag) (fuel : Nat) : Thread Tag :=
  enter r.levels (((Calls.none (Registry.expectId target.id)).bind fun _ =>
    r.bodyCalls target.id target.payload.kind).onThread (readTag r beyond fuel) (readString r))

/-! ### The counter is left as it was -/

/-- With so many levels entered, the reader comes to what the program comes to, and leaves the
counter as it was. -/
def Follows (act : Thread α) (entered : Nat) (p : Reading α) : Prop :=
  ∀ stops s, act stops entered s = ((p.run stops s).1, entered, (p.run stops s).2)

variable {r beyond} {entered : Nat}

theorem Follows.bind {first : Thread α} {next : α → Thread β} {p : Reading α} {q : α → Reading β}
    (h : first.Follows entered p) (hn : ∀ a, (next a).Follows entered (q a)) :
    (first.bind next).Follows entered (p.bind q) := by
  intro stops s
  rw [Thread.bind, h stops s, run_bind]
  rcases p.run stops s with ⟨error | a, t⟩
  · rfl
  · exact hn a stops t

theorem Follows.room {next : Option Nat → Thread α} {q : Option Nat → Reading α}
    (hn : ∀ left, (next left).Follows entered (q left)) :
    (room next).Follows entered (.room q) := by
  intro stops s
  rw [Thread.room, run]
  exact hn _ stops s

theorem Follows.exactly {body : Thread α} {p : Reading α} (h : body.Follows entered p)
    (what : String) (size : Nat) :
    (exactly what size body).Follows entered (.exactly what size p) := by
  intro stops s
  rw [Thread.exactly, h _ s, run_exactly]

/-- Where a level is left, it is entered for the body and left behind it. -/
theorem Follows.enter {limit : Nat} {body : Thread α} {p : Reading α}
    (hlimit : entered + 1 ≤ limit) (h : body.Follows (entered + 1) p) :
    (enter limit body).Follows entered p := by
  intro stops s
  rw [Thread.enter, if_neg (by omega), h stops s]
  rfl

/-- Where no level is left, nothing of the body happens. -/
theorem follows_enter_refused (hlimit : r.levels < entered + 1) (body : Thread α) :
    (enter r.levels body).Follows entered r.refuseDepth := by
  intro stops s
  rw [enter, if_pos hlimit]
  rfl

/-- A reader follows its program if the readers of the level below do. -/
theorem follows_onThread {f : Inner → Reading α} (h : Calls f) {tag : Thread Tag}
    {string : Thread String} {inner : Inner} (ht : tag.Follows entered inner.tag)
    (hs : string.Follows entered inner.string) :
    (h.onThread tag string).Follows entered (f inner) := by
  induction h with
  | none p => exact fun _ _ => rfl
  | tag => exact ht
  | string => exact hs
  | bind first next ih ihn => exact ih.bind ihn
  | room next ih => exact Follows.room ih
  | exactly what size body ih => exact ih.exactly what size

/-- Texts are read with the levels that are left. -/
theorem follows_readString (entered : Nat) :
    (readString r).Follows entered (r.readString (r.levels - entered)) := by
  rcases Nat.lt_or_ge r.levels (entered + 1) with hlt | hle
  · have hzero : r.levels - entered = 0 := by omega
    rw [hzero]
    exact follows_enter_refused hlt _
  · obtain ⟨depth, hd⟩ := Nat.exists_eq_succ_of_ne_zero (show r.levels - entered ≠ 0 by omega)
    have hstring : r.readString (r.levels - entered) = r.readString 1 := by
      rw [hd]
      rfl
    rw [hstring]
    exact Follows.enter hle fun _ _ => rfl

/-- **Tags are read with the levels that are left**, and the counter is left as it was. The fuel,
which is more than the levels, does not run out. -/
theorem follows_readTag : ∀ {fuel entered : Nat}, r.levels ≤ fuel + entered →
    (readTag r beyond (fuel + 1)).Follows entered (r.readTag (r.levels - entered))
  | fuel, entered, hfuel => by
    rcases Nat.lt_or_ge r.levels (entered + 1) with hlt | hle
    · have hzero : r.levels - entered = 0 := by omega
      rw [hzero]
      exact follows_enter_refused hlt _
    · have hsucc : r.levels - entered = r.levels - (entered + 1) + 1 := by omega
      obtain ⟨fuel, rfl⟩ := Nat.exists_eq_succ_of_ne_zero (show fuel ≠ 0 by omega)
      have hlevels : r.levels ≤ fuel + (entered + 1) := by omega
      have htag := follows_readTag hlevels
      rw [hsucc, Registry.readTag_succ]
      exact Follows.enter hle (follows_onThread r.levelCalls htag
        (follows_readString (entered + 1)))

/-- The program that reads a tag into a target, with so many levels left. -/
def intoProgram (r : Registry) (target : Tag) : (depth : Nat) → Reading Tag
  | 0 => r.refuseDepth
  | depth + 1 => (Registry.expectId target.id).bind fun _ =>
    r.readBody (r.inner depth) target.id target.payload.kind

/-- With all levels left it is the program of the registry. -/
theorem readInto_eq_intoProgram (r : Registry) (target : Tag) :
    r.readInto target = intoProgram r target r.levels := by
  unfold Registry.readInto
  simp only [Payload.readOver_eq]
  cases r.levels <;> rfl

theorem follows_readInto (target : Tag) {fuel : Nat} (hfuel : r.levels ≤ fuel + entered) :
    (readInto r beyond target (fuel + 1)).Follows entered
      (intoProgram r target (r.levels - entered)) := by
  rcases Nat.lt_or_ge r.levels (entered + 1) with hlt | hle
  · have hzero : r.levels - entered = 0 := by omega
    rw [hzero]
    exact follows_enter_refused hlt _
  · have hsucc : r.levels - entered = r.levels - (entered + 1) + 1 := by omega
    have hlevels : r.levels ≤ fuel + (entered + 1) := by omega
    rw [hsucc, intoProgram]
    exact Follows.enter hle (follows_onThread _ (follows_readTag hlevels)
      (follows_readString (entered + 1)))

/-! ### One after the other on one thread -/

/-- What a thread is asked for: to read a tag, or to read one into a target. -/
inductive Request where
  | read (r : Registry) (stops : List Nat) (s : Source)
  | readInto (r : Registry) (target : Tag) (stops : List Nat) (s : Source)

/-- Answers a request. -/
def Request.run (beyond : Thread Tag) : Request → (entered : Nat) →
    Except TagError Tag × Nat × Source
  | read r stops s, entered => readTag r beyond (r.levels + 1) stops entered s
  | readInto r target stops s, entered =>
    Thread.readInto r beyond target (r.levels + 1) stops entered s

/-- The counter after some requests. -/
def after (beyond : Thread Tag) (requests : List Request) (entered : Nat) : Nat :=
  requests.foldl (fun entered q => (q.run beyond entered).2.1) entered

/-- The tag that the bytes spell, all of them, and the counter. -/
def parse (r : Registry) (beyond : Thread Tag) (bytes : Bytes) (entered : Nat) :
    Except TagError Tag × Nat :=
  match readTag r beyond (r.levels + 1) [] entered (.ofBytes bytes) with
  | (.error error, entered, _) => (.error error, entered)
  | (.ok t, entered, s) =>
    (if s.rest.isEmpty then .ok t
      else .error (.format (.trailingBytes "tag buffer" s.rest.length)), entered)

/-- A request for a tag is answered with the levels that are left, and leaves the counter. -/
theorem Request.run_read (r : Registry) (stops : List Nat) (s : Source) (entered : Nat) :
    (Request.read r stops s).run beyond entered =
      (((r.readTag (r.levels - entered)).run stops s).1, entered,
        ((r.readTag (r.levels - entered)).run stops s).2) := by
  have hlevels : r.levels ≤ r.levels + entered := by omega
  exact follows_readTag hlevels stops s

theorem Request.run_readInto (r : Registry) (target : Tag) (stops : List Nat) (s : Source)
    (entered : Nat) : (Request.readInto r target stops s).run beyond entered =
      (((intoProgram r target (r.levels - entered)).run stops s).1, entered,
        ((intoProgram r target (r.levels - entered)).run stops s).2) := by
  have hlevels : r.levels ≤ r.levels + entered := by omega
  exact follows_readInto target hlevels stops s

/-- **Whatever comes of a request**, it leaves the counter as it was. -/
theorem counter_run (q : Request) (entered : Nat) : (q.run beyond entered).2.1 = entered := by
  cases q with
  | read r stops s => rw [Request.run_read]
  | readInto r target stops s => rw [Request.run_readInto]

theorem after_eq (requests : List Request) (entered : Nat) :
    after beyond requests entered = entered := by
  induction requests with
  | nil => rfl
  | cons q requests ih =>
    unfold after at ih ⊢
    rw [List.foldl_cons, counter_run, ih]

/-- Where no level is entered, bytes are parsed as the registry parses them. -/
theorem parse_zero (bytes : Bytes) : parse r beyond bytes 0 = (r.parse bytes, 0) := by
  have hlevels : r.levels ≤ r.levels + 0 := by omega
  rw [parse, follows_readTag hlevels, Registry.parse, Registry.parseWith, Registry.read,
    Nat.sub_zero]
  rcases (r.readTag r.levels).run [] (.ofBytes bytes) with ⟨error | t, s⟩ <;> rfl

variable {t : Tag}

/-- **The limit on depth is exact**, for tags of which everything else suits the registry: the bytes
of such a tag are parsed as the tag if it is no deeper than the limit, and refused with the limit,
and with nothing else, if it is. So it is on every thread, whatever was asked of it before, of which
registries and with what result: each request leaves the counter as it found it, however many levels
had been entered, and is answered as its registry reads with the levels that are left. -/
theorem parse_after (h : ∀ u : Tag, u.Inside t → r.Suits u) (beyond : Thread Tag) :
    (∃ bytes, t.toBytes = .ok bytes ∧ ∀ earlier,
      parse r beyond bytes (after beyond earlier 0) = (r.parse bytes, 0) ∧
      r.parse bytes =
        if t.depth ≤ r.levels then .ok t.compact else .error (.format (.tooDeep r.levels))) ∧
    (∀ (q : Request) (entered : Nat), (q.run beyond entered).2.1 = entered) ∧
    (∀ (r : Registry) (stops : List Nat) (s : Source) (entered : Nat),
      (Request.read r stops s).run beyond entered =
        (((r.readTag (r.levels - entered)).run stops s).1, entered,
          ((r.readTag (r.levels - entered)).run stops s).2)) ∧
    ∀ (r : Registry) (target : Tag), r.readInto target = intoProgram r target r.levels ∧
      ∀ (stops : List Nat) (s : Source) (entered : Nat),
        (Request.readInto r target stops s).run beyond entered =
          (((intoProgram r target (r.levels - entered)).run stops s).1, entered,
            ((intoProgram r target (r.levels - entered)).run stops s).2) := by
  obtain ⟨hf, -⟩ := Registry.spells_writing h
  refine ⟨⟨t.writing.bytes, ?_, fun earlier => ⟨?_, Registry.parse_writing h⟩⟩, counter_run,
    Request.run_read, fun r target => ⟨?_, Request.run_readInto r target⟩⟩
  · rw [Tag.toBytes, Writing.toBytes, hf]
  · rw [after_eq, parse_zero]
  · exact readInto_eq_intoProgram r target

/-- An array in an array, after a request that failed inside the inner one, for registries that
grant two levels and one. What is beyond the fuel would not leave the level that it enters. -/
theorem parse_after_arrays :
    let beyond : Thread Tag := fun _ entered s => (.error (.unsupportedId 0), entered + 1, s)
    let t : Tag := .mk 21 (.tagArray [.mk 21 (.tagArray [])])
    let earlier := [Request.read {} [] (.ofBytes [21, 4, 1, 21, 9])]
    t.toBytes = .ok [21, 4, 1, 21, 1, 0] ∧
    parse { settings := { maxDepth := 2 } } beyond [21, 4, 1, 21, 1, 0] (after beyond earlier 0) =
      (.ok t, 0) ∧
    parse { settings := { maxDepth := 1 } } beyond [21, 4, 1, 21, 1, 0] (after beyond earlier 0) =
      (.error (.format (.tooDeep 1)), 0) := by
  intro beyond t earlier
  have hbytes : t.toBytes = .ok [21, 4, 1, 21, 1, 0] := by cbv
  have hsuits : ∀ maxDepth : UInt32, ∀ u : Tag, u.Inside t →
      Registry.Suits { settings := { maxDepth } } u := fun maxDepth =>
    Tag.forall_inside_iff.mpr ⟨⟨rfl, fun _ => by cbv, trivial, trivial, trivial⟩,
      List.forall_mem_singleton.mpr (Tag.forall_inside_iff.mpr
        ⟨⟨rfl, fun _ => by cbv, trivial, trivial, trivial⟩, List.forall_mem_nil _⟩)⟩
  obtain ⟨⟨_, hb, htwo⟩, -⟩ := parse_after (hsuits 2) beyond
  obtain ⟨_, hb', hone⟩ := (parse_after (hsuits 1) beyond).1
  obtain rfl := Except.ok.inj (hb.symm.trans hbytes)
  obtain rfl := Except.ok.inj (hb'.symm.trans hbytes)
  obtain ⟨hread, hokay⟩ := htwo earlier
  obtain ⟨hread', hdeep⟩ := hone earlier
  have hcompact : t.compact = t := by cbv
  rw [if_pos (by cbv), hcompact] at hokay
  rw [if_neg (by cbv)] at hdeep
  rw [hokay] at hread
  rw [hdeep] at hread'
  exact ⟨hbytes, hread, hread'⟩

end Thread

end TagFormat
