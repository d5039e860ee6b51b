import TagFormat.BigEndian
import TagFormat.Error
import TagFormat.Pace

/-!
# Sinks

A sink takes bytes call by call. `Sink.push` offers a block until all of it is taken: an
interrupted call is repeated, a short one is followed by another, and it stops where the sink is
full or fails. A `Tally` counts what its sink takes.
-/

namespace TagFormat

/-- A sink for bytes. -/
structure Sink where
  /-- The bytes taken so far. -/
  taken : Bytes := []
  /-- The most bytes that the sink takes in all. -/
  capacity : Option Nat := none
  /-- What a call meets when the sink is full; without it, the sink takes no byte. -/
  failure : Option IoFailure := none
  pace : Pace := .smooth

namespace Sink

/-- How one call ends. -/
inductive Acceptance where
  | interrupted
  /-- The number of bytes taken; none when the sink is full. -/
  | took (count : Nat)
  | failed (failure : IoFailure)

/-- A call that offers `count` bytes, after `attempt` calls at this place. -/
def call (s : Sink) (count attempt : Nat) : Acceptance :=
  if attempt < s.pace.interruptions s.taken.length then .interrupted
  else
    let most := s.pace.limit s.taken.length count
    match s.capacity, s.failure with
    | none, _ => .took most
    | some capacity, failure =>
      match capacity - s.taken.length, failure with
      | 0, some failure => .failed failure
      | room, _ => .took (min most room)

/-- Calls again as long as the call is interrupted, `tries` times at most. -/
def insist (s : Sink) (count : Nat) : (tries attempt : Nat) → Acceptance
  | 0, attempt => s.call count attempt
  | tries + 1, attempt =>
    match s.call count attempt with
    | .interrupted => s.insist count tries (attempt + 1)
    | acceptance => acceptance

/-- The first call that is not interrupted. -/
def offer (s : Sink) (count : Nat) : Acceptance :=
  s.insist count (s.pace.interruptions s.taken.length) 0

/-- The sink after it has taken `bytes`. -/
def take (s : Sink) (bytes : Bytes) : Sink :=
  { s with taken := s.taken ++ bytes }

/-- How pushing a block ended: the number of bytes taken, and the failure that stopped it. -/
structure Push where
  written : Nat
  failure : Option IoFailure := none
deriving DecidableEq

/-- Offers `bytes` in at most `calls` calls that are met, after `written` bytes of the block. -/
def pushIn : (calls : Nat) → Bytes → (written : Nat) → Sink → Push × Sink
  | _, [], written, s => ({ written }, s)
  | 0, _, written, s => ({ written }, s)
  | calls + 1, bytes, written, s =>
    match s.offer bytes.length with
    | .took (count + 1) =>
      pushIn calls (bytes.drop (count + 1)) (written + count + 1) (s.take (bytes.take (count + 1)))
    | .failed failure => ({ written, failure := some failure }, s)
    | _ => ({ written }, s)

/-- Offers a block. A call that is met takes at least one byte, so `bytes.length` calls are
enough. -/
def push (bytes : Bytes) (s : Sink) : Push × Sink :=
  pushIn bytes.length bytes 0 s

/-- The outcome of pushing a block of `size` bytes. -/
def Push.outcome (size : Nat) (p : Push) : Except TagError Unit :=
  match p.failure with
  | some failure => .error (.io failure)
  | none => if p.written = size then .ok () else .error (.shortWrite size p.written)

end Sink

/-- A sink with a count of the bytes it took. -/
structure Tally where
  sink : Sink
  count : Nat := 0

/-- Pushes a block and adds what was taken, all of it or not, to the count. -/
def Tally.push (bytes : Bytes) (t : Tally) : Sink.Push × Tally :=
  let (p, sink) := t.sink.push bytes
  (p, { sink, count := t.count + p.written })

end TagFormat
