import TagFormat.BigEndian
import TagFormat.Error
import TagFormat.Pace

/-!
# Sources

A source hands over its bytes call by call. `Source.fill` asks until it has what it wants: an
interrupted call is repeated, a short one is followed by another, and it stops where the bytes end
or the source fails.
-/

namespace TagFormat

/-- A source of bytes, at some place. -/
structure Source where
  /-- The bytes still to come. -/
  rest : Bytes
  /-- The number of bytes handed over so far. -/
  pos : Nat := 0
  /-- What a call meets after the last byte; without it, the end of the stream. -/
  failure : Option IoFailure := none
  pace : Pace := .smooth

namespace Source

/-- A source that hands over `bytes` and then ends. -/
def ofBytes (bytes : Bytes) : Source where
  rest := bytes

/-- The source cut off at `place`, where it fails. A place beyond the last byte is never reached. -/
def failingAt (s : Source) (place : Nat) (failure : IoFailure) : Source :=
  if place ≤ s.rest.length then { s with rest := s.rest.take place, failure := some failure } else s

/-- The source after its next `n` bytes. -/
def advance (s : Source) (n : Nat) : Source :=
  { s with rest := s.rest.drop n, pos := s.pos + n }

/-- How one call ends. -/
inductive Delivery where
  | interrupted
  /-- The bytes handed over; none at the end of the stream. -/
  | bytes (got : Bytes)
  | failed (failure : IoFailure)

/-- A call for up to `want` bytes, after `attempt` calls at this place. -/
def call (s : Source) (want attempt : Nat) : Delivery :=
  if attempt < s.pace.interruptions s.pos then .interrupted
  else
    match s.rest, s.failure with
    | [], some failure => .failed failure
    | rest, _ => .bytes (rest.take (s.pace.limit s.pos want))

/-- Calls again as long as the call is interrupted, `tries` times at most. -/
def insist (s : Source) (want : Nat) : (tries attempt : Nat) → Delivery
  | 0, attempt => s.call want attempt
  | tries + 1, attempt =>
    match s.call want attempt with
    | .interrupted => s.insist want tries (attempt + 1)
    | delivery => delivery

/-- The first call that is not interrupted. -/
def deliver (s : Source) (want : Nat) : Delivery :=
  s.insist want (s.pace.interruptions s.pos) 0

/-- Why a source handed over no more. -/
inductive Stop where
  | filled
  | ended
  | failed (failure : IoFailure)
deriving DecidableEq

/-- Asks for `want` bytes in at most `calls` calls that are met. -/
def fillIn : (calls want : Nat) → Source → Bytes × Stop × Source
  | _, 0, s => ([], .filled, s)
  | 0, _, s => ([], .ended, s)
  | calls + 1, want, s =>
    match s.deliver want with
    | .bytes (b :: got) =>
      let n := got.length + 1
      let (more, stop, s) := fillIn calls (want - n) (s.advance n)
      (b :: got ++ more, stop, s)
    | .failed failure => ([], .failed failure, s)
    | _ => ([], .ended, s)

/-- Asks for `want` bytes. A call that is met moves at least one, so `want` calls are enough. -/
def fill (want : Nat) (s : Source) : Bytes × Stop × Source :=
  fillIn want want s

end Source

end TagFormat
