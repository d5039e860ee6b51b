/-!
# The pace of a stream

A stream moves bytes in calls, and a call may be interrupted or move less than it was asked to.
A `Pace` fixes both by place: since every call that is not interrupted moves at least one byte, or
meets the end, each place is met by one such call at most, and any course of calls has its pace.
-/

namespace TagFormat

/-- How a stream meets its calls. -/
structure Pace where
  /-- How many calls at a place are interrupted before one is met. -/
  interruptions : Nat → Nat := fun _ => 0
  /-- One less than the most bytes that a call at a place moves; without it there is no limit. -/
  chunk : Nat → Option Nat := fun _ => none

namespace Pace

/-- Every call is met in full. -/
def smooth : Pace := {}

/-- The same at every place: `chunk` bytes a call at most, and every other call interrupted. -/
def steady (chunk : Option Nat) (interrupted : Bool) : Pace where
  interruptions _ := if interrupted then 1 else 0
  chunk _ := chunk.map (· - 1)

/-- The number of bytes that a call for `want` of them at `place` may move. -/
def limit (pace : Pace) (place want : Nat) : Nat :=
  match pace.chunk place with
  | none => want
  | some chunk => min want (chunk + 1)

end Pace

end TagFormat
