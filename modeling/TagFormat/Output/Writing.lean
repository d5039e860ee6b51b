import TagFormat.Output.Sink

/-!
# Writing

What a writer does does not hang on what the sink says, until it stops. So a `Writing` is a plain
value: the blocks to be written one after another, and the error, if any, that comes after them.
-/

namespace TagFormat

/-- Blocks to be written, and how it ends. -/
structure Writing where
  pieces : List Bytes := []
  /-- The error after the last piece. -/
  failure : Option TagError := none

namespace Writing

/-- One block. -/
def block (bytes : Bytes) : Writing where
  pieces := [bytes]

/-- Nothing but an error. -/
def fail (error : TagError) : Writing where
  failure := some error

/-- One writing after the other; what comes after an error is never written. -/
def append (a b : Writing) : Writing :=
  match a.failure with
  | some _ => a
  | none => { pieces := a.pieces ++ b.pieces, failure := b.failure }

instance : Append Writing := ⟨append⟩

/-- All bytes, up to the error if there is one. -/
def bytes (w : Writing) : Bytes :=
  w.pieces.flatten

/-- The bytes of a writing without an error. -/
def toBytes (w : Writing) : Except TagError Bytes :=
  match w.failure with
  | some error => .error error
  | none => .ok w.bytes

/-- Pushes the pieces one by one, up to the first that is not taken whole. -/
def pushAll : List Bytes → Tally → Except TagError Unit × Tally
  | [], t => (.ok (), t)
  | piece :: pieces, t =>
    let (p, t) := t.push piece
    match p.outcome piece.length with
    | .ok () => pushAll pieces t
    | .error error => (.error error, t)

/-- Writes to a sink and counts what the sink takes. -/
def runCounted (w : Writing) (s : Sink) : Except TagError Unit × Tally :=
  match pushAll w.pieces { sink := s }, w.failure with
  | (.ok (), t), some error => (.error error, t)
  | result, _ => result

/-- Writes to a sink and tells how many bytes the sink took. -/
def writeTo (w : Writing) (s : Sink) : Except TagError Nat × Sink :=
  let (outcome, t) := w.runCounted s
  (outcome.map fun _ => t.count, t.sink)

/-- Writes to a sink. -/
def run (w : Writing) (s : Sink) : Except TagError Unit × Sink :=
  let (outcome, t) := w.runCounted s
  (outcome, t.sink)

end Writing

end TagFormat
