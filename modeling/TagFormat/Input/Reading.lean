import TagFormat.Input.Source

/-!
# Reading

A `Reading α` is a program that reads an `α`: it asks for bytes, goes on with what it gets, and
may work inside a frame, a stretch of declared size that it has to use up exactly. Programs are
data, so what holds of every program is proved by induction on it; `Reading.run` plays one against
a source.

Running out of bytes inside a frame means one of two things. If the frame has nothing left, its
payload runs past the declared size; otherwise the source itself, or a frame further out, came to
its end.
-/

namespace TagFormat

/-- A program that reads an `α`. -/
inductive Reading : Type → Type 1 where
  | done {α : Type} (a : α) : Reading α
  | fail {α : Type} (error : TagError) : Reading α
  /-- Asks for `count` bytes of an item of which `before` bytes have been read. -/
  | take {α : Type} (before count : Nat) (next : Bytes → Reading α) : Reading α
  /-- Asks how many bytes the innermost frame has left; outside of all frames there is none. -/
  | room {α : Type} (next : Option Nat → Reading α) : Reading α
  /-- Reads a `β` in a frame of `size` bytes. -/
  | within {α β : Type} (what : String) (size : Nat) (body : Reading β) (next : β → Reading α) :
      Reading α

namespace Reading

variable {α β : Type}

/-- Goes on with `f` where `p` is done. -/
def bind : Reading α → (α → Reading β) → Reading β
  | .done a, f => f a
  | .fail error, _ => .fail error
  | .take before count next, f => .take before count fun bytes => (next bytes).bind f
  | .room next, f => .room fun left => (next left).bind f
  | .within what size body next, f => .within what size body fun b => (next b).bind f

instance : Monad Reading where
  pure := .done
  bind := bind

/-- A result that is already there. -/
def ofExcept : Except TagError α → Reading α
  | .ok a => .done a
  | .error error => .fail error

/-! ### Running -/

/-- The most of `count` bytes that frames ending at `stops` leave to a reader at `place`. -/
def allowed (stops : List Nat) (place count : Nat) : Nat :=
  stops.foldl (fun n stop => min n (stop - place)) count

/-- Leaves a frame of `size` bytes that ends at `stop`. -/
def leave (what : String) (size stop : Nat) :
    Except TagError α × Source → Except TagError α × Source
  | (.ok a, s) =>
    if s.pos = stop then (.ok a, s)
    else (.error (.format (.trailingBytes what (stop - s.pos))), s)
  | (.error (.unexpectedEnd expected got), s) =>
    if s.pos = stop then (.error (.format (.overrun what size)), s)
    else (.error (.unexpectedEnd expected got), s)
  | (.error error, s) => (.error error, s)

/-- Plays the program against a source, inside frames that end at `stops`, the innermost first.
The source comes back as the program left it, also after an error. -/
def run : {γ : Type} → Reading γ → (stops : List Nat) → Source → Except TagError γ × Source
  | _, .done a, _, s => (.ok a, s)
  | _, .fail error, _, s => (.error error, s)
  | _, .take before count next, stops, s =>
    match s.fill (allowed stops s.pos count) with
    | (_, .failed failure, s) => (.error (.io failure), s)
    | (got, _, s) =>
      if got.length = count then (next got).run stops s
      else (.error (.unexpectedEnd (before + count) (before + got.length)), s)
  | _, .room next, stops, s => (next (stops.head?.map (· - s.pos))).run stops s
  | _, .within what size body next, stops, s =>
    match leave what size (s.pos + size) (body.run ((s.pos + size) :: stops) s) with
    | (.ok b, s) => (next b).run stops s
    | (.error error, s) => (.error error, s)

/-! ### Small programs -/

/-- The next `count` bytes. -/
def block (count : Nat) : Reading Bytes :=
  .take 0 count .done

/-- The next byte. -/
def byte : Reading UInt8 :=
  .take 0 1 fun bytes => .done (bytes.headD 0)

/-- An unsigned number of `width` bytes, most significant first. -/
def number (width : Nat) : Reading Nat :=
  .take 0 width fun bytes => .done (BigEndian.decode bytes)

/-- Reads in a frame of `size` bytes that has to be used up exactly. -/
def exactly (what : String) (size : Nat) (body : Reading α) : Reading α :=
  .within what size body .done

/-- Checks that `count` elements of at least one byte each can still fit into the frame. -/
def ensureFits (what : String) (count : Nat) : Reading Unit :=
  .room fun
    | some left =>
      if left < count then .fail (.format (.countOverrun what count left)) else .done ()
    | none => .done ()

/-- Reads `count` items, before which the items `read` were read, the last one first. -/
def timesFrom (item : Reading α) : (count : Nat) → (read : List α) → Reading (List α)
  | 0, read => .done read.reverse
  | count + 1, read => item.bind fun a => item.timesFrom count (a :: read)

/-- Reads `count` items. -/
def times (item : Reading α) (count : Nat) : Reading (List α) :=
  item.timesFrom count []

/-- Reads items until the frame is used up, `most` of them at most, after the items `read`. -/
def untilEndFrom (item : Reading α) : (most : Nat) → (read : List α) → Reading (List α)
  | 0, read => .done read.reverse
  | most + 1, read => .room fun
    | some 0 => .done read.reverse
    | _ => item.bind fun a => item.untilEndFrom most (a :: read)

/-- Reads items that take at least one byte each until a frame of `size` bytes is used up. -/
def untilEnd (item : Reading α) (size : Nat) : Reading (List α) :=
  item.untilEndFrom size []

end Reading

end TagFormat
