import TagFormat.Scalar.Basic

/-!
# Scripts

A script is a list of steps that read items, open frames and ask about them. Running one keeps a
log, which tells what was read also when a step fails. The writing counterpart is a list of orders
to a tally.
-/

namespace TagFormat.Scalar

/-- A step of a script. -/
inductive Step where
  | item (kind : Kind)
  /-- Runs steps in a frame. -/
  | frame (size : Nat) (what : String) (steps : List Step)
  /-- Asks how many bytes the frame has left. -/
  | room
  /-- Asks whether `count` elements can still fit into the frame. -/
  | fits (count : Nat) (what : String)

/-- What a step leaves in the log. -/
inductive Entry where
  | item (value : Scalar)
  | opened (size : Nat)
  | closed
  | room (left : Nat)
  | fits
deriving DecidableEq, Repr

/-- How a run of steps ended. -/
structure Run where
  log : List Entry
  outcome : Except TagError Unit
  source : Source

mutual

/-- Runs one step. -/
def Step.run (stops : List Nat) (s : Source) : Step → Run
  | .item kind =>
    match kind.read.run stops s with
    | (.ok value, s) => { log := [.item value], outcome := .ok (), source := s }
    | (.error error, s) => { log := [], outcome := .error error, source := s }
  | .frame size what steps =>
    let stop := s.pos + size
    let body := Step.runAll (stop :: stops) s steps
    match Reading.leave what size stop (body.outcome, body.source) with
    | (.ok _, s) => { log := .opened size :: body.log ++ [.closed], outcome := .ok (), source := s }
    | (.error error, s) =>
      { log := .opened size :: body.log, outcome := .error error, source := s }
  | .room =>
    { log := [.room ((stops.head?.map (· - s.pos)).getD 0)], outcome := .ok (), source := s }
  | .fits count what =>
    match (Reading.ensureFits what count).run stops s with
    | (.ok _, s) => { log := [.fits], outcome := .ok (), source := s }
    | (.error error, s) => { log := [], outcome := .error error, source := s }

/-- Runs steps up to the first that fails. -/
def Step.runAll (stops : List Nat) (s : Source) : List Step → Run
  | [] => { log := [], outcome := .ok (), source := s }
  | step :: steps =>
    let first := step.run stops s
    match first.outcome with
    | .error _ => first
    | .ok _ =>
      let others := Step.runAll stops first.source steps
      { others with log := first.log ++ others.log }

end

/-- An order to a tally. -/
inductive Order where
  | push (item : Scalar)
  /-- Asks the sink to pass on what it took, of which nothing can be seen here. -/
  | flush

/-- The block that an order pushes. -/
def Order.block : Order → Bytes
  | .push item => item.encode
  | .flush => []

/-- The counts after each order, up to and with the first that fails, and how it ended. -/
def Order.runAll : List Order → Tally → List Nat × Except TagError Unit × Tally
  | [], t => ([], .ok (), t)
  | order :: orders, t =>
    let (p, t) := t.push order.block
    match p.outcome order.block.length with
    | .error error => ([t.count], .error error, t)
    | .ok _ =>
      let (counts, outcome, last) := runAll orders t
      (t.count :: counts, outcome, last)

end TagFormat.Scalar
