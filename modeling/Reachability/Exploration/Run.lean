import Reachability.Exploration.Expand

/-! Runs.

A run publishes the seeds and then expands the frontier, one pair an iteration,
until the frontier is empty (a fixpoint), or a successor halts the run, or the run
is abandoned because an operator gave up or a shutdown was requested. A pair whose
expansion was abandoned goes back into the frontier, so that whatever does not wait
has been expanded, and another run resumes the exploration.

A run need not end. `run` is therefore given a number of iterations it may take,
and has no result if it does not end within them. -/
namespace Reachability

namespace Exploration
variable {ω S P W : Type} [AbstractState S] [Waitlist W] [BEq S] [BEq P]

def publishSeeds (x : Exploration ω S P W) : Exploration ω S P W :=
  x.reached.seeds.foldl (fun x (s, p) => x.apply (.add s p)) (x.apply .takeSeeds)

/-- Counts an iteration. The waitlist is measured before the pop. -/
def countIteration (x : Exploration ω S P W) : Exploration ω S P W :=
  let n := x.reached.waitlistSize
  x.tally fun s => {s with
    iterations := s.iterations + 1
    maxWaitlist := max s.maxWaitlist n
    waitlistTotal := s.waitlistTotal + n}

/-- One iteration. It has a result if the run ends with it. -/
def step (a : Analysis ω S P W) (x : Exploration ω S P W) :
    Option (Except Abort Termination) × Exploration ω S P W :=
  if !x.reached.hasWaiting then (some (.ok .exhausted), x)
  else if x.shutdown.requested then (some (.error .interrupted), x)
  else
    match x.countIteration.timed .choose pop with
    | (none, x) => (some (.ok .exhausted), x)
    | (some h, x) =>
      match expand a h (x.note (.retrieved h)) with
      | (.onward, x) => (none, x)
      | (.halt, x) => (some (.ok .halted), x)
      | (.abort e, x) => (some (.error e), x.apply (.enqueue h))

/-- Iterates until the run ends, or `limit` times. -/
def iterate (a : Analysis ω S P W) :
    Nat → Exploration ω S P W → Option (Except Abort Termination) × Exploration ω S P W
  | 0, x => (none, x)
  | limit + 1, x =>
    match step a x with
    | (some result, x) => (some result, x)
    | (none, x) => iterate a limit x

/-- Stops all timers and notes how the run ended. -/
def conclude (result : Except Abort Outcome) (x : Exploration ω S P W) : Exploration ω S P W :=
  let x := x.tally fun s => {s with timers := s.timers.stopAll x.clock}
  match result with
  | .ok o =>
    x.note (.finished o.termination x.statistics.iterations x.reached.size
      x.reached.waitlistSize o.status)
  | .error e => x.note (.aborted e)

/-- A run of at most `limit` iterations. -/
def run (a : Analysis ω S P W) (limit : Nat) (x : Exploration ω S P W) :
    Option (Except Abort Outcome) × Exploration ω S P W :=
  match iterate a limit (x.start .total).publishSeeds with
  | (none, x) => (none, x)
  | (some result, x) =>
    let result := result.map fun t => { status := a.status, termination := t }
    (some result, conclude result x)

end Exploration
end Reachability
