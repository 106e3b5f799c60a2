import Reachability.Counter.Options
import Reachability.Counter.Program
import Reachability.Exploration.Run

/-! Running the counting demonstration and saying what came of it. -/
namespace Reachability.Counter

abbrev State :=
  Exploration Unit Interval Unit Frontier

/-- The seed: the start of the program, where `x` is zero. -/
def seed : Interval := ⟨.start, 0, 0⟩

def initial (o : Options) : State where
  trail :=
    { reached := (Reached.ofOrder o.order).addInitial seed ()
      journal := { threshold := some .info } }
  memory := ()

/-- More iterations than there are states to expand: each value up to the bound is
reached at most once in the loop. -/
def limit (o : Options) : Nat :=
  3 * o.bound.toInt.toNat + 10

def explore (o : Options) : Option (Except Abort Outcome) × State :=
  (initial o).run (analysis ⟨o.bound, o.error⟩ o.join !o.allErrors) (limit o)

/-- By location, then by lower end. -/
def before (a b : Interval) : Bool :=
  a.loc.number < b.loc.number || (a.loc == b.loc && a.lo ≤ b.lo)

def stateLine (s : Interval) : String :=
  "  " ++ s.text ++ (if AbstractState.isTarget s then " <- error" else "")

/-- What is printed once the run has ended, piece by piece. -/
def findings (outcome : Outcome) (x : State) : List String :=
  ["outcome = " ++ outcome.termination.text ++ " (" ++ outcome.status.text ++ ")"] ++
  (x.reached.states.mergeSort before).map stateLine ++
  (if outcome.isHalted then [toString x.reached.waitlistSize ++ " states still waiting"] else []) ++
  ["", x.statistics.block.name ++ ":\n" ++ x.statistics.block.text]

/-- What the demonstration has to say: what it was asked to do, what was noted on the
way, and what it found. Nothing was found if the run was abandoned. -/
structure Report where
  arguments : String
  log : List (Event Interval Unit)
  findings : Except (Option Abort) (List String)

def report (o : Options) : Report :=
  let (result, x) := explore o
  { arguments := "args = " ++ o.describe
    log := x.trail.journal.events.toList
    findings :=
      match result with
      | some (.ok outcome) => .ok (findings outcome x)
      | some (.error e) => .error (some e)
      | none => .error none }

end Reachability.Counter
