import Reachability.Abort
import Reachability.Handle
import Reachability.Status

/-! What is worth noting while an analysis runs, how grave it is, and its wording. -/
namespace Reachability

inductive Level where
  | warning
  | info
  | debug
  | trace
deriving DecidableEq

namespace Level

/-- How much one has to want to know to be told. -/
def detail : Level → Nat
  | warning => 1
  | info => 2
  | debug => 3
  | trace => 4

def text : Level → String
  | warning => "WARN"
  | info => "INFO"
  | debug => "DEBUG"
  | trace => "TRACE"

end Level

inductive Event (S P : Type) where
  | published (h : Handle)
  | removed (h : Handle)
  | shutdownRequested (reason : String)
  | retrieved (h : Handle)
  | expanding (s : S) (p : P)
  | forciblyCovered (h : Handle)
  | succeeded (h : Handle) (count : Nat)
  | successor (source target : S)
  | pruned
  | haltIgnored
  | halting
  | considering (candidates : Nat)
  | mergedWith (h : Handle)
  | merged (s old result : S)
  | covered
  | uncovered
  | finished (termination : Termination) (iterations reached waiting : Nat) (status : Status)
  | aborted (e : Abort)

namespace Event
variable {S P : Type}

def level : Event S P → Level
  | published _ | removed _ | expanding _ _ | successor _ _ | merged _ _ _ => .trace
  | shutdownRequested _ | retrieved _ | forciblyCovered _ | succeeded _ _ | pruned | haltIgnored
  | halting | considering _ | mergedWith _ | covered | uncovered => .debug
  | finished _ _ _ _ _ => .info
  | aborted _ => .warning

def text [ToString S] [ToString P] : Event S P → String
  | published h => s!"Published {h}"
  | removed h => s!"Removed {h}"
  | shutdownRequested reason => s!"Shutdown requested: {reason}"
  | retrieved h => s!"Retrieved {h} from waitlist"
  | expanding s p => s!"Current state is {s} with precision {p}"
  | forciblyCovered h => s!"{h} was covered by forced covering"
  | succeeded h count => s!"{h} has {count} successors"
  | successor source target => s!"Successor of {source} is {target}"
  | pruned => "Successor pruned by precision adjustment"
  | haltIgnored => "Break was signalled but ignored because the state is covered"
  | halting => "Break signalled, CPA algorithm will stop"
  | considering n => s!"Considering {n} states from reached set for merge"
  | mergedWith h => s!"Successor was merged with state {h} from reached set"
  | merged s old result => s!"Merged {s} and {old} into {result}"
  | covered => "Successor is covered or unreachable, not adding to waitlist"
  | uncovered => "No need to stop, adding successor to waitlist"
  | finished termination iterations reached waiting status =>
    s!"CPA algorithm {termination.text} after {iterations} iterations: " ++
      s!"{reached} states reached, {waiting} waiting, {status.text}"
  | aborted e => s!"CPA algorithm aborted: {e.message}"

/-- The wording behind the level. -/
def line [ToString S] [ToString P] (e : Event S P) : String :=
  e.level.text ++ " " ++ e.text

end Event
end Reachability
