import Reachability.Analysis
import Reachability.Journal.Trail
import Reachability.Shutdown

/-! The state of an exploration: the reached set with its journal, what the operators
remember, whether a shutdown was requested, and the statistics. The clock moves on
by the time that operators take; nothing else takes time. -/
namespace Reachability

structure Exploration (ω S P W : Type) [AbstractState S] where
  trail : Trail S P W
  memory : ω
  shutdown : Shutdown := {}
  statistics : Statistics := {}
  clock : Nat := 0

namespace Exploration
variable {ω S P W α : Type} [AbstractState S] [Waitlist W] [BEq S] [BEq P]

def reached (x : Exploration ω S P W) : Reached S P W :=
  x.trail.reached

def note (x : Exploration ω S P W) (e : Event S P) : Exploration ω S P W :=
  {x with trail := x.trail.note e}

def apply (x : Exploration ω S P W) (op : Operation S P) : Exploration ω S P W :=
  {x with trail := x.trail.apply op}

def tally (x : Exploration ω S P W) (f : Statistics → Statistics) : Exploration ω S P W :=
  {x with statistics := f x.statistics}

def start (x : Exploration ω S P W) (p : Phase) : Exploration ω S P W :=
  x.tally fun s => s.start p x.clock

def stop (x : Exploration ω S P W) (p : Phase) : Exploration ω S P W :=
  x.tally fun s => s.stop p x.clock

/-- Does something as one interval of a timer. -/
def timed (x : Exploration ω S P W) (p : Phase)
    (act : Exploration ω S P W → α × Exploration ω S P W) : α × Exploration ω S P W :=
  let (a, x) := act (x.start p)
  (a, x.stop p)

/-- A request for a shutdown is noted only if it is the first. -/
def requestShutdown (x : Exploration ω S P W) (reason : String) : Exploration ω S P W :=
  let (won, shutdown) := x.shutdown.request reason
  let x := {x with shutdown}
  if won then x.note (.shutdownRequested reason) else x

/-- Takes in what an operator replied. -/
def absorb (x : Exploration ω S P W) (r : Reply ω α) : Exploration ω S P W :=
  let x := {x with memory := r.memory, clock := x.clock + r.elapsed}
  match r.request with
  | some reason => x.requestShutdown reason
  | none => x

def ask (x : Exploration ω S P W) (question : Ask ω α) : Except Abort α × Exploration ω S P W :=
  let r := question x.memory
  (r.result, x.absorb r)

/-- Takes the next pair out of the frontier. -/
def pop (x : Exploration ω S P W) : Option Handle × Exploration ω S P W :=
  let (h, reached) := x.reached.pop
  (h, {x with trail := {x.trail with reached}})

/-- Publishes a pair, on the timer for that. -/
def publish (x : Exploration ω S P W) (s : S) (p : P) : Exploration ω S P W :=
  ((x.start .add).apply (.add s p)).stop .add

end Exploration
end Reachability
