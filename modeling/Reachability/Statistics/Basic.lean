import Reachability.Statistics.Timer

/-! What is counted and timed while an analysis runs. Counters and timers go on
over all runs of one analysis. -/
namespace Reachability

/-- What a timer is for. -/
inductive Phase where
  | total
  | choose
  | adjust
  | transfer
  | merge
  | stop
  | add
  | cover
deriving DecidableEq

structure Timers where
  total : Timer := {}
  choose : Timer := {}
  adjust : Timer := {}
  transfer : Timer := {}
  merge : Timer := {}
  stop : Timer := {}
  add : Timer := {}
  cover : Timer := {}

namespace Timers

def get (t : Timers) : Phase → Timer
  | .total => t.total
  | .choose => t.choose
  | .adjust => t.adjust
  | .transfer => t.transfer
  | .merge => t.merge
  | .stop => t.stop
  | .add => t.add
  | .cover => t.cover

def set (t : Timers) (p : Phase) (timer : Timer) : Timers :=
  match p with
  | .total => {t with total := timer}
  | .choose => {t with choose := timer}
  | .adjust => {t with adjust := timer}
  | .transfer => {t with transfer := timer}
  | .merge => {t with merge := timer}
  | .stop => {t with stop := timer}
  | .add => {t with add := timer}
  | .cover => {t with cover := timer}

/-- Stops whatever is running. -/
def stopAll (t : Timers) (now : Nat) : Timers where
  total := t.total.stopIfRunning now
  choose := t.choose.stopIfRunning now
  adjust := t.adjust.stopIfRunning now
  transfer := t.transfer.stopIfRunning now
  merge := t.merge.stopIfRunning now
  stop := t.stop.stopIfRunning now
  add := t.add.stopIfRunning now
  cover := t.cover.stopIfRunning now

theorem get_set (t : Timers) (p q : Phase) (timer : Timer) :
    (t.set p timer).get q = if q = p then timer else t.get q := by
  cases p <;> cases q <;> rfl

theorem get_stopAll (t : Timers) (now : Nat) (p : Phase) :
    (t.stopAll now).get p = (t.get p).stopIfRunning now := by
  cases p <;> rfl

end Timers

structure Statistics where
  timers : Timers := {}
  iterations : Nat := 0
  /-- The size of the waitlist before a pop, at its largest. -/
  maxWaitlist : Nat := 0
  /-- The sizes of the waitlist before each pop, added up. -/
  waitlistTotal : Nat := 0
  successors : Nat := 0
  /-- The most successors computed for one state. -/
  maxSuccessors : Nat := 0
  /-- Reached states replaced by a merge. -/
  merges : Nat := 0
  /-- Successors discarded because they were covered. -/
  stops : Nat := 0
  /-- Requests to halt that were honoured. -/
  halts : Nat := 0
  /-- Requests to halt for a covered successor. They count as stops as well. -/
  coveredHalts : Nat := 0
  /-- Popped states discarded by forced covering. -/
  forced : Nat := 0
  /-- The first misuse of a timer. -/
  misuse : Option Timer.Misuse := none

namespace Statistics

/-- The size of the waitlist before a pop, on average. -/
def averageWaitlist (s : Statistics) : Nat :=
  if s.iterations = 0 then 0 else s.waitlistTotal / s.iterations

def timer (s : Statistics) (p : Phase) : Timer :=
  s.timers.get p

/-- Takes over what became of a timer. -/
def settle (s : Statistics) (p : Phase) : Except Timer.Misuse Timer → Statistics
  | .ok timer => {s with timers := s.timers.set p timer}
  | .error e => {s with misuse := s.misuse <|> some e}

def start (s : Statistics) (p : Phase) (now : Nat) : Statistics :=
  s.settle p ((s.timer p).start now)

def stop (s : Statistics) (p : Phase) (now : Nat) : Statistics :=
  s.settle p ((s.timer p).stop now)

end Statistics
end Reachability
