/-! An accumulating interval timer.

Times are readings of a clock in nanoseconds, which the caller supplies. Starting
a running timer and stopping one that stands still are misuses and leave the
timer as it was. -/
namespace Reachability

structure Timer where
  /-- The reading at which the running interval began. -/
  started : Option Nat := none
  sum : Nat := 0
  max : Nat := 0
  /-- How many intervals are complete. -/
  intervals : Nat := 0
deriving DecidableEq

namespace Timer

inductive Misuse where
  | alreadyRunning
  | notRunning
deriving DecidableEq

def Misuse.message : Misuse → String
  | alreadyRunning => "Timer is already running"
  | notRunning => "Timer is not running"

def isRunning (t : Timer) : Bool :=
  t.started.isSome

def start (t : Timer) (now : Nat) : Except Misuse Timer :=
  match t.started with
  | some _ => .error .alreadyRunning
  | none => .ok {t with started := some now}

def stopIfRunning (t : Timer) (now : Nat) : Timer :=
  match t.started with
  | none => t
  | some began =>
    { started := none
      sum := t.sum + (now - began)
      max := Max.max t.max (now - began)
      intervals := t.intervals + 1 }

def stop (t : Timer) (now : Nat) : Except Misuse Timer :=
  match t.started with
  | none => .error .notRunning
  | some _ => .ok (t.stopIfRunning now)

/-- Times what happens between two readings as one interval. -/
def time (t : Timer) (before after : Nat) : Except Misuse Timer := do
  (← t.start before).stop after

/-- The mean interval. The sum is divided by the number of intervals in 32 bits;
there is no answer when intervals were completed but that number is zero. -/
def average? (t : Timer) : Option Nat :=
  if t.intervals = 0 then some 0
  else
    let n := t.intervals % UInt32.size
    if n = 0 then none else some (t.sum / n)

/-- A number of nanoseconds as seconds with three places, to the nearest. -/
def seconds (ns : Nat) : String :=
  let ms := (ns + 500000) / 1000000
  let places := toString (ms % 1000)
  toString (ms / 1000) ++ "." ++ "".pushn '0' (3 - places.length) ++ places ++ "s"

def text (t : Timer) : String :=
  seconds t.sum

@[simp] theorem isRunning_stopIfRunning (t : Timer) (now : Nat) :
    (t.stopIfRunning now).isRunning = false := by
  cases h : t.started <;> simp [stopIfRunning, isRunning, h]

theorem started_stopIfRunning (t : Timer) (now : Nat) : (t.stopIfRunning now).started = none :=
  Option.not_isSome_iff_eq_none.1 (Bool.eq_false_iff.1 (isRunning_stopIfRunning t now))

theorem stopIfRunning_of_idle {t : Timer} (h : t.started = none) (now : Nat) :
    t.stopIfRunning now = t := by
  rw [stopIfRunning, h]

/-- The timer with one more interval. -/
def interval (t : Timer) (time : Nat) : Timer where
  started := none
  sum := t.sum + time
  max := Max.max t.max time
  intervals := t.intervals + 1

theorem stopIfRunning_of_running {t : Timer} {began : Nat} (h : t.started = some began)
    (now : Nat) : t.stopIfRunning now = t.interval (now - began) := by
  rw [stopIfRunning, h, interval]

/-- A timer that stands still can always be used for one interval. -/
theorem time_of_not_running {t : Timer} (h : t.started = none) (before after : Nat) :
    t.time before after = .ok (t.interval (after - before)) := by
  simp [time, start, stop, stopIfRunning, interval, h, bind, Except.bind]

end Timer
end Reachability
