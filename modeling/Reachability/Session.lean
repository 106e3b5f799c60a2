import Reachability.Exploration.Run
import Reachability.Reached.Describe
import Reachability.Scenario.Basic

/-! Sessions: scripted analyses run on one reached set, step by step.

A session has one reached set, one shutdown switch and at most one installed analysis.
Between runs the reached set can be operated on directly. -/
namespace Reachability

open Scenario (Point Memory)

/-- An installed analysis with what it remembers and has counted so far. -/
structure Installed where
  scenario : Scenario
  memory : Memory
  statistics : Statistics := {}

structure Session (W : Type) [AbstractState Point] where
  trail : Trail Point Int64 W
  shutdown : Shutdown := {}
  installed : Option Installed := none

namespace Session

inductive Step where
  | operate (op : Operation Point Int64)
  | describe
  /-- Installs an analysis with its fuel; `fresh` replaces the shutdown switch first. -/
  | install (scenario : Scenario) (fuel : Nat) (fresh : Bool)
  | shutdown (reason : String)
  | run
  | statistics
  | report

inductive Result where
  | answer (a : Answer Point Int64)
  | description (record : Text.Record)
  | installed (status : Status)
  | requested (won : Bool) (reason : Option String)
  | ended (outcome : Outcome)
  | abandoned (e : Abort) (shutdown : Shutdown)
  /-- The run did not end within its limit. -/
  | unfinished
  | statistics (s : Statistics)
  | report (blocks : List Block)
  | noAnalysis

variable {W : Type} [AbstractState Point] [Waitlist W]

/-- Runs the installed analysis. Each iteration spends fuel or ends the run, so the
fuel bounds the number of iterations. -/
def runInstalled (i : Installed) (s : Session W) : Result × Session W :=
  let x : Exploration Memory Point Int64 W :=
    { trail := s.trail, memory := i.memory, shutdown := s.shutdown, statistics := i.statistics }
  let (result, x) := x.run i.scenario.analysis (i.memory.fuel + 2)
  let s : Session W :=
    { trail := x.trail
      shutdown := x.shutdown
      installed := some {i with memory := x.memory, statistics := x.statistics} }
  match result with
  | some (.ok o) => (.ended o, s)
  | some (.error e) => (.abandoned e s.shutdown, s)
  | none => (.unfinished, s)

/-- Requests a shutdown from outside of any run. -/
def requestShutdown (reason : String) (s : Session W) : Result × Session W :=
  let (won, shutdown) := s.shutdown.request reason
  let trail := if won then s.trail.note (.shutdownRequested reason) else s.trail
  (.requested won shutdown.reason, {s with shutdown, trail})

def report (i : Installed) : List Block :=
  let a : Analysis Memory Point Int64 W := i.scenario.analysis
  ((a.cover.map fun c => c.blocks i.memory).getD []) ++ [i.statistics.block]

def perform (s : Session W) : Step → Result × Session W
  | .operate op => let (a, trail) := s.trail.perform op; (.answer a, {s with trail})
  | .describe => (.description s.trail.reached.describe, s)
  | .install scenario fuel fresh =>
    (.installed scenario.status, {s with
      shutdown := if fresh then {} else s.shutdown
      installed := some { scenario, memory := { fuel } }})
  | .shutdown reason => s.requestShutdown reason
  | .run =>
    match s.installed with
    | some i => s.runInstalled i
    | none => (.noAnalysis, s)
  | .statistics =>
    match s.installed with
    | some i => (.statistics i.statistics, s)
    | none => (.noAnalysis, s)
  | .report =>
    match s.installed with
    | some i => (.report (report (W := W) i), s)
    | none => (.noAnalysis, s)

/-- The calls recorded since they were last forgotten. -/
def calls (s : Session W) : List Scenario.Call :=
  match s.installed with
  | some i => i.memory.calls.toList
  | none => []

/-- Forgets the calls recorded and the events noted so far. -/
def turnPage (s : Session W) : Session W :=
  {s with
    trail := {s.trail with journal := s.trail.journal.blank}
    installed := s.installed.map fun i => {i with memory := {i.memory with calls := #[]}}}

end Session
end Reachability
