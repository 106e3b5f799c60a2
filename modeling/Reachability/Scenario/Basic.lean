import Reachability.Analysis
import Reachability.Scenario.Call
import Reachability.Scenario.Edge
import Reachability.Scenario.Rule

/-! Scripted analyses: an analysis given as data.

A scenario chooses its operators among a few kinds and gives the edges and rules they
work by. Its operators record the calls made to them, the comparisons and joins of the
domain included. -/
namespace Reachability.Scenario

/-! ### Domains -/

inductive DomainKind where
  | flat
  | interval
  | bits
  /-- Not reflexive, and with a join that is the second argument. -/
  | strict

namespace DomainKind

/-- The first point with an interval that spans both. -/
def span (a b : Point) : Point :=
  {a with lo := min a.lo b.lo, hi := max a.hi b.hi}

def domain : DomainKind → Domain Id Point
  | flat => .ofFunctions (· == ·) span
  | interval => .ofFunctions (fun a b => a.loc == b.loc && b.lo ≤ a.lo && a.hi ≤ b.hi) span
  | bits =>
    .ofFunctions (fun a b => a.lo &&& ~~~b.lo == 0)
      (fun a b => {a with lo := a.lo ||| b.lo, hi := max a.hi b.hi})
  | strict => .ofFunctions (fun a b => a.lo < b.lo) (fun _ b => b)

/-- The domain, recording what it is asked. -/
def recorded (k : DomainKind) : Domain (Ask Memory) Point where
  le a b := do
    Ask.remember fun m => m.record (.le a b)
    k.domain.lift.le a b
  join a b := do
    Ask.remember fun m => m.record (.join a b)
    k.domain.lift.join a b

end DomainKind

/-! ### Operators -/

/-- Ways to merge by a plain function. -/
inductive Folding where
  | reached
  | successor
  | hull
  | retag
  | move
  | const
  | even
  | precision

def Folding.fold : Folding → Point → Point → Int64 → Point
  | reached, _, r, _ => r
  | successor, s, _, _ => s
  | hull, s, r, _ => {s.hull r with tag := "h"}
  | retag, _, r, _ => {r with tag := "r"}
  | move, s, r, _ => {s.hull r with loc := saturatingAdd r.loc 1}
  | const, _, r, _ => { loc := r.loc, lo := 0, hi := 100, tag := "c" }
  | even, s, r, _ => if r.lo % 2 == 0 then s.hull r else r
  | precision, _, r, p => {r with hi := p}

inductive MergeKind where
  | separate
  | join
  | fold (f : Folding)

def MergeKind.merge (d : DomainKind) : MergeKind → Merge Memory Point Int64
  | separate => Merge.separate
  | join => Merge.join d.recorded
  | fold f => Merge.ofFunction f.fold

inductive StopKind where
  | separate
  | join
  | never
  | always

def StopKind.stop (d : DomainKind) : StopKind → Stop Memory Point Int64
  | separate => Stop.separate d.recorded.toComparison
  | join => Stop.join d.recorded
  | never => Stop.never
  | always => Stop.always

inductive AdjustKind where
  | keep
  | haltOnTarget
  | rules
  | rulesHaltOnTarget

end Scenario

open Scenario in
structure Scenario where
  domain : DomainKind := .flat
  merge : MergeKind := .separate
  stop : StopKind := .separate
  adjust : AdjustKind := .keep
  rules : List AdjustRule := []
  edges : List Edge := []
  hooks : List Hook := []
  /-- Forced covering is installed if there is a list, even an empty one. -/
  cover : Option (List CoverRule) := none
  /-- Whether forced covering has something to report. -/
  reportCover : Bool := false
  status : Status := .soundAndPrecise

namespace Scenario
variable {W : Type} [AbstractState Point] [Waitlist W]

def asksTransfer (sc : Scenario) (s : Point) (p : Int64) : Ask Memory (List (Point × Int64)) := do
  enter sc.hooks .transfer s.loc (.transfer s p)
  pure (successors sc.edges s p)

def asksMerge (sc : Scenario) : Merge Memory Point Int64 :=
  let inner := sc.merge.merge sc.domain
  { merge := fun s reached p => do
      enter sc.hooks .merge s.loc (.merge s reached p)
      inner.merge s reached p
    separates := inner.separates }

def asksStop (sc : Scenario) : Stop Memory Point Int64 :=
  fun s reached p => do
    enter sc.hooks .stop s.loc (.stop s reached p)
    sc.stop.stop sc.domain s reached p

def asksRules (sc : Scenario) : Adjustment Memory Point Int64 (Reached Point Int64 W) :=
  fun s p reached => do
    enter sc.hooks .adjust s.loc (.adjust s p reached.size)
    pure (AdjustRule.adjust sc.rules s p reached.size)

def asksAdjust (sc : Scenario) : Adjustment Memory Point Int64 (Reached Point Int64 W) :=
  match sc.adjust with
  | .keep => Adjustment.keep
  | .haltOnTarget => Adjustment.haltOnTarget Adjustment.keep
  | .rules => sc.asksRules
  | .rulesHaltOnTarget => Adjustment.haltOnTarget sc.asksRules

/-- An attempt at forced covering: once entered, the first rule that matches performs
its operations and decides. -/
def attempt (sc : Scenario) (rules : List CoverRule) (s : Point) (p : Int64)
    (reached : Reached Point Int64 W) (m : Memory) : Attempt Memory Point Int64 :=
  let entered := enter sc.hooks .force s.loc (.force s p reached.size) m
  match entered.result with
  | .error e => { reply := {entered with result := .error e} }
  | .ok () =>
    match rules.find? fun r => r.holds s entered.memory.counts.force with
    | some r => { reply := {entered with result := .ok r.covers}, operations := r.operations }
    | none => { reply := {entered with result := .ok false} }

def covering (sc : Scenario) (rules : List CoverRule) :
    Covering Memory Point Int64 (Reached Point Int64 W) where
  attempt := sc.attempt rules
  blocks m :=
    if sc.reportCover then [⟨"forced", "Attempts: " ++ toString m.counts.force⟩] else []

def analysis (sc : Scenario) : Analysis Memory Point Int64 W where
  transfer := sc.asksTransfer
  merge := sc.asksMerge
  stop := sc.asksStop
  adjust := sc.asksAdjust
  cover := sc.cover.map sc.covering
  status := sc.status

end Scenario
end Reachability
