import Reachability.Operator.Adjustment
import Reachability.Reached.Operation
import Reachability.Scenario.Point

/-! Rules of a scripted analysis: for adjusting the precision and for forced
covering. The first rule that matches decides. -/
namespace Reachability.Scenario

inductive RuleEffect where
  | prune
  /-- Replaces what is given, and may request a halt. -/
  | adjust (state : Option Point) (precision : Option Int64) (action : Action)

/-- A rule for adjustment. A condition that is not given always holds. -/
structure AdjustRule where
  loc : Option Int64 := none
  lowFrom : Option Int64 := none
  /-- The least size of the reached set. -/
  sizeFrom : Option Int := none
  precision : Option Int64 := none
  effect : RuleEffect

namespace AdjustRule

def holds (r : AdjustRule) (s : Point) (p : Int64) (size : Nat) : Bool :=
  r.loc.all (· == s.loc) && r.lowFrom.all (· ≤ s.lo) && r.sizeFrom.all (· ≤ (size : Int)) &&
    r.precision.all (· == p)

/-- What the rules make of a successor. Where none matches, it is kept. -/
def adjust (rules : List AdjustRule) (s : Point) (p : Int64) (size : Nat) :
    Option (Adjusted Point Int64) :=
  match (rules.find? fun r => r.holds s p size).map AdjustRule.effect with
  | none => some { state := s, precision := p }
  | some .prune => none
  | some (.adjust state precision action) =>
    some { state := state.getD s, precision := precision.getD p, action }

end AdjustRule

/-- A rule for forced covering. -/
structure CoverRule where
  loc : Option Int64 := none
  /-- Which attempt, counted from one. -/
  nth : Option Nat := none
  covers : Bool
  operations : List (Operation Point Int64) := []

def CoverRule.holds (r : CoverRule) (s : Point) (attempt : Nat) : Bool :=
  r.loc.all (· == s.loc) && r.nth.all (· == attempt)

end Reachability.Scenario
