import Reachability.Operator.Adjustment
import Reachability.Operator.Merge
import Reachability.Operator.Stop
import Reachability.Reached.Operation
import Reachability.Statistics.Report
import Reachability.Status

/-! An analysis is the bundle of operators that an exploration asks.

The transfer relation computes the successors of a state. Forced covering, if there
is one, is asked before a state is expanded: it may cover the state by rearranging
the reached set, which it does by naming operations. -/
namespace Reachability

/-- What forced covering answers, and the operations it performs on the way. The
operations are performed even if it gives up. -/
structure Attempt (ω S P : Type) where
  reply : Reply ω Bool
  operations : List (Operation S P) := []

structure Covering (ω S P R : Type) where
  attempt : S → P → R → ω → Attempt ω S P
  /-- What it contributes to a report. -/
  blocks : ω → List Block := fun _ => []

structure Analysis (ω S P W : Type) [AbstractState S] where
  transfer : S → P → Ask ω (List (S × P))
  merge : Merge ω S P
  stop : Stop ω S P
  adjust : Adjustment ω S P (Reached S P W) := Adjustment.keep
  cover : Option (Covering ω S P (Reached S P W)) := none
  /-- What every run that is not abandoned reports. -/
  status : Status := .soundAndPrecise

end Reachability
