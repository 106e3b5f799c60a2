import Reachability.Operator.Ask
import Reachability.State

/-! Precision adjustment: what is done to every successor before merge and stop.

It may replace the state or its precision, prune the successor by answering
nothing, or request that the whole run halt. -/
namespace Reachability

inductive Action where
  /-- Go on with merge and stop. -/
  | proceed
  /-- End the run, unless the successor is covered. -/
  | halt
deriving DecidableEq

instance : Inhabited Action := ⟨.proceed⟩

def Action.text : Action → String
  | .proceed => "CONTINUE"
  | .halt => "BREAK"

structure Adjusted (S P : Type) where
  state : S
  precision : P
  action : Action := .proceed

instance {S P : Type} [BEq S] [BEq P] : BEq (Adjusted S P) where
  beq a b := a.state == b.state && a.precision == b.precision && a.action == b.action

/-- From a successor, its precision, and what is reached so far (`R`). -/
def Adjustment (ω S P R : Type) : Type :=
  S → P → R → Ask ω (Option (Adjusted S P))

namespace Adjustment
variable {ω S P R : Type}

/-- Keeps the pair and proceeds. -/
def keep : Adjustment ω S P R :=
  fun s p _ => pure (some { state := s, precision := p })

/-- Halts at a target, whatever the inner adjustment requested; leaves its other
answers as they are. -/
def haltOnTarget [AbstractState S] (inner : Adjustment ω S P R) : Adjustment ω S P R :=
  fun s p reached => do
    match ← inner s p reached with
    | none => pure none
    | some adjusted =>
      if AbstractState.isTarget adjusted.state then
        pure (some {adjusted with action := .halt})
      else pure (some adjusted)

end Adjustment
end Reachability
