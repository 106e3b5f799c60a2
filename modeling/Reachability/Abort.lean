/-! Why a run is abandoned.

There are two causes only: the transfer relation cannot handle an edge, or a
shutdown was requested. Pruning a successor and finding it covered are ordinary
answers and never end up here. -/
namespace Reachability

/-- The successors of a state could not be computed. -/
structure TransferFailure where
  /-- The edge or location at fault. -/
  location : String
  reason : String
deriving DecidableEq

def TransferFailure.message (f : TransferFailure) : String :=
  "cannot compute successors at " ++ f.location ++ ": " ++ f.reason

inductive Abort where
  | transferFailed (failure : TransferFailure)
  | interrupted
deriving DecidableEq

namespace Abort

def message : Abort → String
  | transferFailed f => "Transfer error: " ++ f.message
  | interrupted => "Analysis interrupted"

def isInterrupted : Abort → Bool
  | interrupted => true
  | transferFailed _ => false

/-- The failure behind the abort. A shutdown has none. -/
def cause? : Abort → Option TransferFailure
  | transferFailed f => some f
  | interrupted => none

theorem isInterrupted_iff (e : Abort) : e.isInterrupted = true ↔ e.cause? = none := by
  cases e <;> simp [isInterrupted, cause?]

end Abort
end Reachability
