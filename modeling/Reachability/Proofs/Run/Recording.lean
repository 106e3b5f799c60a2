import Reachability.Proofs.Run.Overlay

/-! Recording the calls of operators.

An analysis that records remembers, beside what its operators remember, which of them were called
and whether a shutdown was requested during the call (`Analysis.recorded`). Nobody else sees the
record, and so a run that records is the run itself (`overlaid_recorded_run`): whatever is
said of the calls of a run is said of its record. -/
namespace Reachability

open Exploration

inductive Operator where
  | transfer
  | adjust
  | merge
  | stop
  | cover
deriving DecidableEq

/-- A call of an operator. -/
structure Called where
  operator : Operator
  /-- Whether a shutdown was requested during the call. -/
  requests : Bool
deriving DecidableEq

variable {ω S P W α : Type}

/-- The reply, with the call added to the record. -/
def Reply.record (o : Operator) (log : List Called) (r : Reply ω α) : Reply (ω × List Called) α :=
  ⟨r.result, (r.memory, log ++ [⟨o, r.request.isSome⟩]), r.request, r.elapsed⟩

def Ask.recorded (o : Operator) (question : Ask ω α) : Ask (ω × List Called) α :=
  fun w => (question w.1).record o w.2

variable [AbstractState S]

/-- The same operators, recording their calls. -/
def Analysis.recorded (a : Analysis ω S P W) : Analysis (ω × List Called) S P W where
  transfer s p := (a.transfer s p).recorded .transfer
  merge :=
    { merge := fun s old p => (a.merge.merge s old p).recorded .merge
      separates := a.merge.separates }
  stop s reached p := (a.stop s reached p).recorded .stop
  adjust s p r := (a.adjust s p r).recorded .adjust
  cover := a.cover.map fun c =>
    { attempt := fun s p r w =>
        { reply := (c.attempt s p r w.1).reply.record .cover w.2
          operations := (c.attempt s p r w.1).operations }
      blocks := fun w => c.blocks w.1 }
  status := a.status

theorem Analysis.mirrors_recorded (a : Analysis ω S P W) : a.Mirrors Prod.fst a.recorded where
  transfer _ _ _ := rfl
  stop _ _ _ _ := rfl
  adjust _ _ _ _ := rfl
  cover := by
    unfold Analysis.recorded
    cases a.cover with
    | none => exact .none
    | some c => exact .some fun _ _ _ _ => ⟨rfl, rfl⟩
  status := rfl
  separates := rfl
  merge _ _ _ _ := rfl

namespace Exploration

/-- The exploration with nothing recorded yet. -/
def unrecorded (x : Exploration ω S P W) : Exploration (ω × List Called) S P W :=
  ⟨x.trail, (x.memory, []), x.shutdown, x.statistics, x.clock⟩

variable [Waitlist W] [BEq S] [BEq P]

/-- A run that records is the run. -/
theorem overlaid_recorded_run (a : Analysis ω S P W) (limit : Nat) (x : Exploration ω S P W) :
    Matches (Overlaid Prod.fst) (x.run a limit) (x.unrecorded.run a.recorded limit) :=
  (Mirrored.run a.mirrors_recorded ⟨rfl, rfl, rfl, rfl, rfl⟩ limit).mono Mirrored.overlaid

end Exploration
end Reachability
