/-! How far a result can be trusted, and how a run ended. -/
namespace Reachability

structure Status where
  /-- No reachable behaviour was skipped. -/
  sound : Bool
  /-- No spurious behaviour was added beyond what the domain promises. -/
  precise : Bool
deriving DecidableEq

namespace Status

def soundAndPrecise : Status := ⟨true, true⟩

/-- The trust in a result that rests on both: each flag must hold of both. -/
def combine (a b : Status) : Status :=
  ⟨a.sound && b.sound, a.precise && b.precise⟩

def text (s : Status) : String :=
  (if s.sound then "sound" else "unsound") ++ " and " ++
    (if s.precise then "precise" else "imprecise")

theorem combine_comm (a b : Status) : a.combine b = b.combine a := by
  simp [combine, Bool.and_comm]

theorem combine_soundAndPrecise (a : Status) : a.combine soundAndPrecise = a := by
  simp [combine, soundAndPrecise]

end Status

inductive Termination where
  /-- The waitlist is empty: the reached set is a fixpoint. -/
  | exhausted
  /-- A halt was requested for a successor that was not covered. -/
  | halted
deriving DecidableEq

def Termination.text : Termination → String
  | .exhausted => "exhausted"
  | .halted => "break"

/-- What a run that was not abandoned reports. -/
structure Outcome where
  status : Status
  termination : Termination
deriving DecidableEq

namespace Outcome

def isExhausted (o : Outcome) : Bool :=
  o.termination == .exhausted

def isHalted (o : Outcome) : Bool :=
  o.termination == .halted

end Outcome
end Reachability
