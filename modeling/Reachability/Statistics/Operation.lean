import Reachability.Statistics.Timer

/-! The operations on a timer as data.

Each operation comes with the readings of the clock at which it is done, so that the intervals
it completes can be of any lengths. A timer is to be started only while it stands still, and to
be stopped only while it is running, unless it is asked to stop if it is (`Lawful`). Which
intervals a sequence of operations completes is said here without a timer (`lengths`). -/
namespace Reachability.Timer

inductive Operation where
  | start (now : Nat)
  | stop (now : Nat)
  | stopIfRunning (now : Nat)
  | time (before after : Nat)

def perform (t : Timer) : Operation → Except Misuse Timer
  | .start now => t.start now
  | .stop now => t.stop now
  | .stopIfRunning now => .ok (t.stopIfRunning now)
  | .time before after => t.time before after

/-- The timer after a sequence of operations, if none of them is a misuse. -/
def performAll (t : Timer) (ops : List Operation) : Except Misuse Timer :=
  ops.foldlM perform t

@[simp] theorem performAll_nil (t : Timer) : t.performAll [] = .ok t := rfl

theorem performAll_cons_of_ok {t u : Timer} {op : Operation} (h : t.perform op = .ok u)
    (ops : List Operation) : t.performAll (op :: ops) = u.performAll ops := by
  rw [performAll, List.foldlM_cons, h]
  rfl

/-! ### Intervals

What is running is given by the reading at which it began. -/

namespace Operation

/-- What is running after the operation. -/
def running : Operation → Option Nat
  | .start now => some now
  | _ => none

/-- The lengths of the intervals that the operation completes: one at most. -/
def completes (began : Option Nat) : Operation → List Nat
  | .start _ => []
  | .stop now => (began.map (now - ·)).toList
  | .stopIfRunning now => (began.map (now - ·)).toList
  | .time before after => [after - before]

def Admitted (began : Option Nat) : Operation → Prop
  | .start _ => began = none
  | .stop _ => began ≠ none
  | .stopIfRunning _ => True
  | .time _ _ => began = none

instance (began : Option Nat) (op : Operation) : Decidable (op.Admitted began) :=
  match op with
  | .start _ => inferInstanceAs (Decidable (began = none))
  | .stop _ => inferInstanceAs (Decidable (began ≠ none))
  | .stopIfRunning _ => isTrue trivial
  | .time _ _ => inferInstanceAs (Decidable (began = none))

end Operation

/-- No operation is a misuse. -/
def Lawful : Option Nat → List Operation → Prop
  | _, [] => True
  | began, op :: ops => op.Admitted began ∧ Lawful op.running ops

/-- The lengths of the intervals that the operations complete, in order. -/
def lengths : Option Nat → List Operation → List Nat
  | _, [] => []
  | began, op :: ops => op.completes began ++ lengths op.running ops

instance decidableLawful : (began : Option Nat) → (ops : List Operation) →
    Decidable (Lawful began ops)
  | _, [] => isTrue trivial
  | began, op :: ops =>
    have := decidableLawful op.running ops
    inferInstanceAs (Decidable (op.Admitted began ∧ Lawful op.running ops))

/-- One interval after the other, of these lengths. -/
def laps (times : List Nat) : List Operation :=
  times.map (.time 0)

theorem lawful_laps (times : List Nat) : Lawful none (laps times) := by
  induction times with
  | nil => trivial
  | cons time rest ih => exact ⟨rfl, ih⟩

/-- Intervals can be of any lengths. -/
@[simp] theorem lengths_laps (times : List Nat) : lengths none (laps times) = times := by
  induction times with
  | nil => rfl
  | cons time rest ih => exact congrArg (time :: ·) ih

end Reachability.Timer
