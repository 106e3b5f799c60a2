import Reachability.Domain
import Reachability.Operator.Ask

/-! Merge operators.

A merge folds a fresh successor into a state reached before at the same location.
To return the reached state is to keep the two separate; any other answer is meant
to subsume both, and replaces the reached state. -/
namespace Reachability

structure Merge (ω S P : Type) where
  /-- From the successor, the reached state and the successor's precision. -/
  merge : S → S → P → Ask ω S
  /-- Promises that every answer is the reached state, so that nobody need ask. -/
  separates : Bool := false

namespace Merge
variable {ω S P : Type}

/-- Never merges. -/
def separate : Merge ω S P where
  merge _ reached _ := pure reached
  separates := true

/-- Merges by the join, except that a successor below the reached state adds
nothing to it. -/
def join (d : Domain (Ask ω) S) : Merge ω S P where
  merge successor reached _ := do
    if ← d.le successor reached then pure reached else d.join successor reached

/-- Merges by a plain function. -/
def ofFunction (f : S → S → P → S) : Merge ω S P where
  merge successor reached p := pure (f successor reached p)

theorem separate_apply (s reached : S) (p : P) (w : ω) :
    (separate : Merge ω S P).merge s reached p w = ⟨.ok reached, w, none, 0⟩ := rfl

/-- What merging by the join answers when the domain consists of plain functions. -/
theorem join_lift_apply (d : Domain Id S) (s reached : S) (p : P) (w : ω) :
    (join d.lift).merge s reached p w =
      ⟨.ok (if d.Below s reached then reached else (d.join s reached).run), w, none, 0⟩ := by
  show (Bind.bind _ _ : Ask ω S) w = _
  rw [Ask.bind_apply]
  by_cases h : (d.le s reached).run = true
  · simp [Domain.lift, Comparison.lift, Comparison.Below, h]
  · simp [Domain.lift, Comparison.lift, Comparison.Below, h]

end Merge
end Reachability
