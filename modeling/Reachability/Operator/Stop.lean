import Reachability.Domain
import Reachability.Operator.Ask

/-! Stop operators: whether a successor is covered by states reached before, and so
need not be explored. -/
namespace Reachability

/-- From the successor, the states reached at its location, and its precision. -/
def Stop (ω S P : Type) : Type :=
  S → List S → P → Ask ω Bool

namespace Stop
variable {ω S P : Type}

/-- Covered if a single reached state is above. The search ends at the first. -/
def separate (c : Comparison (Ask ω) S) : Stop ω S P :=
  fun s reached _ => reached.anyM (c.le s)

/-- Covered if the join of all reached states is above. -/
def join (d : Domain (Ask ω) S) : Stop ω S P :=
  fun s reached _ => do
    match ← d.joinMany reached with
    | some all => d.le s all
    | none => pure false

/-- Covers nothing. -/
def never : Stop ω S P :=
  fun _ _ _ => pure false

/-- Covers everything. -/
def always : Stop ω S P :=
  fun _ _ _ => pure true

/-- What a search over plain functions answers. -/
theorem anyM_pure_apply (f : S → Bool) (reached : List S) (w : ω) :
    reached.anyM (fun r => (pure (f r) : Ask ω Bool)) w = ⟨.ok (reached.any f), w, none, 0⟩ := by
  induction reached with
  | nil => rfl
  | cons r rest ih =>
    rw [List.anyM]
    show (Bind.bind _ _ : Ask ω Bool) w = _
    rw [Ask.bind_apply]
    cases h : f r <;> simp [h, ih]

theorem separate_lift_apply (c : Comparison Id S) (s : S) (reached : List S) (p : P) (w : ω) :
    (separate c.lift : Stop ω S P) s reached p w =
      ⟨.ok (reached.any fun r => (c.le s r).run), w, none, 0⟩ :=
  anyM_pure_apply _ reached w

end Stop
end Reachability
