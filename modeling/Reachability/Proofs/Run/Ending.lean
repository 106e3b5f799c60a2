import Mathlib.Order.WellFounded
import Reachability.Proofs.Run.Published

/-! Runs that end.

A run ends with an iteration that has a result (`exists_last_step`), and it does end if the
reached sets cannot descend for ever from one iteration to the next (`exists_isSome_iterate`).
What is published while it goes on stays within any set of states that neither the seeds nor
the operators lead out of (`within_iterate`). -/
namespace Reachability.Exploration

variable {ω S P : Type} [AbstractState S] [BEq S] [BEq P]

section Waitlist
variable {W : Type} [Waitlist W] {a : Analysis ω S P W} {x y : Exploration ω S P W}

theorem isSome_run (a : Analysis ω S P W) (limit : Nat) (x : Exploration ω S P W) :
    (x.run a limit).1.isSome = (iterate a limit (x.start .total).publishSeeds).1.isSome := by
  unfold run
  generalize iterate a limit (x.start .total).publishSeeds = iterated
  obtain ⟨ended, z⟩ := iterated
  cases ended <;> rfl

/-- The result of iterating comes with the last iteration. -/
theorem exists_last_step {limit : Nat} {result : Except Abort Termination}
    (e : iterate a limit x = (some result, y)) :
    ∃ n top, iterate a n x = (none, top) ∧ step a top = (some result, y) := by
  induction limit generalizing x with
  | zero => cases e
  | succ limit ih =>
    unfold iterate at e
    cases hstep : step a x with
    | mk ended z =>
      rw [hstep] at e
      cases ended with
      | some result' =>
        cases e
        exact ⟨0, x, rfl, hstep⟩
      | none =>
        obtain ⟨n, top, hbefore, hlast⟩ := ih e
        exact ⟨n + 1, top, by simp only [iterate, hstep, hbefore], hlast⟩

/-- One more iteration after those that did not end the run. -/
theorem iterate_succ_of_none {n : Nat} (hbefore : iterate a n x = (none, y)) :
    iterate a (n + 1) x = step a y := by
  induction n generalizing x with
  | zero =>
    cases hbefore
    rw [iterate]
    obtain ⟨ended, z⟩ := step a y
    cases ended <;> rfl
  | succ n ih =>
    unfold iterate at hbefore
    cases hstep : step a x with
    | mk ended z =>
      rw [hstep] at hbefore
      cases ended with
      | some result => cases hbefore
      | none =>
        rw [← ih hbefore]
        simp only [iterate, hstep]

/-- If each iteration that goes on descends, there is a last one. -/
theorem exists_isSome_iterate {R : Reached S P W → Reached S P W → Prop} (hR : WellFounded R)
    (hdescends : ∀ {n y z}, iterate a n x = (none, y) → step a y = (none, z) →
      R z.reached y.reached) : ∃ n, (iterate a n x).1.isSome = true := by
  generalize hx : x.reached = r
  induction r using hR.induction generalizing x with
  | _ r ih =>
    subst hx
    cases hstep : step a x with
    | mk ended z =>
      cases ended with
      | some result => exact ⟨1, by simp only [iterate, hstep, Option.isSome_some]⟩
      | none =>
        have hiterate : ∀ n, iterate a (n + 1) x = iterate a n z := fun n => by
          simp only [iterate, hstep]
        obtain ⟨n, hn⟩ := ih z.reached (hdescends (n := 0) rfl hstep)
          (fun hbefore hlast => hdescends ((hiterate _).trans hbefore) hlast) rfl
        exact ⟨n + 1, by rwa [hiterate]⟩

/-- What an iteration keeps holds after any number of them. -/
theorem preserves_iterate {Q : S → Prop} {Inv : Reached S P W → Prop} (ha : a.Keeps Q Inv)
    (hx : Inv x.reached) (n : Nat) : Inv (iterate a n x).2.reached := by
  induction n generalizing x with
  | zero => exact hx
  | succ n ih =>
    have hstep := (Effect.step_effect a x).preserves ha hx
    unfold iterate
    generalize step a x = stepped at hstep ⊢
    obtain ⟨ended, z⟩ := stepped
    cases ended with
    | some result => exact hstep
    | none => exact ih hstep

end Waitlist

/-- Where seeds and operators do not lead out of `Q`, nothing is ever published outside. -/
theorem within_iterate {a : Analysis ω S P Frontier} {Q : S → Prop} (ha : a.Confined Q)
    {x : Exploration ω S P Frontier} (hr : x.reached.Consistent) (hin : x.reached.Within Q)
    (hseeds : ∀ y ∈ x.reached.seeds, Q y.1) (n : Nat) :
    (iterate a n (x.start .total).publishSeeds).2.reached.Within Q := by
  refine (preserves_iterate ha.keeps ?_ n).2
  rw [reached_publishSeeds, reached_start]
  exact ⟨hr.drain, Reached.Within.addAll hseeds hin⟩

end Reachability.Exploration
