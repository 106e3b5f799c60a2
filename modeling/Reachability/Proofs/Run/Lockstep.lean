import Reachability.Proofs.Run.Lasting

/-! Two runs in lockstep.

Two analyses may do the same although they are not the same, or remember different things. What
has to be shown of them is said here once: that the parts in which they differ keep a relation
between both explorations and come to the same results (`Lockstep`). Then whole runs do so, too
(`Lockstep.run`). Where the parts agree only as long as something is not the case at the end,
such as that no shutdown was requested, the relation `E` says so. -/
namespace Reachability

variable {ω ω' S P W α : Type} [AbstractState S]

/-- The same result, and explorations that are related. -/
structure Exploration.Matches (R : Exploration ω S P W → Exploration ω' S P W → Prop)
    (u : α × Exploration ω S P W) (v : α × Exploration ω' S P W) : Prop where
  result : v.1 = u.1
  related : R u.2 v.2

theorem Exploration.Matches.exists_eq {R : Exploration ω S P W → Exploration ω' S P W → Prop}
    {u : α × Exploration ω S P W} {v : α × Exploration ω' S P W} (h : Matches R u v) :
    ∃ result x y, u = (result, x) ∧ v = (result, y) ∧ R x y :=
  ⟨u.1, u.2, v.2, rfl, Prod.ext h.result rfl, h.related⟩

theorem Exploration.Matches.mono {R Q : Exploration ω S P W → Exploration ω' S P W → Prop}
    {u : α × Exploration ω S P W} {v : α × Exploration ω' S P W} (h : Matches R u v)
    (hRQ : ∀ {x y}, R x y → Q x y) : Matches Q u v :=
  ⟨h.result, hRQ h.related⟩

open Exploration (Persists lasting_persists Matches)

variable [Waitlist W] [BEq S] [BEq P]

/-- The parts of both runs match, as long as `Q` holds of the pairs that are dealt with. Dealing
with a successor need match only if it comes to an end that `E` admits. -/
structure Lockstep (a : Analysis ω S P W) (b : Analysis ω' S P W) (Q : S → P → Prop)
    (E R : Exploration ω S P W → Exploration ω' S P W → Prop) : Prop where
  status : b.status = a.status
  hasWaiting : ∀ {x y}, R x y → y.reached.hasWaiting = x.reached.hasWaiting
  requested : ∀ {x y}, R x y → y.shutdown.requested = x.shutdown.requested
  get? : ∀ {x y}, R x y → ∀ h, y.reached.get? h = x.reached.get? h
  published : ∀ {x y}, R x y → ∀ {h s p}, x.reached.get? h = some (s, p) → Q s p
  popNext : ∀ {x y}, R x y → Matches R x.popNext y.popNext
  note : ∀ {x y}, R x y → ∀ e, R (x.note e) (y.note e)
  enqueue : ∀ {x y}, R x y → ∀ h, R (x.apply (.enqueue h)) (y.apply (.enqueue h))
  forceCover : ∀ {x y}, R x y → ∀ s p,
    Matches R (Exploration.forceCover a s p x) (Exploration.forceCover b s p y)
  forced : ∀ {x y}, R x y →
    R (x.tally fun s => {s with forced := s.forced + 1})
      (y.tally fun s => {s with forced := s.forced + 1})
  transfer : ∀ {x y}, R x y → ∀ s p,
    Matches R (x.timed .transfer fun x => x.ask (a.transfer s p))
      (y.timed .transfer fun y => y.ask (b.transfer s p))
  successors : ∀ {s p w l}, Q s p → (a.transfer s p w).result = .ok l → ∀ t ∈ l, Q t.1 t.2
  succeeded : ∀ {x y}, R x y → ∀ n,
    R (x.tally fun s =>
        {s with successors := s.successors + n, maxSuccessors := max s.maxSuccessors n})
      (y.tally fun s =>
        {s with successors := s.successors + n, maxSuccessors := max s.maxSuccessors n})
  successor : ∀ {x y}, R x y → ∀ source {s p}, Q s p →
    E (Exploration.handleSuccessor a source s p x).2
        (Exploration.handleSuccessor b source s p y).2 →
      Matches R (Exploration.handleSuccessor a source s p x)
        (Exploration.handleSuccessor b source s p y)
  /-- What is admitted at the end was so before. -/
  before : ∀ {x x' y y'}, Persists x x' → Persists y y' → E x' y' → E x y

namespace Lockstep
open Exploration

variable {a : Analysis ω S P W} {b : Analysis ω' S P W} {Q : S → P → Prop}
  {E R : Exploration ω S P W → Exploration ω' S P W → Prop} (hab : Lockstep a b Q E R)
  {x : Exploration ω S P W} {y : Exploration ω' S P W}
include hab

theorem handleSuccessors (h : Handle) (source : S) (l : List (S × P)) (hl : ∀ t ∈ l, Q t.1 t.2)
    (hxy : R x y)
    (hend : E (Exploration.handleSuccessors a h source l x).2
      (Exploration.handleSuccessors b h source l y).2) :
    Matches R (Exploration.handleSuccessors a h source l x)
      (Exploration.handleSuccessors b h source l y) := by
  induction l generalizing x y with
  | nil => exact ⟨rfl, hxy⟩
  | cons pair rest ih =>
    obtain ⟨s, p⟩ := pair
    obtain ⟨hpair, hrest⟩ := List.forall_mem_cons.1 hl
    have hfirst := hab.successor hxy source hpair
    unfold Exploration.handleSuccessors at hend ⊢
    generalize handleSuccessor a source s p x = u at hfirst hend ⊢
    generalize handleSuccessor b source s p y = v at hfirst hend ⊢
    obtain ⟨flow, x'⟩ := u
    obtain ⟨flow', y'⟩ := v
    -- Whatever follows the first successor, its end is admitted if the end of all is.
    have hmatches : Matches R (flow, x') (flow', y') := by
      refine hfirst (hab.before ?_ ?_ hend)
      · cases flow with
        | onward => exact lasting_persists.handleSuccessors a h source rest x'
        | halt => cases rest <;> exact id
        | abort e => exact id
      · cases flow' with
        | onward => exact lasting_persists.handleSuccessors b h source rest y'
        | halt => cases rest <;> exact id
        | abort e => exact id
    obtain ⟨hflow, hafter⟩ := hmatches
    cases hflow
    cases flow with
    | onward => exact ih hrest hafter hend
    | halt =>
      cases rest with
      | nil => exact ⟨rfl, hafter⟩
      | cons next others => exact ⟨rfl, hab.enqueue hafter h⟩
    | abort e => exact ⟨rfl, hafter⟩

theorem expandBy (h : Handle) {s : S} {p : P} (hpair : Q s p) (hxy : R x y)
    (hend : E (Exploration.expandBy a h s p x).2 (Exploration.expandBy b h s p y).2) :
    Matches R (Exploration.expandBy a h s p x) (Exploration.expandBy b h s p y) := by
  have hresult : (x.timed .transfer fun x => x.ask (a.transfer s p)).1 =
      (a.transfer s p x.memory).result := rfl
  obtain ⟨answer, u, v, hu, hv, huv⟩ := (hab.transfer hxy s p).exists_eq
  unfold Exploration.expandBy at hend ⊢
  rw [hu] at hend hresult ⊢
  rw [hv] at hend ⊢
  cases answer with
  | error e => exact ⟨rfl, huv⟩
  | ok successors =>
    exact hab.handleSuccessors h s successors (hab.successors hpair hresult.symm)
      (hab.succeeded (hab.note huv _) _) hend

theorem expand (h : Handle) (hxy : R x y)
    (hend : E (Exploration.expand a h x).2 (Exploration.expand b h y).2) :
    Matches R (Exploration.expand a h x) (Exploration.expand b h y) := by
  unfold Exploration.expand at hend ⊢
  rw [hab.get? hxy] at hend ⊢
  cases hget : x.reached.get? h with
  | none => exact ⟨rfl, hxy⟩
  | some pair =>
    obtain ⟨s, p⟩ := pair
    rw [hget] at hend
    obtain ⟨verdict, u, v, hu, hv, huv⟩ :=
      (hab.forceCover (hab.note hxy (.expanding s p)) s p).exists_eq
    simp only [hu, hv] at hend ⊢
    match verdict with
    | .error e => exact ⟨rfl, huv⟩
    | .ok true => exact ⟨rfl, hab.forced (hab.note huv _)⟩
    | .ok false => exact hab.expandBy h (hab.published hxy hget) huv hend

theorem step (hxy : R x y) (hend : E (Exploration.step a x).2 (Exploration.step b y).2) :
    Matches R (Exploration.step a x) (Exploration.step b y) := by
  rw [step_eq, step_eq, hab.hasWaiting hxy, hab.requested hxy] at hend ⊢
  split
  · exact ⟨rfl, hxy⟩
  · rename_i hwaiting
    rw [if_neg hwaiting, if_neg hwaiting] at hend
    split
    · exact ⟨rfl, hxy⟩
    · rename_i hquiet
      rw [if_neg hquiet, if_neg hquiet] at hend
      obtain ⟨popped, u, v, hu, hv, huv⟩ := (hab.popNext hxy).exists_eq
      rw [hu, hv] at hend ⊢
      cases popped with
      | none => exact ⟨rfl, huv⟩
      | some h =>
        have hexpand := hab.expand h (hab.note huv (.retrieved h))
        simp only at hend ⊢
        generalize Exploration.expand a h (u.note (.retrieved h)) = u at hexpand hend ⊢
        generalize Exploration.expand b h (v.note (.retrieved h)) = v at hexpand hend ⊢
        obtain ⟨flow, x'⟩ := u
        obtain ⟨flow', y'⟩ := v
        -- Putting a pair back requests nothing.
        have hmatches : Matches R (flow, x') (flow', y') :=
          hexpand (hab.before (by cases flow <;> exact id) (by cases flow' <;> exact id) hend)
        obtain ⟨hflow, hafter⟩ := hmatches
        cases hflow
        cases flow with
        | onward => exact ⟨rfl, hafter⟩
        | halt => exact ⟨rfl, hafter⟩
        | abort e => exact ⟨rfl, hab.enqueue hafter h⟩

theorem iterate (limit : Nat) (hxy : R x y)
    (hend : E (Exploration.iterate a limit x).2 (Exploration.iterate b limit y).2) :
    Matches R (Exploration.iterate a limit x) (Exploration.iterate b limit y) := by
  induction limit generalizing x y with
  | zero => exact ⟨rfl, hxy⟩
  | succ limit ih =>
    have hstep := hab.step hxy
    unfold Exploration.iterate at hend ⊢
    generalize Exploration.step a x = u at hstep hend ⊢
    generalize Exploration.step b y = v at hstep hend ⊢
    obtain ⟨ended, x'⟩ := u
    obtain ⟨ended', y'⟩ := v
    have hmatches : Matches R (ended, x') (ended', y') := by
      refine hstep (hab.before ?_ ?_ hend)
      · cases ended with
        | some result => exact id
        | none => exact lasting_persists.iterate a limit x'
      · cases ended' with
        | some result => exact id
        | none => exact lasting_persists.iterate b limit y'
    obtain ⟨hended, hafter⟩ := hmatches
    cases hended
    cases ended with
    | some result => exact ⟨rfl, hafter⟩
    | none => exact ih hafter hend

/-- **Runs whose parts match have the same result**, and end related, if they begin so and what
relates them during the run does so afterwards. -/
theorem run {R' : Exploration ω S P W → Exploration ω' S P W → Prop} (limit : Nat)
    (hstart : R (x.start .total).publishSeeds (y.start .total).publishSeeds)
    (hcut : ∀ {x y}, R x y → R' x y)
    (hconclude : ∀ {x y}, R x y → ∀ result, R' (conclude result x) (conclude result y))
    (hend : E (x.run a limit).2 (y.run b limit).2) :
    Matches R' (x.run a limit) (y.run b limit) := by
  have hiterated := hab.iterate limit hstart
  unfold Exploration.run at hend ⊢
  generalize Exploration.iterate a limit (x.start .total).publishSeeds = u at hiterated hend ⊢
  generalize Exploration.iterate b limit (y.start .total).publishSeeds = v at hiterated hend ⊢
  obtain ⟨ended, x'⟩ := u
  obtain ⟨ended', y'⟩ := v
  have hmatches : Matches R (ended, x') (ended', y') := by
    refine hiterated (hab.before ?_ ?_ hend)
    · cases ended with
      | some result => exact lasting_persists.conclude _ x'
      | none => exact id
    · cases ended' with
      | some result => exact lasting_persists.conclude _ y'
      | none => exact id
  obtain ⟨hended, hafter⟩ := hmatches
  cases hended
  cases ended with
  | none => exact ⟨rfl, hcut hafter⟩
  | some result => exact ⟨by rw [hab.status], by rw [hab.status]; exact hconclude hafter _⟩

end Lockstep
end Reachability
