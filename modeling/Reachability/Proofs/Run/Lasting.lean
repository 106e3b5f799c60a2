import Reachability.Proofs.Run.Counters

/-! What lasts through a run.

All that a run does to an exploration it does by a few elementary moves: it notes events, counts,
performs operations, pops, and takes in replies. A relation that these moves respect holds
between the beginning of any part of a run and its end (`Lasting.run`). A request for a shutdown is the case
in point: once made it stays (`lasting_persists`). -/
namespace Reachability

variable {ω S P W α : Type} [AbstractState S] [Waitlist W] [BEq S] [BEq P]

/-- A relation that the elementary moves of a run respect. -/
structure Exploration.Lasting (R : Exploration ω S P W → Exploration ω S P W → Prop) : Prop where
  refl : ∀ x, R x x
  trans : ∀ {x y z}, R x y → R y z → R x z
  note : ∀ x e, R x (x.note e)
  tally : ∀ x f, R x (x.tally f)
  apply : ∀ x op, R x (x.apply op)
  pop : ∀ x, R x x.pop.2
  absorb : ∀ {α : Type} x (r : Reply ω α), R x (x.absorb r)

namespace Exploration.Lasting
variable {R : Exploration ω S P W → Exploration ω S P W → Prop} (hR : Lasting R)
include hR

theorem start (x : Exploration ω S P W) (p : Phase) : R x (x.start p) :=
  hR.tally x _

theorem stop (x : Exploration ω S P W) (p : Phase) : R x (x.stop p) :=
  hR.tally x _

theorem timed {x : Exploration ω S P W} {act : Exploration ω S P W → α × Exploration ω S P W}
    (p : Phase) (hact : R (x.start p) (act (x.start p)).2) : R x (x.timed p act).2 :=
  hR.trans (hR.trans (hR.start x p) hact) (hR.stop _ p)

theorem timed_ask (p : Phase) (question : Exploration ω S P W → Ask ω α)
    (x : Exploration ω S P W) : R x (x.timed p fun x => x.ask (question x)).2 :=
  hR.timed p (hR.absorb _ _)

theorem publish (s : S) (p : P) (x : Exploration ω S P W) : R x (x.publish s p) :=
  hR.trans (hR.trans (hR.start x .add) (hR.apply _ (.add s p))) (hR.stop _ .add)

theorem applyAll (ops : List (Operation S P)) (x : Exploration ω S P W) :
    R x (ops.foldl Exploration.apply x) := by
  induction ops generalizing x with
  | nil => exact hR.refl x
  | cons op rest ih => exact hR.trans (hR.apply x op) (ih _)

variable (a : Analysis ω S P W)

/-! ### Successors -/

theorem settle (s : S) (p : P) (x : Exploration ω S P W) :
    R x (Exploration.settle a s p x).2 := by
  have hasked : R x (isCovered a s p x).2 := hR.timed_ask .stop _ x
  unfold Exploration.settle
  generalize isCovered a s p x = asked at hasked ⊢
  obtain ⟨answer, y⟩ := asked
  match answer with
  | .error e => exact hasked
  | .ok true =>
    dsimp only
    exact hR.trans (hR.trans hasked (hR.note y _)) (hR.tally _ _)
  | .ok false => exact hR.trans (hR.trans hasked (hR.note y _)) (hR.publish s p _)

theorem settleHalt (s : S) (p : P) (x : Exploration ω S P W) :
    R x (Exploration.settleHalt a s p x).2 := by
  have hasked : R x (isCovered a s p x).2 := hR.timed_ask .stop _ x
  unfold Exploration.settleHalt
  generalize isCovered a s p x = asked at hasked ⊢
  obtain ⟨answer, y⟩ := asked
  match answer with
  | .error e => exact hasked
  | .ok true =>
    dsimp only
    exact hR.trans (hR.trans hasked (hR.tally y _)) (hR.note _ _)
  | .ok false =>
    dsimp only
    exact hR.trans (hR.trans (hR.trans hasked (hR.tally y _)) (hR.note _ _)) (hR.publish s p _)

theorem scan (s : S) (p : P) (candidates : List Handle) (x : Exploration ω S P W) :
    R x (Exploration.scan a s p candidates x).after := by
  induction candidates generalizing x with
  | nil => exact hR.refl x
  | cons h rest ih =>
    unfold Exploration.scan
    split
    · exact hR.refl x
    · cases x.reached.state? h with
      | none => exact ih x
      | some old =>
        have hasked : R x (x.ask (a.merge.merge s old p)).2 := hR.absorb _ _
        simp only
        generalize x.ask (a.merge.merge s old p) = asked at hasked ⊢
        obtain ⟨answer, y⟩ := asked
        cases answer with
        | error e => exact hasked
        | ok new =>
          simp only
          split
          · exact hR.trans (hR.trans (hR.trans hasked (hR.note y _)) (hR.note _ _)) (ih _)
          · exact hR.trans hasked (ih y)

theorem replace (p : P) (changed : List (Handle × S)) (x : Exploration ω S P W) :
    R x (Exploration.replace p changed x) := by
  unfold Exploration.replace
  split
  · exact hR.refl x
  · exact hR.trans (hR.tally x _) (hR.apply _ _)

theorem mergeInto (s : S) (p : P) (x : Exploration ω S P W) :
    R x (Exploration.mergeInto a s p x).2 := by
  unfold Exploration.mergeInto
  simp only
  split
  · exact hR.refl x
  · have hstarted := hR.trans (hR.note x (.considering (x.reached.handlesAt s).length))
      (hR.start _ .merge)
    refine hR.trans (hR.trans hstarted (hR.scan a s p (x.reached.handlesAt s) _)) ?_
    exact hR.trans (hR.replace p _ _) (hR.stop _ .merge)

theorem mergeAndSettle (s : S) (p : P) (x : Exploration ω S P W) :
    R x (Exploration.mergeAndSettle a s p x).2 := by
  have hmerged := hR.mergeInto a s p x
  unfold Exploration.mergeAndSettle
  split
  · exact hR.settle a s p x
  · generalize Exploration.mergeInto a s p x = merged at hmerged ⊢
    obtain ⟨abort, y⟩ := merged
    cases abort with
    | some e => exact hmerged
    | none => exact hR.trans hmerged (hR.settle a s p y)

theorem handleSuccessor (source s : S) (p : P) (x : Exploration ω S P W) :
    R x (Exploration.handleSuccessor a source s p x).2 := by
  have hasked : R x (askAdjust a source s p x).2 :=
    hR.trans (hR.note x _) (hR.timed_ask .adjust _ _)
  rw [handleSuccessor_eq]
  split
  · exact hR.refl x
  · generalize askAdjust a source s p x = asked at hasked ⊢
    obtain ⟨answer, y⟩ := asked
    match answer with
    | .error e => exact hasked
    | .ok none => exact hR.trans hasked (hR.note y _)
    | .ok (some ⟨t, q, .halt⟩) => exact hR.trans hasked (hR.settleHalt a t q y)
    | .ok (some ⟨t, q, .proceed⟩) => exact hR.trans hasked (hR.mergeAndSettle a t q y)

theorem handleSuccessors (h : Handle) (source : S) (successors : List (S × P))
    (x : Exploration ω S P W) : R x (Exploration.handleSuccessors a h source successors x).2 := by
  induction successors generalizing x with
  | nil => exact hR.refl x
  | cons pair rest ih =>
    have hfirst := hR.handleSuccessor a source pair.1 pair.2 x
    unfold Exploration.handleSuccessors
    generalize Exploration.handleSuccessor a source pair.1 pair.2 x = handled at hfirst ⊢
    obtain ⟨flow, y⟩ := handled
    cases flow with
    | onward => exact hR.trans hfirst (ih y)
    | halt =>
      cases rest with
      | nil => exact hfirst
      | cons next others => exact hR.trans hfirst (hR.apply y _)
    | abort e => exact hfirst

/-! ### Expansions -/

theorem forceCover (s : S) (p : P) (x : Exploration ω S P W) :
    R x (Exploration.forceCover a s p x).2 := by
  unfold Exploration.forceCover
  cases a.cover with
  | none => exact hR.refl x
  | some covering => exact hR.timed .cover (hR.trans (hR.absorb _ _) (hR.applyAll _ _))

theorem expandBy (h : Handle) (s : S) (p : P) (x : Exploration ω S P W) :
    R x (Exploration.expandBy a h s p x).2 := by
  have hasked : R x (x.timed .transfer fun x => x.ask (a.transfer s p)).2 :=
    hR.timed_ask .transfer (fun _ => a.transfer s p) x
  unfold Exploration.expandBy
  generalize x.timed .transfer (fun x => x.ask (a.transfer s p)) = asked at hasked ⊢
  obtain ⟨answer, y⟩ := asked
  cases answer with
  | error e => exact hasked
  | ok successors =>
    exact hR.trans (hR.trans (hR.trans hasked (hR.note y _)) (hR.tally _ _))
      (hR.handleSuccessors a h s successors _)

theorem expand (h : Handle) (x : Exploration ω S P W) : R x (Exploration.expand a h x).2 := by
  unfold Exploration.expand
  cases x.reached.get? h with
  | none => exact hR.refl x
  | some pair =>
    obtain ⟨s, p⟩ := pair
    have hcovered := hR.trans (hR.note x (.expanding s p)) (hR.forceCover a s p _)
    simp only
    generalize Exploration.forceCover a s p (x.note (.expanding s p)) = covered at hcovered ⊢
    obtain ⟨verdict, y⟩ := covered
    match verdict with
    | .error e => exact hcovered
    | .ok true =>
      dsimp only
      exact hR.trans (hR.trans hcovered (hR.note y _)) (hR.tally _ _)
    | .ok false => exact hR.trans hcovered (hR.expandBy a h s p y)

/-! ### Runs -/

theorem popNext (x : Exploration ω S P W) : R x (Exploration.popNext x).2 :=
  hR.trans (hR.tally x _) (hR.timed .choose (hR.pop _))

theorem step (x : Exploration ω S P W) : R x (Exploration.step a x).2 := by
  have hpopped := hR.popNext x
  rw [step_eq]
  split
  · exact hR.refl x
  · split
    · exact hR.refl x
    · generalize Exploration.popNext x = popped at hpopped ⊢
      obtain ⟨h, y⟩ := popped
      cases h with
      | none => exact hpopped
      | some h =>
        have hexpanded := hR.trans (hR.note y (.retrieved h)) (hR.expand a h _)
        simp only
        generalize Exploration.expand a h (y.note (.retrieved h)) = expanded at hexpanded ⊢
        obtain ⟨flow, z⟩ := expanded
        cases flow with
        | onward => exact hR.trans hpopped hexpanded
        | halt => exact hR.trans hpopped hexpanded
        | abort e => exact hR.trans (hR.trans hpopped hexpanded) (hR.apply z _)

theorem iterate (limit : Nat) (x : Exploration ω S P W) :
    R x (Exploration.iterate a limit x).2 := by
  induction limit generalizing x with
  | zero => exact hR.refl x
  | succ limit ih =>
    have hstep := hR.step a x
    unfold Exploration.iterate
    generalize Exploration.step a x = stepped at hstep ⊢
    obtain ⟨ended, y⟩ := stepped
    cases ended with
    | some result => exact hstep
    | none => exact hR.trans hstep (ih y)

theorem publishSeeds (x : Exploration ω S P W) : R x x.publishSeeds := by
  rw [publishSeeds_eq]
  exact hR.applyAll _ x

theorem conclude (result : Except Abort Outcome) (x : Exploration ω S P W) :
    R x (Exploration.conclude result x) := by
  cases result <;> exact hR.trans (hR.tally x _) (hR.note _ _)

/-- What lasts through every elementary move lasts through a run. -/
theorem run (limit : Nat) (x : Exploration ω S P W) : R x (x.run a limit).2 := by
  have hiterated : R x (Exploration.iterate a limit (x.start .total).publishSeeds).2 :=
    hR.trans (hR.trans (hR.tally x _) (hR.publishSeeds _)) (hR.iterate a limit _)
  unfold Exploration.run
  generalize Exploration.iterate a limit (x.start .total).publishSeeds = iterated at hiterated ⊢
  obtain ⟨ended, y⟩ := iterated
  cases ended with
  | none => exact hiterated
  | some result => exact hR.trans hiterated (hR.conclude _ y)

end Exploration.Lasting

/-! ### Requests for a shutdown -/

/-- A shutdown requested before is requested still. -/
def Exploration.Persists (x y : Exploration ω S P W) : Prop :=
  x.shutdown.requested = true → y.shutdown.requested = true

namespace Exploration

omit [Waitlist W] [BEq S] [BEq P] in
/-- A request made during a call is taken in with the reply. -/
theorem requested_absorb (x : Exploration ω S P W) (r : Reply ω α) :
    (x.absorb r).shutdown.requested = (x.shutdown.requested || r.request.isSome) := by
  have hmind := congrArg (fun m : ω × Shutdown => m.2.requested) (mind_absorb x r)
  have hheed : (x.absorb r).shutdown.requested = (heed x.mind r).2.requested := hmind
  rw [hheed, heed]
  cases r.request with
  | none => exact (Bool.or_false _).symm
  | some reason => simp

theorem lasting_persists : Lasting (Persists (ω := ω) (S := S) (P := P) (W := W)) where
  refl _ := id
  trans hxy hyz h := hyz (hxy h)
  note _ _ := id
  tally _ _ := id
  apply _ _ := id
  pop _ := id
  absorb x r h := by rw [requested_absorb, h, Bool.true_or]

end Exploration
end Reachability
