import Reachability.Proofs.Run.Script

/-! What a run counts, and what it goes by.

Timers are read and written all along a run, but what is counted does not depend on them:
`Exploration.counts` leaves them out. Of the parts of an expansion none counts an iteration; an
iteration is counted when a pair is taken out of the frontier (`iterations_step`). What a run
goes by besides its reached set is what the operators remember and whether a shutdown was
requested (`Exploration.mind`), and this changes with their replies only. -/
namespace Reachability

/-- What is counted, without what is timed. -/
def Statistics.counts (s : Statistics) : Statistics :=
  {s with timers := {}, misuse := none}

theorem Statistics.counts_settle (s : Statistics) (p : Phase)
    (outcome : Except Timer.Misuse Timer) : (s.settle p outcome).counts = s.counts := by
  cases outcome <;> rfl

namespace Exploration
variable {ω S P W α : Type} [AbstractState S]

def counts (x : Exploration ω S P W) : Statistics :=
  x.statistics.counts

@[simp] theorem counts_note (x : Exploration ω S P W) (e : Event S P) :
    (x.note e).counts = x.counts := rfl

@[simp] theorem counts_start (x : Exploration ω S P W) (p : Phase) :
    (x.start p).counts = x.counts :=
  Statistics.counts_settle ..

@[simp] theorem counts_stop (x : Exploration ω S P W) (p : Phase) :
    (x.stop p).counts = x.counts :=
  Statistics.counts_settle ..

@[simp] theorem counts_absorb (x : Exploration ω S P W) (r : Reply ω α) :
    (x.absorb r).counts = x.counts := by
  unfold absorb
  cases r.request with
  | none => rfl
  | some reason =>
    simp only [requestShutdown]
    generalize x.shutdown.request reason = requested
    obtain ⟨won, shutdown⟩ := requested
    cases won <;> rfl

@[simp] theorem counts_ask (x : Exploration ω S P W) (question : Ask ω α) :
    (x.ask question).2.counts = x.counts :=
  counts_absorb x _

@[simp] theorem counts_timed (x : Exploration ω S P W) (p : Phase)
    (act : Exploration ω S P W → α × Exploration ω S P W) :
    (x.timed p act).2.counts = (act (x.start p)).2.counts :=
  counts_stop _ p

theorem counts_timed_ask (x : Exploration ω S P W) (p : Phase)
    (question : Reached S P W → Ask ω α) :
    (x.timed p fun x => x.ask (question x.reached)).2.counts = x.counts := by
  rw [counts_timed, counts_ask, counts_start]

variable [Waitlist W]

@[simp] theorem counts_pop (x : Exploration ω S P W) : x.pop.2.counts = x.counts := rfl

variable [BEq S] [BEq P]

@[simp] theorem counts_apply (x : Exploration ω S P W) (op : Operation S P) :
    (x.apply op).counts = x.counts := rfl

@[simp] theorem counts_publish (x : Exploration ω S P W) (s : S) (p : P) :
    (x.publish s p).counts = x.counts := by
  rw [publish, counts_stop, counts_apply, counts_start]

theorem counts_applyAll (ops : List (Operation S P)) (x : Exploration ω S P W) :
    (ops.foldl apply x).counts = x.counts := by
  induction ops generalizing x with
  | nil => rfl
  | cons op rest ih => exact ih (x.apply op)

@[simp] theorem counts_publishSeeds (x : Exploration ω S P W) :
    x.publishSeeds.counts = x.counts := by
  rw [publishSeeds_eq, counts_applyAll]

omit [BEq S] [BEq P] in
@[simp] theorem counts_conclude (result : Except Abort Outcome) (x : Exploration ω S P W) :
    (conclude result x).counts = x.counts := by
  cases result <;> rfl

/-! ### What operators remember -/

/-- What an exploration goes by besides its reached set. -/
def mind (x : Exploration ω S P W) : ω × Shutdown :=
  (x.memory, x.shutdown)

/-- What comes of a reply. -/
def heed (m : ω × Shutdown) (r : Reply ω α) : ω × Shutdown :=
  (r.memory, match r.request with
    | some reason => (m.2.request reason).2
    | none => m.2)

omit [Waitlist W] [BEq S] [BEq P] in
theorem mind_absorb (x : Exploration ω S P W) (r : Reply ω α) :
    (x.absorb r).mind = heed x.mind r := by
  unfold absorb heed
  cases r.request with
  | none => rfl
  | some reason =>
    simp only [requestShutdown, mind]
    generalize x.shutdown.request reason = requested
    obtain ⟨won, shutdown⟩ := requested
    cases won <;> rfl

omit [Waitlist W] [BEq S] [BEq P] in
theorem mind_timed_ask (x : Exploration ω S P W) (p : Phase) (question : Reached S P W → Ask ω α) :
    (x.timed p fun x => x.ask (question x.reached)).2.mind =
      heed x.mind (question x.reached x.memory) :=
  mind_absorb (x.start p) _

theorem mind_applyAll (ops : List (Operation S P)) (x : Exploration ω S P W) :
    (ops.foldl apply x).mind = x.mind := by
  induction ops generalizing x with
  | nil => rfl
  | cons op rest ih => exact ih (x.apply op)

theorem mind_publishSeeds (x : Exploration ω S P W) : x.publishSeeds.mind = x.mind := by
  rw [publishSeeds_eq, mind_applyAll]

/-! ### Iterations -/

/-- How many iterations were made. -/
def iterations (x : Exploration ω S P W) : Nat :=
  x.counts.iterations

variable (a : Analysis ω S P W)

omit [Waitlist W] [BEq S] [BEq P] in
theorem counts_isCovered (s : S) (p : P) (x : Exploration ω S P W) :
    (isCovered a s p x).2.counts = x.counts := by
  rw [isCovered, counts_timed, counts_ask, counts_start]

theorem iterations_settle (s : S) (p : P) (x : Exploration ω S P W) :
    (settle a s p x).2.iterations = x.iterations := by
  have hcounts := congrArg Statistics.iterations (counts_isCovered a s p x)
  unfold settle
  generalize isCovered a s p x = asked at hcounts ⊢
  obtain ⟨answer, y⟩ := asked
  match answer with
  | .error e => exact hcounts
  | .ok true => exact hcounts
  | .ok false => exact (congrArg Statistics.iterations (counts_publish ..)).trans hcounts

theorem iterations_settleHalt (s : S) (p : P) (x : Exploration ω S P W) :
    (settleHalt a s p x).2.iterations = x.iterations := by
  have hcounts := congrArg Statistics.iterations (counts_isCovered a s p x)
  unfold settleHalt
  generalize isCovered a s p x = asked at hcounts ⊢
  obtain ⟨answer, y⟩ := asked
  match answer with
  | .error e => exact hcounts
  | .ok true => exact hcounts
  | .ok false => exact (congrArg Statistics.iterations (counts_publish ..)).trans hcounts

omit [Waitlist W] [BEq P] in
theorem counts_scan (s : S) (p : P) (candidates : List Handle) (x : Exploration ω S P W) :
    (scan a s p candidates x).after.counts = x.counts := by
  induction candidates generalizing x with
  | nil => rfl
  | cons h rest ih =>
    unfold scan
    split
    · rfl
    · cases x.reached.state? h with
      | none => exact ih x
      | some old =>
        have hasked := counts_ask x (a.merge.merge s old p)
        simp only
        generalize x.ask (a.merge.merge s old p) = asked at hasked ⊢
        obtain ⟨answer, y⟩ := asked
        cases answer with
        | error e => exact hasked
        | ok new =>
          simp only
          split
          · exact (ih _).trans hasked
          · exact (ih y).trans hasked

theorem iterations_replace (p : P) (changed : List (Handle × S)) (x : Exploration ω S P W) :
    (replace p changed x).iterations = x.iterations := by
  cases changed <;> rfl

theorem iterations_mergeInto (s : S) (p : P) (x : Exploration ω S P W) :
    (mergeInto a s p x).2.iterations = x.iterations := by
  unfold mergeInto
  simp only
  split
  · rfl
  · rw [iterations, counts_stop]
    refine (iterations_replace p _ _).trans ?_
    rw [iterations, counts_scan, counts_start, counts_note]
    rfl

theorem iterations_handleSuccessor (source s : S) (p : P) (x : Exploration ω S P W) :
    (handleSuccessor a source s p x).2.iterations = x.iterations := by
  rw [handleSuccessor_eq]
  split
  · rfl
  · have hasked : (askAdjust a source s p x).2.iterations = x.iterations := by
      rw [askAdjust, iterations, counts_timed, counts_ask, counts_start, counts_note]
      rfl
    generalize askAdjust a source s p x = asked at hasked ⊢
    obtain ⟨answer, y⟩ := asked
    simp only at hasked
    rw [← hasked]
    match answer with
    | .error e => rfl
    | .ok none => rfl
    | .ok (some ⟨t, q, .halt⟩) => exact iterations_settleHalt a t q y
    | .ok (some ⟨t, q, .proceed⟩) =>
      show (mergeAndSettle a t q y).2.iterations = y.iterations
      unfold mergeAndSettle
      split
      · exact iterations_settle a t q y
      · have hmerged := iterations_mergeInto a t q y
        generalize mergeInto a t q y = merged at hmerged ⊢
        obtain ⟨abort, z⟩ := merged
        cases abort with
        | some e => exact hmerged
        | none => exact (iterations_settle a t q z).trans hmerged

theorem iterations_handleSuccessors (h : Handle) (source : S) (successors : List (S × P))
    (x : Exploration ω S P W) :
    (handleSuccessors a h source successors x).2.iterations = x.iterations := by
  induction successors generalizing x with
  | nil => rfl
  | cons pair rest ih =>
    have hfirst := iterations_handleSuccessor a source pair.1 pair.2 x
    unfold handleSuccessors
    generalize handleSuccessor a source pair.1 pair.2 x = handled at hfirst ⊢
    obtain ⟨flow, y⟩ := handled
    cases flow with
    | onward => exact (ih y).trans hfirst
    | halt => cases rest <;> exact hfirst
    | abort e => exact hfirst

theorem iterations_expand (h : Handle) (x : Exploration ω S P W) :
    (expand a h x).2.iterations = x.iterations := by
  unfold expand
  cases x.reached.get? h with
  | none => rfl
  | some pair =>
    obtain ⟨s, p⟩ := pair
    have hcovered : (forceCover a s p (x.note (.expanding s p))).2.iterations = x.iterations := by
      unfold forceCover
      cases a.cover with
      | none => rfl
      | some covering =>
        rw [iterations, counts_timed, counts_applyAll, counts_absorb, counts_start, counts_note]
        rfl
    simp only
    generalize forceCover a s p (x.note (.expanding s p)) = covered at hcovered ⊢
    obtain ⟨verdict, y⟩ := covered
    simp only at hcovered
    rw [← hcovered]
    match verdict with
    | .error e => rfl
    | .ok true => rfl
    | .ok false =>
      show (expandBy a h s p y).2.iterations = y.iterations
      unfold expandBy
      have hasked : (y.timed .transfer fun x => x.ask (a.transfer s p)).2.iterations =
          y.iterations := by
        rw [iterations, counts_timed, counts_ask, counts_start]
        rfl
      generalize y.timed .transfer (fun x => x.ask (a.transfer s p)) = asked at hasked ⊢
      obtain ⟨answer, z⟩ := asked
      cases answer with
      | error e => exact hasked
      | ok successors => exact (iterations_handleSuccessors a h s successors _).trans hasked

omit [BEq S] [BEq P] in
theorem iterations_popNext (x : Exploration ω S P W) :
    (popNext x).2.iterations = x.iterations + 1 := by
  rw [popNext, iterations, counts_timed, counts_pop, counts_start]
  rfl

/-- An iteration is counted if something waits and no shutdown was requested. -/
theorem iterations_step (x : Exploration ω S P W) :
    (step a x).2.iterations =
      x.iterations + if x.reached.hasWaiting && !x.shutdown.requested then 1 else 0 := by
  rw [step_eq]
  cases x.reached.hasWaiting with
  | false => rfl
  | true =>
    cases x.shutdown.requested with
    | true => rfl
    | false =>
      have hpopped := iterations_popNext x
      simp only [Bool.not_true, Bool.not_false, Bool.and_self, Bool.false_eq_true, if_false, if_true]
      generalize popNext x = popped at hpopped ⊢
      obtain ⟨h, y⟩ := popped
      cases h with
      | none => exact hpopped
      | some h =>
        have hexpanded : (expand a h (y.note (.retrieved h))).2.iterations = x.iterations + 1 :=
          (iterations_expand a h _).trans hpopped
        simp only
        generalize expand a h (y.note (.retrieved h)) = expanded at hexpanded ⊢
        obtain ⟨flow, z⟩ := expanded
        cases flow <;> exact hexpanded

/-! ### Runs -/

/-- A run is its iterations, but for what is noted and timed at the end. -/
theorem run_eq_iterate (limit : Nat) (x : Exploration ω S P W) :
    (x.run a limit).1 = (iterate a limit (x.start .total).publishSeeds).1.map
        (fun result => result.map fun t => ⟨a.status, t⟩) ∧
      (x.run a limit).2.mind = (iterate a limit (x.start .total).publishSeeds).2.mind ∧
      (x.run a limit).2.reached = (iterate a limit (x.start .total).publishSeeds).2.reached ∧
      (x.run a limit).2.counts = (iterate a limit (x.start .total).publishSeeds).2.counts := by
  unfold run
  generalize iterate a limit (x.start .total).publishSeeds = iterated
  obtain ⟨ended, y⟩ := iterated
  cases ended with
  | none => exact ⟨rfl, rfl, rfl, rfl⟩
  | some result => cases result <;> exact ⟨rfl, rfl, rfl, rfl⟩

/-- A run returns without an error if its iterations do, and ends as they end. -/
theorem run_ok_iff {limit : Nat} {x : Exploration ω S P W} {o : Outcome} :
    (x.run a limit).1 = some (.ok o) ↔ o.status = a.status ∧
      (iterate a limit (x.start .total).publishSeeds).1 = some (.ok o.termination) := by
  obtain ⟨status, termination⟩ := o
  rw [(run_eq_iterate a limit x).1]
  constructor
  · intro hended
    obtain ⟨result, hresult, hmapped⟩ := Option.map_eq_some_iff.1 hended
    cases result with
    | error e => cases hmapped
    | ok t =>
      cases hmapped
      exact ⟨rfl, hresult⟩
  · rintro ⟨rfl, hended⟩
    rw [hended]
    rfl

end Exploration
end Reachability
