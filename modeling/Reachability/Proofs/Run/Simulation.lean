import Reachability.Proofs.Run.Effect

/-! Explorations have the effects that `Run/Effect.lean` describes.

Each function of an exploration is followed through: what it leaves of the reached set
is related to the reached set it began with by the relation for that part of a run.
`run_effect` is the statement for a whole run. -/
namespace Reachability

/-- The result of a run that ends with an expansion. -/
def Flow.ending : Flow → Option (Except Abort Termination)
  | onward => none
  | halt => some (.ok .halted)
  | abort e => some (.error e)

namespace Exploration
variable {ω S P W α : Type} [AbstractState S]

@[simp] theorem reached_note (x : Exploration ω S P W) (e : Event S P) :
    (x.note e).reached = x.reached := rfl

@[simp] theorem reached_tally (x : Exploration ω S P W) (f : Statistics → Statistics) :
    (x.tally f).reached = x.reached := rfl

@[simp] theorem reached_start (x : Exploration ω S P W) (p : Phase) :
    (x.start p).reached = x.reached := rfl

@[simp] theorem reached_stop (x : Exploration ω S P W) (p : Phase) :
    (x.stop p).reached = x.reached := rfl

@[simp] theorem reached_requestShutdown (x : Exploration ω S P W) (reason : String) :
    (x.requestShutdown reason).reached = x.reached := by
  unfold requestShutdown
  obtain ⟨won, shutdown⟩ := x.shutdown.request reason
  cases won <;> rfl

@[simp] theorem reached_absorb (x : Exploration ω S P W) (r : Reply ω α) :
    (x.absorb r).reached = x.reached := by
  unfold absorb
  cases r.request with
  | none => rfl
  | some reason => exact reached_requestShutdown _ _

@[simp] theorem reached_ask (x : Exploration ω S P W) (question : Ask ω α) :
    (x.ask question).2.reached = x.reached :=
  reached_absorb x _

/-- A question is answered from what is remembered, and leaves the reached set alone. -/
theorem exists_ask (x : Exploration ω S P W) (question : Ask ω α) :
    ∃ y, x.ask question = ((question x.memory).result, y) ∧ y.reached = x.reached :=
  ⟨_, rfl, reached_ask x question⟩

theorem exists_timed_ask (x : Exploration ω S P W) (p : Phase)
    (question : Reached S P W → Ask ω α) :
    ∃ y, x.timed p (fun x => x.ask (question x.reached)) =
      ((question x.reached x.memory).result, y) ∧ y.reached = x.reached :=
  ⟨_, rfl, reached_ask (x.start p) (question x.reached)⟩

variable [Waitlist W]

variable [BEq S] [BEq P]

@[simp] theorem reached_apply (x : Exploration ω S P W) (op : Operation S P) :
    (x.apply op).reached = (x.reached.perform op).2 := rfl

@[simp] theorem reached_publish (x : Exploration ω S P W) (s : S) (p : P) :
    (x.publish s p).reached = (x.reached.add s p).2 := rfl

theorem reached_applyAll (ops : List (Operation S P)) (x : Exploration ω S P W) :
    (ops.foldl apply x).reached = x.reached.performAll ops := by
  induction ops generalizing x with
  | nil => rfl
  | cons op rest ih => exact ih (x.apply op)

end Exploration

namespace Effect
open Exploration

variable {ω S P W : Type} [AbstractState S] [BEq S] [Waitlist W] [BEq P] (a : Analysis ω S P W)

omit [Waitlist W] [BEq P] in
theorem scan_effect (s : S) (p : P) (candidates : List Handle) (x : Exploration ω S P W) :
    Scanned a s p x.reached candidates (scan a s p candidates x).changed
      (scan a s p candidates x).abort ∧ (scan a s p candidates x).after.reached = x.reached := by
  induction candidates generalizing x with
  | nil => exact ⟨.finished, rfl⟩
  | cons h rest ih =>
    unfold scan
    split
    · exact ⟨.interrupted, rfl⟩
    · cases hstate : x.reached.state? h with
      | none => exact ⟨.vanished hstate (ih x).1, (ih x).2⟩
      | some old =>
        obtain ⟨y, hask, hreached⟩ := exists_ask x (a.merge.merge s old p)
        simp only [hask]
        cases hmerge : (a.merge.merge s old p x.memory).result with
        | error e => exact ⟨.failed hstate hmerge, hreached⟩
        | ok new =>
          by_cases hsame : (new == old) = true
          · have hne : (new != old) = false := by simp [bne, hsame]
            obtain ⟨hscan, hafter⟩ := ih y
            simp only [hne, Bool.false_eq_true, if_false]
            rw [hreached] at hscan hafter
            exact ⟨.kept hstate hmerge hsame hscan, hafter⟩
          · have hdiffers : (new == old) = false := by simpa using hsame
            have hne : (new != old) = true := by simp [bne, hdiffers]
            obtain ⟨hscan, hafter⟩ := ih ((y.note (.mergedWith h)).note (.merged s old new))
            simp only [hne, if_true]
            rw [reached_note, reached_note, hreached] at hscan hafter
            exact ⟨.changed hstate hmerge hdiffers hscan, hafter⟩

theorem reached_replace (p : P) (changed : List (Handle × S)) (x : Exploration ω S P W) :
    (replace p changed x).reached =
      x.reached.update (changed.map Prod.fst) (changed.map fun c => (c.2, p)) := by
  cases changed <;> rfl

theorem mergeInto_effect (joins : a.merge.separates = false) (s : S) (p : P)
    (x : Exploration ω S P W) :
    Merged a s p x.reached (mergeInto a s p x).1 (mergeInto a s p x).2.reached := by
  unfold mergeInto
  simp only
  split
  · rename_i hempty
    have hnil : x.reached.handlesAt s = [] := List.isEmpty_iff.1 hempty
    have hscan : Scanned a s p x.reached (x.reached.handlesAt s) [] none := by
      rw [hnil]
      exact .finished
    exact .scanned joins hscan
  · have hscan := scan_effect a s p (x.reached.handlesAt s)
      ((x.note (.considering (x.reached.handlesAt s).length)).start .merge)
    obtain ⟨hscan, hafter⟩ := hscan
    simp only [reached_stop, reached_replace, hafter]
    exact .scanned joins hscan

omit [BEq S] [BEq P] [Waitlist W] in
theorem isCovered_effect (s : S) (p : P) (x : Exploration ω S P W) :
    ∃ y, isCovered a s p x = ((a.stop s (y.reached.statesAt s) p x.memory).result, y) ∧
      y.reached = x.reached := by
  obtain ⟨y, hasked, hy⟩ := exists_timed_ask x .stop fun r => a.stop s (r.statesAt s) p
  exact ⟨y, by rw [hy]; exact hasked, hy⟩

theorem settle_effect (s : S) (p : P) (x : Exploration ω S P W) :
    Settled a s p .onward x.reached (settle a s p x).1 (settle a s p x).2.reached := by
  obtain ⟨y, hcovered, hy⟩ := isCovered_effect a s p x
  unfold settle
  simp only [hcovered]
  rw [← hy]
  cases hstop : (a.stop s (y.reached.statesAt s) p x.memory).result with
  | error e => exact .undecided hstop
  | ok covered =>
    cases covered with
    | true => exact .covered hstop
    | false => exact .published hstop

theorem settleHalt_effect (s : S) (p : P) (x : Exploration ω S P W) :
    Settled a s p .halt x.reached (settleHalt a s p x).1 (settleHalt a s p x).2.reached := by
  obtain ⟨y, hcovered, hy⟩ := isCovered_effect a s p x
  unfold settleHalt
  simp only [hcovered]
  rw [← hy]
  cases hstop : (a.stop s (y.reached.statesAt s) p x.memory).result with
  | error e => exact .undecided hstop
  | ok covered =>
    cases covered with
    | true => exact .covered hstop
    | false => exact .published hstop

theorem handleSuccessor_effect (source s : S) (p : P) (x : Exploration ω S P W) :
    Treated a s p x.reached (handleSuccessor a source s p x).1
      (handleSuccessor a source s p x).2.reached := by
  unfold handleSuccessor
  split
  · exact .interrupted
  · obtain ⟨y, hadjust, hy⟩ := exists_timed_ask (x.note (.successor source s)) .adjust (a.adjust s p)
    simp only [hadjust]
    rw [reached_note] at hy ⊢
    rw [← hy]
    cases hresult : (a.adjust s p y.reached (x.note (.successor source s)).memory).result with
    | error e => exact .unadjusted hresult
    | ok adjusted =>
      match adjusted with
      | none => exact .pruned hresult
      | some ⟨t, q, .halt⟩ => exact .halting hresult (settleHalt_effect a t q y)
      | some ⟨t, q, .proceed⟩ =>
        show Treated a s p y.reached (mergeAndSettle a t q y).1 (mergeAndSettle a t q y).2.reached
        unfold mergeAndSettle
        by_cases hsep : a.merge.separates = true
        · rw [if_pos hsep]
          exact .proceeding hresult (.spared hsep) (settle_effect a t q y)
        · have hmerge := mergeInto_effect a (by simpa using hsep) t q y
          rw [if_neg hsep]
          generalize mergeInto a t q y = merged at hmerge ⊢
          obtain ⟨abort, z⟩ := merged
          cases abort with
          | some e => exact .unmerged hresult hmerge
          | none => exact .proceeding hresult hmerge (settle_effect a t q z)

theorem handleSuccessors_effect (h : Handle) (source : S) (successors : List (S × P))
    (x : Exploration ω S P W) :
    TreatedAll a h successors x.reached (handleSuccessors a h source successors x).1
      (handleSuccessors a h source successors x).2.reached := by
  induction successors generalizing x with
  | nil => exact .finished
  | cons pair rest ih =>
    obtain ⟨s, p⟩ := pair
    have hfirst := handleSuccessor_effect a source s p x
    unfold handleSuccessors
    generalize handleSuccessor a source s p x = handled at hfirst ⊢
    obtain ⟨flow, y⟩ := handled
    cases flow with
    | onward => exact .next hfirst (ih y)
    | halt =>
      cases rest with
      | nil => exact .haltedLast hfirst
      | cons next others => exact .halted hfirst (List.cons_ne_nil _ _)
    | abort e => exact .abandoned hfirst

theorem forceCover_effect (s : S) (p : P) (x : Exploration ω S P W) :
    Attempted a s p x.reached (forceCover a s p x).1 (forceCover a s p x).2.reached := by
  unfold forceCover
  cases hcover : a.cover with
  | none => exact .absent hcover
  | some c =>
    simp only [timed, reached_stop, reached_applyAll, reached_absorb, reached_start]
    exact .made hcover

theorem expand_effect (h : Handle) (x : Exploration ω S P W) :
    Expanded a h x.reached (expand a h x).1 (expand a h x).2.reached := by
  unfold expand
  cases hpair : x.reached.get? h with
  | none => exact .nothing hpair
  | some pair =>
    obtain ⟨s, p⟩ := pair
    have hcover := forceCover_effect a s p (x.note (.expanding s p))
    rw [reached_note] at hcover
    simp only
    generalize forceCover a s p (x.note (.expanding s p)) = covered at hcover ⊢
    obtain ⟨verdict, y⟩ := covered
    match verdict with
    | .error e => exact .unattempted hpair hcover
    | .ok true => exact .forced hpair hcover
    | .ok false =>
      show Expanded a h x.reached (expandBy a h s p y).1 (expandBy a h s p y).2.reached
      unfold expandBy
      obtain ⟨z, htransfer, hz⟩ := exists_timed_ask y .transfer fun _ => a.transfer s p
      simp only [htransfer]
      cases hresult : (a.transfer s p y.memory).result with
      | error e =>
        simp only [hz]
        exact .failed hpair hcover hresult
      | ok successors =>
        have htreated := handleSuccessors_effect a h s successors
          ((z.note (.succeeded h successors.length)).tally fun s =>
            {s with successors := s.successors + successors.length
                    maxSuccessors := max s.maxSuccessors successors.length})
        rw [reached_tally, reached_note, hz] at htreated
        exact .expanded hpair hcover hresult htreated

theorem step_effect (x : Exploration ω S P W) :
    Stepped a x.reached (step a x).1 (step a x).2.reached := by
  unfold step
  split
  · rename_i hidle
    exact .exhausted (by simpa using hidle)
  · split
    · exact .interrupted
    · have htimed : x.countIteration.timed .choose Exploration.pop =
          (x.reached.pop.1, (x.countIteration.timed .choose Exploration.pop).2) := rfl
      have hreached : (x.countIteration.timed .choose Exploration.pop).2.reached =
          x.reached.pop.2 := rfl
      rw [htimed]
      generalize (x.countIteration.timed .choose Exploration.pop).2 = y at hreached
      cases hpop : x.reached.pop with
      | mk popped r₁ =>
        rw [hpop] at hreached
        cases popped with
        | none =>
          simp only [hreached]
          exact .drained hpop
        | some h =>
          have hexpand := expand_effect a h (y.note (.retrieved h))
          rw [reached_note, hreached] at hexpand
          simp only
          generalize expand a h (y.note (.retrieved h)) = expanded at hexpand ⊢
          obtain ⟨flow, z⟩ := expanded
          cases flow with
          | onward => exact .onward hpop hexpand
          | halt => exact .halted hpop hexpand
          | abort e => exact .abandoned hpop hexpand

theorem iterate_effect (limit : Nat) (x : Exploration ω S P W) (result : Except Abort Termination)
    (hresult : (iterate a limit x).1 = some result) :
    Iterated a x.reached result (iterate a limit x).2.reached := by
  induction limit generalizing x with
  | zero => cases hresult
  | succ limit ih =>
    have hstep := step_effect a x
    unfold iterate at hresult ⊢
    generalize step a x = stepped at hstep hresult ⊢
    obtain ⟨ended, y⟩ := stepped
    cases ended with
    | some result' =>
      cases hresult
      exact .ended hstep
    | none => exact .more hstep (ih y hresult)

/-! ### Runs -/

end Effect

/-- The reached set once its seeds are published. -/
def Reached.drain {S P W : Type} [AbstractState S] [Waitlist W] [BEq S] [BEq P]
    (r : Reached S P W) : Reached S P W :=
  r.seeds.foldl (fun r (s, p) => (r.add s p).2) r.takeSeeds.2

namespace Exploration
variable {ω S P W : Type} [AbstractState S] [Waitlist W] [BEq S] [BEq P]

theorem reached_addAll (seeds : List (S × P)) (x : Exploration ω S P W) :
    (seeds.foldl (fun x (s, p) => x.apply (.add s p)) x).reached =
      seeds.foldl (fun r (s, p) => (r.add s p).2) x.reached := by
  induction seeds generalizing x with
  | nil => rfl
  | cons pair rest ih => exact ih (x.apply (.add pair.1 pair.2))

@[simp] theorem reached_publishSeeds (x : Exploration ω S P W) :
    x.publishSeeds.reached = x.reached.drain :=
  reached_addAll x.reached.seeds (x.apply .takeSeeds)

omit [BEq S] [BEq P] in
@[simp] theorem reached_conclude (result : Except Abort Outcome) (x : Exploration ω S P W) :
    (conclude result x).reached = x.reached := by
  cases result <;> rfl

/-- A run that ends publishes its seeds and iterates. -/
theorem run_effect (a : Analysis ω S P W) {limit : Nat} {x y : Exploration ω S P W}
    {result : Except Abort Outcome} (hrun : x.run a limit = (some result, y)) :
    ∃ t, Effect.Iterated a x.reached.drain t y.reached ∧
      result = t.map fun t => { status := a.status, termination := t } := by
  have hiterate := Effect.iterate_effect a limit (x.start .total).publishSeeds
  unfold run at hrun
  generalize iterate a limit (x.start .total).publishSeeds = iterated at hiterate hrun
  obtain ⟨ended, z⟩ := iterated
  cases ended with
  | none => cases hrun
  | some t =>
    cases hrun
    refine ⟨t, ?_, rfl⟩
    rw [reached_conclude]
    simpa using hiterate t rfl

/-! ### Runs with nothing to do -/

theorem publishSeeds_of_seeds_eq_nil {x : Exploration ω S P W} (h : x.reached.seeds = []) :
    x.publishSeeds = x := by
  obtain ⟨⟨reached, journal⟩, memory, shutdown, statistics, clock⟩ := x
  obtain ⟨arena, partitions, waitlist, seeds, first, last⟩ := reached
  subst h
  simp [publishSeeds, Exploration.reached, apply, Trail.apply, Trail.perform, Reached.perform,
    Reached.takeSeeds, Reached.events, Journal.noteAll]

/-- Where nothing waits and no seed is pending, a run is exhausted at once. It asks no
operator, and all that it does is to note how it ended. -/
theorem run_of_idle (a : Analysis ω S P W) (limit : Nat) {x : Exploration ω S P W}
    (hseeds : x.reached.seeds = []) (hidle : x.reached.hasWaiting = false) :
    x.run a (limit + 1) =
      (some (.ok ⟨a.status, .exhausted⟩), conclude (.ok ⟨a.status, .exhausted⟩) (x.start .total)) := by
  have hpublish : (x.start .total).publishSeeds = x.start .total :=
    publishSeeds_of_seeds_eq_nil hseeds
  have hstep : step a (x.start .total) = (some (.ok .exhausted), x.start .total) := by
    unfold step
    rw [reached_start, hidle]
    rfl
  simp only [run, hpublish, iterate, hstep]
  rfl

end Exploration
end Reachability
