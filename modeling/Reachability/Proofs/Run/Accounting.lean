import Reachability.Counter.Report
import Reachability.Proofs.Graph.Sweep
import Reachability.Proofs.Run.Outcomes

/-! The statistics add up.

What is started is stopped, whichever operator gives up, so that no timer is ever misused; and
what a part of an iteration owes, the next parts pay (`InBalance`), so that between runs the
statistics balance (`Analysis.AfterRuns`). How often forced covering failed is read off the
transcripts of the runs. -/
namespace Reachability

open Exploration
open Statistics (Debt)

variable {ω S P W : Type} [AbstractState S]

namespace Exploration

/-- In the middle of a run that has a transcript. The failures of earlier runs count as well. -/
structure InBalance (a : Analysis ω S P W) (runs earlier : Nat) (debt : Debt)
    (x : Exploration (WithTranscript ω S P W) S P W) : Prop where
  ready : x.statistics.Ready
  balanced : Statistics.Balanced (a.cover.isSome = true) runs (earlier + x.failures) debt
    x.statistics.intervals x.counts

variable {x y : Exploration (WithTranscript ω S P W) S P W}

theorem InBalance.congr {a : Analysis ω S P W} {runs earlier : Nat} {debt : Debt}
    (hx : x.InBalance a runs earlier debt) (hstatistics : y.statistics = x.statistics)
    (hfailures : y.failures = x.failures) : y.InBalance a runs earlier debt := by
  refine ⟨?_, ?_⟩
  · rw [hstatistics]
    exact hx.ready
  · rw [counts, hstatistics, hfailures]
    exact hx.balanced

/-- Dealing with successors pays what they owe. -/
theorem InBalance.handled {a : Analysis ω S P W} {runs earlier n : Nat}
    (hx : x.InBalance a runs earlier { successors := n }) (h : Handled n n x y) :
    y.InBalance a runs earlier {} := by
  refine ⟨h.ready, ?_⟩
  rw [h.failures]
  exact hx.balanced.settles h.standing h.checks h.coveredHalts h.outcomes

/-! ### Iterations -/

variable [Waitlist W] [BEq S] [BEq P]

theorem statistics_applyAll (ops : List (Operation S P)) (x : Exploration ω S P W) :
    (ops.foldl apply x).statistics = x.statistics ∧ (ops.foldl apply x).clock = x.clock := by
  induction ops generalizing x with
  | nil => exact ⟨rfl, rfl⟩
  | cons op rest ih => exact ih (x.apply op)

theorem failures_applyAll (ops : List (Operation S P))
    (x : Exploration (WithTranscript ω S P W) S P W) : (ops.foldl apply x).failures = x.failures := by
  rw [failures, transcript_congr (mind_applyAll ops x)]
  rfl

/-- Forced covering takes one interval, and is in the transcript. -/
theorem exists_time_forceCover {a : Analysis ω S P W} {c : Covering ω S P (Reached S P W)}
    (hcover : a.cover = some c) (s : S) (p : P) (hx : x.statistics.Ready) :
    ∃ time, (forceCover a.transcribed s p x).2.statistics = x.statistics.measure .cover time ∧
      (forceCover a.transcribed s p x).2.failures = x.failures +
        if (Exchange.cover s p x.reached (forceCover a.transcribed s p x).1).coverFails then 1
        else 0 := by
  simp only [forceCover, Analysis.transcribed, hcover, Option.map_some]
  refine ⟨(c.attempt s p x.reached x.memory.1).reply.elapsed,
    statistics_timed _ (hx.idle .cover (by decide)) ?_ ?_, ?_⟩
  · exact (statistics_applyAll _ _).1.trans (absorb_statistics _ _).1
  · exact (statistics_applyAll _ _).2.trans (absorb_statistics _ _).2
  · exact (failures_applyAll _ _).trans
      (failures_of_transcript (transcript_absorb (x.start .cover) _))

namespace InBalance
variable {a : Analysis ω S P W} {runs earlier : Nat}

/-- Forced covering is asked once, if there is one. If it fails, the iteration is over. -/
theorem forceCover (hx : x.InBalance a runs earlier { covers := 1, transfers := 1 }) (s : S) (p : P) :
    match Exploration.forceCover a.transcribed s p x with
    | (.error _, y) => y.InBalance a runs earlier {}
    | (.ok _, y) => y.InBalance a runs earlier { transfers := 1 } := by
  cases hcover : a.cover with
  | none =>
    have hnone : ¬ a.cover.isSome = true := by simp [hcover]
    simp only [Exploration.forceCover, Analysis.transcribed, hcover, Option.map_none]
    exact ⟨hx.ready, hx.balanced.unasked hnone⟩
  | some c =>
    obtain ⟨time, hstatistics, hfailures⟩ := exists_time_forceCover hcover s p hx.ready
    have hasked := hx.balanced.asks
    rw [← Statistics.intervals_measure x.statistics .cover time] at hasked
    generalize Exploration.forceCover a.transcribed s p x = attempted at hstatistics hfailures ⊢
    obtain ⟨answer, y⟩ := attempted
    have hready : y.statistics.Ready := hstatistics ▸ hx.ready.measure (p := .cover) (by decide) time
    cases answer with
    | error e =>
      refine ⟨hready, ?_⟩
      rw [counts, hstatistics, show y.failures = x.failures + 1 from hfailures, ← Nat.add_assoc]
      exact hasked.fails
    | ok covered =>
      refine ⟨hready, ?_⟩
      rw [counts, hstatistics, show y.failures = x.failures from hfailures]
      exact hasked

/-- The transfer relation is asked once, and its successors are dealt with. -/
theorem expandBy (hx : x.InBalance a runs earlier { transfers := 1 }) (h : Handle) (s : S) (p : P) :
    (Exploration.expandBy a.transcribed h s p x).2.InBalance a runs earlier {} := by
  obtain ⟨time, hstatistics⟩ := statistics_timed_ask
    (fun _ => a.transcribed.transfer s p) (hx.ready.idle .transfer (by decide))
  have hfailures : (x.timed .transfer fun x => x.ask (a.transcribed.transfer s p)).2.failures =
      x.failures := failures_of_transcript (e := .transfer s p (a.transfer s p x.memory.1).result)
    (transcript_absorb (x.start .transfer) _)
  have hready := hx.ready.measure (p := .transfer) (by decide) time
  unfold Exploration.expandBy
  generalize x.timed .transfer (fun x => x.ask (a.transcribed.transfer s p)) = asked
    at hstatistics hfailures ⊢
  obtain ⟨answer, y⟩ := asked
  replace hstatistics : y.statistics = x.statistics.measure .transfer time := hstatistics
  replace hfailures : y.failures = x.failures := hfailures
  have hcounts : y.counts = x.counts := by
    rw [counts, hstatistics]
    rfl
  -- A transfer that fails has no successors.
  have hpaid : ∀ n, Statistics.Balanced (a.cover.isSome = true) runs (earlier + y.failures)
      { successors := n } y.statistics.intervals
      {y.counts with
        successors := y.counts.successors + n
        maxSuccessors := max y.counts.maxSuccessors n} := fun n => by
    rw [hcounts, hfailures, hstatistics, Statistics.intervals_measure]
    exact hx.balanced.expands n
  cases answer with
  | error e =>
    refine ⟨hstatistics ▸ hready, ?_⟩
    have hnone := hpaid 0
    rwa [Nat.add_zero, Nat.max_zero] at hnone
  | ok successors =>
    have hcounted : ((y.note (.succeeded h successors.length)).tally fun s =>
        {s with
          successors := s.successors + successors.length
          maxSuccessors := max s.maxSuccessors successors.length}).InBalance a runs earlier
        { successors := successors.length } := by
      refine ⟨?_, hpaid successors.length⟩
      exact (hstatistics ▸ hready : y.statistics.Ready).congr rfl rfl
    exact hcounted.handled (handled_handleSuccessors a h s successors hcounted.ready)

/-- The pair that an iteration has taken out is covered by force, or expanded. -/
theorem expand (hx : x.InBalance a runs earlier { covers := 1, transfers := 1 }) {h : Handle}
    {s : S} {p : P} (hpair : x.reached.get? h = some (s, p)) :
    (Exploration.expand a.transcribed h x).2.InBalance a runs earlier {} := by
  have hnoted : (x.note (.expanding s p)).InBalance a runs earlier { covers := 1, transfers := 1 } :=
    hx.congr rfl rfl
  have hforced := hnoted.forceCover s p
  unfold Exploration.expand
  simp only [hpair]
  generalize Exploration.forceCover a.transcribed s p (x.note (.expanding s p)) = attempted
    at hforced ⊢
  obtain ⟨answer, y⟩ := attempted
  match answer with
  | .error e => exact hforced
  | .ok true => exact ⟨hforced.ready.congr rfl rfl, hforced.balanced.forces⟩
  | .ok false => exact hforced.expandBy h s p

end InBalance

/-! ### Runs -/

section Frontier
variable {a : Analysis ω S P Frontier} {runs failed : Nat}

namespace InBalance
variable {x : Exploration (WithTranscript ω S P Frontier) S P Frontier}

omit [BEq S] [BEq P] in
/-- A pair is taken out, and the iteration is counted with what was waiting. -/
theorem popNext (hx : x.InBalance a runs failed {}) (hwaiting : x.reached.hasWaiting = true) :
    (popNext x).2.InBalance a runs failed { covers := 1, transfers := 1 } := by
  have hsize : 0 < x.reached.waitlistSize := Nat.pos_of_ne_zero fun hnone => by
    simp [Reached.hasWaiting, Waitlist.isEmpty, ← Reached.waitlistSize.eq_1, hnone] at hwaiting
  have hready : x.countIteration.statistics.Ready := hx.ready.congr rfl rfl
  have hstatistics : (Exploration.popNext x).2.statistics =
      x.countIteration.statistics.measure .choose 0 :=
    statistics_timed pop (hready.idle .choose (by decide)) rfl rfl
  refine ⟨hstatistics ▸ hready.measure (p := .choose) (by decide) 0, ?_⟩
  rw [counts, hstatistics, Statistics.intervals_measure]
  exact (hx.balanced.iterates hsize).chooses

theorem step (hx : x.InBalance a runs failed {}) (hr : x.reached.Consistent) :
    (Exploration.step a.transcribed x).2.InBalance a runs failed {} := by
  rw [step_eq]
  cases hwaiting : x.reached.hasWaiting with
  | false => exact hx
  | true =>
    cases hrequested : x.shutdown.requested with
    | true => exact hx
    | false =>
      obtain ⟨h, s, p, r, hpop, -, hpair, -, -⟩ := hr.exists_pop hwaiting
      have hpopped := hx.popNext hwaiting
      have hreached : (Exploration.popNext x).2.reached = r := congrArg Prod.snd hpop
      have hfirst : (Exploration.popNext x).1 = some h := congrArg Prod.fst hpop
      rw [← Prod.eta (Exploration.popNext x), hfirst]
      generalize (Exploration.popNext x).2 = y at hpopped hreached ⊢
      subst hreached
      have hexpanded := (hpopped.congr (y := y.note (.retrieved h)) rfl rfl).expand hpair
      simp only [Bool.not_true, Bool.false_eq_true, if_false]
      generalize Exploration.expand a.transcribed h (y.note (.retrieved h)) = expanded
        at hexpanded ⊢
      obtain ⟨flow, z⟩ := expanded
      cases flow with
      | onward => exact hexpanded
      | halt => exact hexpanded
      | abort e => exact hexpanded.congr rfl rfl

theorem iterate (hx : x.InBalance a runs failed {}) (hr : x.reached.Consistent) (limit : Nat) :
    (Exploration.iterate a.transcribed limit x).2.InBalance a runs failed {} := by
  induction limit generalizing x with
  | zero => exact hx
  | succ limit ih =>
    have hstepped := hx.step hr
    have hreached := reached_step a.transcribed x
    unfold Exploration.iterate
    generalize Exploration.step a.transcribed x = stepped at hstepped hreached ⊢
    obtain ⟨ended, y⟩ := stepped
    cases ended with
    | some result => exact hstepped
    | none =>
      refine ih hstepped ?_
      rw [show y.reached = _ from hreached]
      exact hr.performAll _

omit [BEq S] [BEq P] in
/-- All timers are stopped. -/
theorem conclude (hx : x.InBalance a runs failed {}) (result : Except Abort Outcome) :
    (Exploration.conclude result x).statistics.AtRest ∧
      Statistics.Balanced (a.cover.isSome = true) (runs + 1)
        (failed + (Exploration.conclude result x).failures) {}
        (Exploration.conclude result x).statistics.intervals
        (Exploration.conclude result x).counts := by
  have hstatistics : (Exploration.conclude result x).statistics =
      {x.statistics with timers := x.statistics.timers.stopAll x.clock} := by
    cases result <;> rfl
  have hfailures : (Exploration.conclude result x).failures = x.failures := by
    cases result <;> rfl
  obtain ⟨hstopped, hintervals⟩ := hx.ready.stopAll x.clock
  rw [counts_conclude, hstatistics, hfailures, hintervals]
  exact ⟨hstopped, hx.balanced.concludes⟩

end InBalance

/-- How often forced covering gives up during a run, by the transcript of the same run
(`mirrored_transcribed_run`). -/
def failedCovers (a : Analysis ω S P Frontier) (limit : Nat) (x : Exploration ω S P Frontier) : Nat :=
  (x.untranscribed.run a.transcribed limit).2.failures

variable {x : Exploration ω S P Frontier}

/-- The timer for the whole run is started, and the seeds are published. -/
theorem inBalance_publishSeeds (hrest : x.statistics.AtRest)
    (hx : Statistics.Balanced (a.cover.isSome = true) runs failed {} x.statistics.intervals x.counts) :
    (x.untranscribed.start .total).publishSeeds.InBalance a runs failed {} := by
  obtain ⟨hready, hintervals⟩ := hrest.start x.clock
  have hstarted : (x.untranscribed.start .total).InBalance a runs failed {} := by
    refine ⟨hready, ?_⟩
    rw [counts_start]
    exact hintervals ▸ hx
  rw [publishSeeds_eq]
  exact hstarted.congr (statistics_applyAll _ _).1 (failures_applyAll _ _)

/-- Whatever happens in a run, no timer is misused, and the statistics balance again when it
ends. -/
theorem balanced_run (hrest : x.statistics.AtRest)
    (hx : Statistics.Balanced (a.cover.isSome = true) runs failed {} x.statistics.intervals x.counts)
    (hr : x.reached.Consistent) (limit : Nat) :
    (x.run a limit).2.statistics.misuse = none ∧
      ∀ result, (x.run a limit).1 = some result →
        (x.run a limit).2.statistics.AtRest ∧
          Statistics.Balanced (a.cover.isSome = true) (runs + 1) (failed + x.failedCovers a limit) {}
            (x.run a limit).2.statistics.intervals (x.run a limit).2.counts := by
  obtain ⟨hresult, hmirrored⟩ := mirrored_transcribed_run a limit x
  rw [counts, failedCovers, ← hresult, ← hmirrored.statistics]
  have hbefore := inBalance_publishSeeds hrest hx
  have hconsistent : (x.untranscribed.start .total).publishSeeds.reached.Consistent := by
    rw [reached_publishSeeds, reached_start]
    exact hr.drain
  have hiterated := hbefore.iterate hconsistent limit
  unfold run
  generalize Exploration.iterate a.transcribed limit _ = iterated at hiterated ⊢
  obtain ⟨ended, y⟩ := iterated
  cases ended with
  | none => exact ⟨hiterated.ready.misuse, nofun⟩
  | some result =>
    have hconcluded := hiterated.conclude (result.map fun t => ⟨a.status, t⟩)
    exact ⟨hconcluded.1.misuse, fun _ _ => hconcluded⟩

end Frontier

end Exploration

/-! ### Sequences of runs -/

/-- So many runs of an analysis, each on any reached set with a built-in order and with whatever
its operators remember by then, leave these statistics, after so many failures of forced
covering. -/
inductive Analysis.AfterRuns [BEq S] [BEq P] (a : Analysis ω S P Frontier) :
    Nat → Nat → Statistics → Prop
  | fresh : AfterRuns a 0 0 {}
  | run {runs failed limit : Nat} {o : TraversalOrder} {x : Exploration ω S P Frontier}
      {result : Except Abort Outcome} (before : AfterRuns a runs failed x.statistics)
      (reached : Reached.Evolves (.ofOrder o) x.reached)
      (ended : (x.run a limit).1 = some result) :
      AfterRuns a (runs + 1) (failed + x.failedCovers a limit) (x.run a limit).2.statistics

namespace Analysis.AfterRuns
variable [BEq S] [BEq P] {a : Analysis ω S P Frontier} {runs failed : Nat} {s : Statistics}

theorem balanced (h : a.AfterRuns runs failed s) :
    s.AtRest ∧ Statistics.Balanced (a.cover.isSome = true) runs failed {} s.intervals s.counts := by
  induction h with
  | fresh => exact ⟨⟨rfl, fun p => by cases p <;> rfl⟩, .fresh⟩
  | run before reached ended ih =>
    exact (balanced_run ih.1 ih.2 (reached.consistent (.ofOrder _)) _).2 _ ended

/-- **Between runs the statistics add up**, whatever the operators did, and in the next run no
timer is misused, whether it ends or not. -/
theorem statistics_add_up (h : a.AfterRuns runs failed s) :
    s.Accounts (a.cover.isSome = true) runs failed ∧
      ∀ (x : Exploration ω S P Frontier) (o : TraversalOrder) (limit : Nat), x.statistics = s →
        Reached.Evolves (.ofOrder o) x.reached → (x.run a limit).2.statistics.misuse = none := by
  obtain ⟨hrest, hbalanced⟩ := h.balanced
  refine ⟨hrest.accounts hbalanced, fun x o limit hs hreached => ?_⟩
  subst hs
  exact (balanced_run hrest hbalanced (hreached.consistent (.ofOrder o)) limit).1

end Analysis.AfterRuns

/-! In the demonstration, forced covering gives up the first time it is asked. The run that resumes
the exploration expands the start of the program, and then it is covered by force. -/
namespace Counter

def hesitant : Analysis Nat Interval Unit Frontier where
  transfer s _ := pure ((Program.successors ⟨2, none⟩ s).map fun t => (t, ()))
  merge := .separate
  stop := Stop.separate Interval.domain.lift.toComparison
  cover := some { attempt := fun _ _ _ asked =>
    { reply :=
        { result := if asked = 0 then .error (.transferFailed ⟨"L0", "no idea"⟩) else .ok (asked == 2)
          memory := asked + 1 } } }

def beforeHesitation : Exploration Nat Interval Unit Frontier where
  trail := (initial { bound := 2 }).trail
  memory := 0

def hesitation : Option (Except Abort Outcome) × Exploration Nat Interval Unit Frontier :=
  beforeHesitation.run hesitant 10

def resumption : Option (Except Abort Outcome) × Exploration Nat Interval Unit Frontier :=
  hesitation.2.run hesitant 10

theorem resumption_accounts :
    hesitant.AfterRuns 2 1 resumption.2.statistics ∧
      resumption.2.statistics.Accounts (hesitant.cover.isSome = true) 2 1 ∧
      resumption.2.statistics.iterations = 3 ∧ resumption.2.statistics.forced = 1 ∧
      (resumption.2.run hesitant 10).2.statistics.misuse = none := by
  have hseeded : Reached.Evolves (.ofOrder .breadthFirst) beforeHesitation.reached :=
    .perform _ (.addInitial seed ())
  have hevolved : ∀ x : Exploration Nat Interval Unit Frontier,
      Reached.Evolves (.ofOrder .breadthFirst) x.reached →
        Reached.Evolves (.ofOrder .breadthFirst) (x.run hesitant 10).2.reached := fun x hx =>
    hx.trans ⟨_, reached_run hesitant 10 x⟩
  have hfailed : 0 + beforeHesitation.failedCovers hesitant 10 +
      hesitation.2.failedCovers hesitant 10 = 1 := by decide +kernel
  have hgaveUp : hesitation.1 = some (.error (.transferFailed ⟨"L0", "no idea"⟩)) := rfl
  have hexhausted : resumption.1 = some (.ok ⟨.soundAndPrecise, .exhausted⟩) := rfl
  have hruns : hesitant.AfterRuns 2 1 resumption.2.statistics :=
    hfailed ▸ .run (.run .fresh hseeded hgaveUp) (hevolved _ hseeded) hexhausted
  obtain ⟨haccounts, hnext⟩ := Analysis.AfterRuns.statistics_add_up hruns
  exact ⟨hruns, haccounts, by decide +kernel, by decide +kernel,
    hnext _ .breadthFirst 10 rfl (hevolved _ (hevolved _ hseeded))⟩

end Counter
end Reachability
