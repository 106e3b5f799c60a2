import Reachability.Counter.Program
import Reachability.Proofs.Deferred.Shadow
import Reachability.Proofs.Run.Counters

/-! Runs over a waitlist that keeps what was removed.

Two explorations do the same as long as their operators remember the same and see the same, and
operators that do not look into the waitlist see the same in both reached sets. So the parts of
both runs have the same script and the same results, one part after the other. Only the end of a
run differs: what is left in the lazy waitlist may name nothing any more, and then one more pop
is made to find that out. If a shutdown had been requested by then, this run would be
interrupted where the other is exhausted. -/
namespace Reachability

open Reached (prompt deferring Few)

variable {ω S P α : Type} [AbstractState S]

/-! ### Twins -/

/-- The same analysis over two waitlists. The operators see the same as long as the reached sets
do not differ but in their waitlists. -/
structure Analysis.Counterpart [Waitlist W] [Waitlist W'] (a : Analysis ω S P W)
    (b : Analysis ω S P W') : Prop where
  transfer : b.transfer = a.transfer
  merge : b.merge = a.merge
  stop : b.stop = a.stop
  adjust : ∀ {r r'} s p, Reached.Agrees r r' → b.adjust s p r' = a.adjust s p r
  cover : Option.Rel (fun c c' => ∀ {r r'} s p, Reached.Agrees r r' →
    c'.attempt s p r' = c.attempt s p r) a.cover b.cover
  status : b.status = a.status

/-- Both did the same so far, and have the same in mind. -/
structure Twin [BEq S] [BEq P] (ops : List (Operation S P)) (x : Exploration ω S P Fifo)
    (y : Exploration ω S P Deferred) : Prop where
  mind : y.mind = x.mind
  prompt : x.reached = prompt.performAll ops
  deferring : y.reached = deferring.performAll ops

/-- Parts of two explorations that come to the same result, performing the same operations. -/
structure Twin.Along [BEq S] [BEq P] (ops : List (Operation S P))
    (u : α × Exploration ω S P Fifo) (v : α × Exploration ω S P Deferred) : Prop where
  result : v.1 = u.1
  twin : Twin ops u.2 v.2

/-- Parts that go on from `x` and `y` and come to the same result, the second after at most one
more pop. Both count the same iterations, and the second counts one for that pop. -/
structure Twin.Outlasts [BEq S] [BEq P] (ops : List (Operation S P)) (x : Exploration ω S P Fifo)
    (y : Exploration ω S P Deferred) (u : α × Exploration ω S P Fifo)
    (v : α × Exploration ω S P Deferred) (n late : Nat) : Prop where
  result : v.1 = u.1
  bound : late ≤ 1
  twin : Twin (ops ++ List.replicate late .pop) u.2 v.2
  iterations : u.2.iterations = x.iterations + n
  iterations' : v.2.iterations = y.iterations + n + late

namespace Twin
open Exploration

variable [BEq S] [BEq P] {ops : List (Operation S P)} {x : Exploration ω S P Fifo}
  {y : Exploration ω S P Deferred}

theorem Along.exists_eq {u : α × Exploration ω S P Fifo} {v : α × Exploration ω S P Deferred}
    (h : Along ops u v) : ∃ result x y, u = (result, x) ∧ v = (result, y) ∧ Twin ops x y :=
  ⟨u.1, u.2, v.2, rfl, Prod.ext h.result rfl, h.twin⟩

/-- Where nothing is performed. -/
theorem done (h : Twin ops x y) : Twin (ops ++ []) x y := by
  rwa [List.append_nil]

theorem shadows (h : Twin ops x y) (few : Few ops) : ∃ k, Reached.Shadows k x.reached y.reached := by
  rw [h.prompt, h.deferring]
  exact few.shadows.2

theorem agrees (h : Twin ops x y) (few : Few ops) : x.reached.Agrees y.reached := by
  obtain ⟨k, hshadows⟩ := h.shadows few
  exact hshadows.agrees

theorem memory (h : Twin ops x y) : y.memory = x.memory :=
  congrArg Prod.fst h.mind

theorem shutdown (h : Twin ops x y) : y.shutdown = x.shutdown :=
  congrArg Prod.snd h.mind

/-- What leaves the reached set and the mind alone makes no difference. -/
theorem congr (h : Twin ops x y) {u : Exploration ω S P Fifo} {v : Exploration ω S P Deferred}
    (hu : u.reached = x.reached) (hv : v.reached = y.reached) (hmind : u.mind = x.mind)
    (hmind' : v.mind = y.mind) : Twin ops u v :=
  ⟨hmind'.trans (h.mind.trans hmind.symm), hu.trans h.prompt, hv.trans h.deferring⟩

theorem apply (h : Twin ops x y) (op : Operation S P) : Twin (ops ++ [op]) (x.apply op) (y.apply op) := by
  refine ⟨h.mind, ?_, ?_⟩
  · rw [Reached.performAll_append, ← h.prompt]
    rfl
  · rw [Reached.performAll_append, ← h.deferring]
    rfl

theorem publish (h : Twin ops x y) (s : S) (p : P) :
    Twin (ops ++ [.add s p]) (x.publish s p) (y.publish s p) :=
  (h.apply (.add s p)).congr rfl rfl rfl rfl

theorem absorb (h : Twin ops x y) (r : Reply ω α) : Twin ops (x.absorb r) (y.absorb r) := by
  refine ⟨?_, ?_, ?_⟩
  · rw [mind_absorb, mind_absorb, h.mind]
  · rw [reached_absorb, h.prompt]
  · rw [reached_absorb, h.deferring]

theorem applyAll (more : List (Operation S P)) {ops : List (Operation S P)}
    {x : Exploration ω S P Fifo} {y : Exploration ω S P Deferred} (h : Twin ops x y) :
    Twin (ops ++ more) (more.foldl Exploration.apply x) (more.foldl Exploration.apply y) := by
  induction more generalizing ops x y with
  | nil => exact h.done
  | cons op rest ih =>
    have hrest := ih (h.apply op)
    rwa [List.append_assoc] at hrest

/-- The same question is answered the same. -/
theorem ask (h : Twin ops x y) (question : Ask ω α) :
    Along ops (x.ask question) (y.ask question) := by
  unfold Exploration.ask
  rw [h.memory]
  exact ⟨rfl, h.absorb _⟩

theorem timed_ask (h : Twin ops x y) (p : Phase) (question : Reached S P Fifo → Ask ω α)
    (question' : Reached S P Deferred → Ask ω α) (hsame : question' y.reached = question x.reached) :
    Along ops (x.timed p fun x => x.ask (question x.reached))
      (y.timed p fun y => y.ask (question' y.reached)) := by
  have hstarted : Twin ops (x.start p) (y.start p) := h.congr rfl rfl rfl rfl
  obtain ⟨hresult, htwin⟩ := hstarted.ask (question x.reached)
  unfold timed
  simp only [reached_start, hsame]
  exact ⟨hresult, htwin.congr rfl rfl rfl rfl⟩

variable {a : Analysis ω S P Fifo} {b : Analysis ω S P Deferred} (hab : a.Counterpart b)
include hab

/-! ### Successors -/

theorem isCovered (h : Twin ops x y) (few : Few ops) (s : S) (p : P) :
    Along ops (Exploration.isCovered a s p x) (Exploration.isCovered b s p y) := by
  have hstates : y.reached.statesAt s = x.reached.statesAt s := by
    rw [(h.agrees few).same]
    rfl
  refine h.timed_ask .stop (fun r => a.stop s (r.statesAt s) p)
    (fun r => b.stop s (r.statesAt s) p) ?_
  simp only [hstates, hab.stop]

theorem settle (h : Twin ops x y) (few : Few ops) (s : S) (p : P) :
    Along (ops ++ settleScript a s p x) (Exploration.settle a s p x)
      (Exploration.settle b s p y) := by
  obtain ⟨answer, u, v, hu, hv, htwin⟩ := (h.isCovered hab few s p).exists_eq
  unfold Exploration.settle settleScript
  rw [hu, hv]
  match answer with
  | .error e => exact ⟨rfl, htwin.done⟩
  | .ok true => exact ⟨rfl, htwin.done.congr rfl rfl rfl rfl⟩
  | .ok false => exact ⟨rfl, (htwin.publish s p).congr rfl rfl rfl rfl⟩

theorem settleHalt (h : Twin ops x y) (few : Few ops) (s : S) (p : P) :
    Along (ops ++ settleScript a s p x) (Exploration.settleHalt a s p x)
      (Exploration.settleHalt b s p y) := by
  obtain ⟨answer, u, v, hu, hv, htwin⟩ := (h.isCovered hab few s p).exists_eq
  unfold Exploration.settleHalt settleScript
  rw [hu, hv]
  match answer with
  | .error e => exact ⟨rfl, htwin.done⟩
  | .ok true => exact ⟨rfl, htwin.done.congr rfl rfl rfl rfl⟩
  | .ok false => exact ⟨rfl, (htwin.publish s p).congr rfl rfl rfl rfl⟩

theorem scan (h : Twin ops x y) (few : Few ops) (s : S) (p : P) (candidates : List Handle) :
    (Exploration.scan b s p candidates y).changed = (Exploration.scan a s p candidates x).changed ∧
    (Exploration.scan b s p candidates y).abort = (Exploration.scan a s p candidates x).abort ∧
    Twin ops (Exploration.scan a s p candidates x).after
      (Exploration.scan b s p candidates y).after := by
  induction candidates generalizing x y with
  | nil => exact ⟨rfl, rfl, h⟩
  | cons g rest ih =>
    unfold Exploration.scan
    rw [h.shutdown]
    split
    · exact ⟨rfl, rfl, h⟩
    · have hstate : y.reached.state? g = x.reached.state? g := by
        rw [(h.agrees few).same]
        rfl
      rw [hstate]
      cases x.reached.state? g with
      | none => exact ih h
      | some old =>
        rw [hab.merge]
        obtain ⟨answer, u, v, hu, hv, htwin⟩ := (h.ask (a.merge.merge s old p)).exists_eq
        simp only [hu, hv]
        cases answer with
        | error e => exact ⟨rfl, rfl, htwin⟩
        | ok new =>
          simp only
          split
          · obtain ⟨hchanged, habort, hafter⟩ := ih (htwin.congr rfl rfl rfl rfl :
              Twin ops ((u.note (.mergedWith g)).note (.merged s old new))
                ((v.note (.mergedWith g)).note (.merged s old new)))
            exact ⟨congrArg ((g, new) :: ·) hchanged, habort, hafter⟩
          · exact ih htwin

theorem mergeInto (h : Twin ops x y) (few : Few ops) (s : S) (p : P) :
    Along (ops ++ mergeScript a s p x) (Exploration.mergeInto a s p x)
      (Exploration.mergeInto b s p y) := by
  have hhandles : y.reached.handlesAt s = x.reached.handlesAt s := by
    rw [(h.agrees few).same]
    rfl
  have hstarted : Twin ops ((x.note (.considering (x.reached.handlesAt s).length)).start .merge)
      ((y.note (.considering (x.reached.handlesAt s).length)).start .merge) :=
    h.congr rfl rfl rfl rfl
  obtain ⟨hchanged, habort, htwin⟩ := hstarted.scan hab few s p (x.reached.handlesAt s)
  unfold Exploration.mergeInto mergeScript changedBy
  simp only [hhandles]
  by_cases hempty : (x.reached.handlesAt s).isEmpty = true
  · rw [if_pos hempty, if_pos hempty, List.isEmpty_iff.1 hempty]
    exact ⟨rfl, h.done⟩
  · rw [if_neg hempty, if_neg hempty, hchanged]
    refine ⟨habort, ?_⟩
    cases (Exploration.scan a s p (x.reached.handlesAt s)
      ((x.note (.considering (x.reached.handlesAt s).length)).start .merge)).changed with
    | nil => exact htwin.done.congr rfl rfl rfl rfl
    | cons c rest => exact (htwin.apply _).congr rfl rfl rfl rfl

theorem mergeAndSettle (h : Twin ops x y) (s : S) (p : P)
    (few : Few (ops ++ mergeAndSettleScript a s p x)) :
    Along (ops ++ mergeAndSettleScript a s p x) (Exploration.mergeAndSettle a s p x)
      (Exploration.mergeAndSettle b s p y) := by
  unfold Exploration.mergeAndSettle
  unfold mergeAndSettleScript at few ⊢
  rw [hab.merge]
  split at few
  · rename_i hseparates
    rw [if_pos hseparates, if_pos hseparates, if_pos hseparates]
    exact h.settle hab few.of_append s p
  · rename_i hjoins
    rw [if_neg hjoins, if_neg hjoins, if_neg hjoins]
    rw [← List.append_assoc] at few ⊢
    obtain ⟨abort, u, v, hu, hv, htwin⟩ :=
      (h.mergeInto hab few.of_append.of_append s p).exists_eq
    rw [hu] at few ⊢
    rw [hv]
    cases abort with
    | some e => exact ⟨rfl, htwin.done⟩
    | none => exact htwin.settle hab few.of_append s p

theorem handleSuccessor (h : Twin ops x y) (source s : S) (p : P)
    (few : Few (ops ++ handleSuccessorScript a source s p x)) :
    Along (ops ++ handleSuccessorScript a source s p x)
      (Exploration.handleSuccessor a source s p x)
      (Exploration.handleSuccessor b source s p y) := by
  rw [handleSuccessor_eq, handleSuccessor_eq, h.shutdown]
  unfold handleSuccessorScript at few ⊢
  split at few
  · rename_i hrequested
    rw [if_pos hrequested, if_pos hrequested, if_pos hrequested]
    exact ⟨rfl, h.done⟩
  · rename_i hquiet
    rw [if_neg hquiet, if_neg hquiet, if_neg hquiet]
    have hnoted : Twin ops (x.note (.successor source s)) (y.note (.successor source s)) :=
      h.congr rfl rfl rfl rfl
    have hasked : Along ops (askAdjust a source s p x) (askAdjust b source s p y) :=
      hnoted.timed_ask .adjust (a.adjust s p) (b.adjust s p)
        (hab.adjust s p (hnoted.agrees few.of_append))
    obtain ⟨answer, u, v, hu, hv, htwin⟩ := hasked.exists_eq
    rw [hu] at few ⊢
    rw [hv]
    match answer with
    | .error e => exact ⟨rfl, htwin.done⟩
    | .ok none => exact ⟨rfl, htwin.done.congr rfl rfl rfl rfl⟩
    | .ok (some ⟨t, q, .halt⟩) => exact htwin.settleHalt hab few.of_append t q
    | .ok (some ⟨t, q, .proceed⟩) => exact htwin.mergeAndSettle hab t q few

theorem handleSuccessors (g : Handle) (source : S) (successors : List (S × P)) {ops : List (Operation S P)}
    {x : Exploration ω S P Fifo} {y : Exploration ω S P Deferred} (h : Twin ops x y)
    (few : Few (ops ++ handleSuccessorsScript a g source successors x)) :
    Along (ops ++ handleSuccessorsScript a g source successors x)
      (Exploration.handleSuccessors a g source successors x)
      (Exploration.handleSuccessors b g source successors y) := by
  induction successors generalizing ops x y with
  | nil => exact ⟨rfl, h.done⟩
  | cons pair rest ih =>
    obtain ⟨s, p⟩ := pair
    unfold Exploration.handleSuccessors
    unfold handleSuccessorsScript at few ⊢
    rw [← List.append_assoc] at few ⊢
    obtain ⟨flow, u, v, hu, hv, htwin⟩ :=
      (h.handleSuccessor hab source s p few.of_append).exists_eq
    rw [hu] at few ⊢
    rw [hv]
    cases flow with
    | onward => exact ih htwin few
    | halt =>
      cases rest with
      | nil => exact ⟨rfl, htwin.done⟩
      | cons next others => exact ⟨rfl, htwin.apply (.enqueue g)⟩
    | abort e => exact ⟨rfl, htwin.done⟩

/-! ### Expansions -/

theorem forceCover (h : Twin ops x y) (few : Few ops) (s : S) (p : P) :
    Along (ops ++ forceCoverScript a s p x) (Exploration.forceCover a s p x)
      (Exploration.forceCover b s p y) := by
  have hcover := hab.cover
  unfold Exploration.forceCover forceCoverScript
  generalize a.cover = cover at hcover ⊢
  generalize b.cover = cover' at hcover ⊢
  cases hcover with
  | none => exact ⟨rfl, h.done⟩
  | some hsame =>
    rename_i covering covering'
    have hstarted : Twin ops (x.start .cover) (y.start .cover) := h.congr rfl rfl rfl rfl
    have hattempt : covering'.attempt s p y.reached y.memory =
        covering.attempt s p x.reached x.memory := by
      rw [hsame s p (h.agrees few), h.memory]
    have hafter := (hstarted.absorb (covering.attempt s p x.reached x.memory).reply).applyAll
      (covering.attempt s p x.reached x.memory).operations
    unfold timed
    refine ⟨congrArg (·.reply.result) hattempt, ?_⟩
    show Twin _ _ (Exploration.stop (List.foldl _
      ((y.start .cover).absorb (covering'.attempt s p y.reached y.memory).reply)
      (covering'.attempt s p y.reached y.memory).operations) .cover)
    rw [hattempt]
    exact hafter.congr rfl rfl rfl rfl

theorem expandBy (h : Twin ops x y) (g : Handle) (s : S) (p : P)
    (few : Few (ops ++ expandByScript a g s p x)) :
    Along (ops ++ expandByScript a g s p x) (Exploration.expandBy a g s p x)
      (Exploration.expandBy b g s p y) := by
  obtain ⟨answer, u, v, hu, hv, htwin⟩ := (h.timed_ask .transfer (fun _ => a.transfer s p)
    (fun _ => b.transfer s p) (by rw [hab.transfer])).exists_eq
  unfold Exploration.expandBy
  unfold expandByScript at few ⊢
  rw [hu] at few ⊢
  rw [hv]
  cases answer with
  | error e => exact ⟨rfl, htwin.done⟩
  | ok successors => exact handleSuccessors hab g s successors (htwin.congr rfl rfl rfl rfl) few

theorem expand (h : Twin ops x y) (g : Handle) (few : Few (ops ++ expandScript a g x)) :
    Along (ops ++ expandScript a g x) (Exploration.expand a g x) (Exploration.expand b g y) := by
  have hpair : y.reached.get? g = x.reached.get? g := by
    rw [(h.agrees few.of_append).same]
    rfl
  unfold Exploration.expand
  unfold expandScript at few ⊢
  rw [hpair]
  cases hget : x.reached.get? g with
  | none => exact ⟨rfl, h.done⟩
  | some pair =>
    obtain ⟨s, p⟩ := pair
    have hnoted : Twin ops (x.note (.expanding s p)) (y.note (.expanding s p)) :=
      h.congr rfl rfl rfl rfl
    simp only [hget] at few ⊢
    rw [← List.append_assoc] at few ⊢
    have hcovered : Along (ops ++ forceCoverScript a s p x)
        (Exploration.forceCover a s p (x.note (.expanding s p)))
        (Exploration.forceCover b s p (y.note (.expanding s p))) :=
      hnoted.forceCover hab few.of_append.of_append s p
    obtain ⟨verdict, u, v, hu, hv, htwin⟩ := hcovered.exists_eq
    rw [hu] at few ⊢
    rw [hv]
    match verdict with
    | .error e => exact ⟨rfl, htwin.done⟩
    | .ok true => exact ⟨rfl, htwin.done.congr rfl rfl rfl rfl⟩
    | .ok false => exact htwin.expandBy hab g s p few

/-! ### Iterations -/

omit hab in
theorem popNext (h : Twin ops x y) (few : Few ops) :
    Along (ops ++ [.pop]) (Exploration.popNext x) (Exploration.popNext y) := by
  obtain ⟨k, hshadows⟩ := h.shadows few
  exact ⟨hshadows.pop.1, (h.apply .pop).congr rfl rfl rfl rfl⟩

/-- As long as something waits, both do the same. -/
theorem step (h : Twin ops x y) (few : Few (ops ++ stepScript a x))
    (hwaiting : x.reached.hasWaiting = true) :
    Along (ops ++ stepScript a x) (Exploration.step a x) (Exploration.step b y) := by
  obtain ⟨k, hshadows⟩ := h.shadows few.of_append
  have hwaiting' := hshadows.hasWaiting hwaiting
  rw [step_eq, step_eq, h.shutdown, hwaiting, hwaiting']
  unfold stepScript at few ⊢
  rw [hwaiting] at few ⊢
  simp only [Bool.not_true, Bool.false_eq_true, if_false] at few ⊢
  split at few
  · rename_i hrequested
    rw [if_pos hrequested, if_pos hrequested, if_pos hrequested]
    exact ⟨rfl, h.done⟩
  · rename_i hquiet
    rw [if_neg hquiet, if_neg hquiet, if_neg hquiet]
    rw [List.append_cons] at few ⊢
    obtain ⟨g, u, v, hu, hv, htwin⟩ := (h.popNext few.of_append.of_append).exists_eq
    rw [hu] at few ⊢
    rw [hv]
    cases g with
    | none => exact ⟨rfl, htwin.done⟩
    | some g =>
      have hnoted : Twin (ops ++ [.pop]) (u.note (.retrieved g)) (v.note (.retrieved g)) :=
        htwin.congr rfl rfl rfl rfl
      simp only at few ⊢
      rw [← List.append_assoc] at few ⊢
      obtain ⟨flow, u', v', hu', hv', hexpanded⟩ :=
        (hnoted.expand hab g few.of_append).exists_eq
      rw [hu', hv']
      cases flow with
      | onward => exact ⟨rfl, hexpanded.done⟩
      | halt => exact ⟨rfl, hexpanded.done⟩
      | abort e => exact ⟨rfl, hexpanded.apply (.enqueue g)⟩

omit hab in
/-- Where nothing waits any more, the lazy waitlist may take one more pop to find that out. -/
theorem step_of_exhausted (h : Twin ops x y) (few : Few ops)
    (hwaiting : x.reached.hasWaiting = false) (quiet : x.shutdown.requested = false) :
    ∃ late, Outlasts (ops ++ stepScript a x) x y (Exploration.step a x) (Exploration.step b y)
      0 late := by
  have hstep : Exploration.step a x = (some (.ok .exhausted), x) := by
    rw [step_eq, hwaiting]
    rfl
  have hscript : stepScript a x = [] := by
    rw [stepScript, hwaiting]
    rfl
  have hcount := iterations_step b y
  rw [h.shutdown, quiet, Bool.not_false, Bool.and_true] at hcount
  rw [hstep, hscript, List.append_nil]
  rw [step_eq, h.shutdown, quiet] at hcount ⊢
  simp only [Bool.false_eq_true, if_false] at hcount ⊢
  cases hwaiting' : y.reached.hasWaiting with
  | false => exact ⟨0, rfl, Nat.zero_le 1, h.done, rfl, rfl⟩
  | true =>
    rw [hwaiting'] at hcount
    simp only [Bool.not_true, Bool.false_eq_true, if_false, if_true] at hcount ⊢
    obtain ⟨hresult, htwin⟩ := h.popNext few
    have hpop : (Exploration.popNext x).1 = none ∧ (Exploration.popNext x).2.reached = x.reached :=
      Prod.ext_iff.1 (Reached.pop_of_hasWaiting hwaiting)
    rw [hpop.1] at hresult
    generalize Exploration.popNext y = popped at hresult htwin hcount ⊢
    obtain ⟨g, v⟩ := popped
    cases hresult
    refine ⟨1, rfl, Nat.le_refl 1, htwin.congr hpop.2.symm rfl rfl rfl, rfl, hcount⟩

theorem iterate (limit : Nat) {ops : List (Operation S P)} {x : Exploration ω S P Fifo}
    {y : Exploration ω S P Deferred} (h : Twin ops x y) (few : Few (ops ++ iterateScript a limit x))
    (quiet : (Exploration.iterate a limit x).2.shutdown.requested = false) :
    ∃ n late, Outlasts (ops ++ iterateScript a limit x) x y (Exploration.iterate a limit x)
      (Exploration.iterate b limit y) n late := by
  induction limit generalizing ops x y with
  | zero =>
    exact ⟨0, 0, rfl, Nat.zero_le 1, by simpa [iterateScript, Exploration.iterate] using h, rfl, rfl⟩
  | succ limit ih =>
    unfold Exploration.iterate at quiet ⊢
    unfold iterateScript at few ⊢
    cases hwaiting : x.reached.hasWaiting with
    | false =>
      have hstep : Exploration.step a x = (some (.ok .exhausted), x) := by
        rw [step_eq, hwaiting]
        rfl
      rw [hstep] at quiet
      obtain ⟨late, hlate⟩ := h.step_of_exhausted (a := a) (b := b) few.of_append hwaiting quiet
      rw [hstep] at hlate ⊢
      generalize Exploration.step b y = stepped at hlate ⊢
      obtain ⟨ended, v⟩ := stepped
      cases hlate.result
      exact ⟨0, late, by simpa using hlate⟩
    | true =>
      rw [← List.append_assoc] at few ⊢
      obtain ⟨hresult, htwin⟩ := h.step hab few.of_append hwaiting
      obtain ⟨k, hshadows⟩ := h.shadows few.of_append.of_append
      have hcount := iterations_step a x
      have hcount' := iterations_step b y
      rw [hwaiting] at hcount
      rw [hshadows.hasWaiting hwaiting, h.shutdown] at hcount'
      generalize (if (true && !x.shutdown.requested) = true then 1 else 0) = n at hcount hcount'
      generalize Exploration.step a x = stepped at hresult htwin quiet few hcount ⊢
      generalize Exploration.step b y = stepped' at hresult htwin hcount' ⊢
      obtain ⟨ended, u⟩ := stepped
      obtain ⟨ended', v⟩ := stepped'
      cases hresult
      cases ended with
      | some result => exact ⟨n, 0, rfl, Nat.zero_le 1, by simpa using htwin, hcount, hcount'⟩
      | none =>
        obtain ⟨m, late, hrest⟩ := ih htwin few quiet
        refine ⟨n + m, late, hrest.result, hrest.bound, hrest.twin, ?_, ?_⟩
        · rw [hrest.iterations, hcount, Nat.add_assoc]
        · rw [hrest.iterations', hcount', Nat.add_assoc y.iterations]

theorem run (limit : Nat) (h : Twin ops x y) (few : Few (ops ++ runScript a limit x))
    (quiet : (x.run a limit).2.shutdown.requested = false) :
    ∃ n late, Outlasts (ops ++ runScript a limit x) x y (x.run a limit) (y.run b limit) n late := by
  have hseeds : drainScript y.reached = drainScript x.reached := by
    rw [(h.agrees few.of_append).same]
    rfl
  have hstarted : Twin ops (x.start .total) (y.start .total) := h.congr rfl rfl rfl rfl
  have hpublished : Twin (ops ++ drainScript x.reached) (x.start .total).publishSeeds
      (y.start .total).publishSeeds := by
    have happlied := hstarted.applyAll (drainScript x.reached)
    rw [publishSeeds_eq, publishSeeds_eq, reached_start, reached_start, hseeds]
    exact happlied
  have hcount : (x.start .total).publishSeeds.iterations = x.iterations := by
    rw [iterations, counts_publishSeeds, counts_start]
    rfl
  have hcount' : (y.start .total).publishSeeds.iterations = y.iterations := by
    rw [iterations, counts_publishSeeds, counts_start]
    rfl
  unfold runScript at few ⊢
  rw [← List.append_assoc] at few ⊢
  unfold Exploration.run at quiet ⊢
  have hiterated := hpublished.iterate hab limit few
  generalize Exploration.iterate a limit (x.start .total).publishSeeds = iterated
    at hiterated quiet ⊢
  generalize Exploration.iterate b limit (y.start .total).publishSeeds = iterated' at hiterated ⊢
  obtain ⟨ended, u⟩ := iterated
  obtain ⟨ended', v⟩ := iterated'
  have hquiet : u.shutdown.requested = false := by
    rcases ended with - | (e | t) <;> exact quiet
  obtain ⟨n, late, hresult, hbound, htwin, hn, hn'⟩ := hiterated hquiet
  rw [hcount] at hn
  rw [hcount'] at hn'
  cases hresult
  cases ended with
  | none => exact ⟨n, late, rfl, hbound, htwin, hn, hn'⟩
  | some result =>
    have hconcluded : ∀ outcome, Twin (ops ++ drainScript x.reached ++
        iterateScript a limit (x.start .total).publishSeeds ++ List.replicate late .pop)
          (conclude outcome u) (conclude outcome v) := fun outcome => by
      cases outcome <;> exact htwin.congr rfl rfl rfl rfl
    refine ⟨n, late, ?_, hbound, ?_, ?_, ?_⟩
    · simp only [hab.status]
    · simp only [hab.status]
      exact hconcluded _
    · rw [← hn]
      exact congrArg Statistics.iterations (counts_conclude _ u)
    · rw [← hn']
      exact congrArg Statistics.iterations (counts_conclude _ v)

end Twin

/-! ### Stale handles -/

theorem Reached.Few.append_pop {ops : List (Operation S P)} [BEq S] [BEq P] (h : Few ops)
    (n : Nat) : Few (ops ++ List.replicate n .pop) := by
  have hnone : ∀ r : Reached S P Fifo, r.removals (List.replicate n .pop) = [] := fun r => by
    induction n generalizing r with
    | zero => rfl
    | succ n ih => exact ih _
  unfold Few at h ⊢
  rwa [removals_append, hnone, List.append_nil]

/-- **Handles that a waitlist keeps of removed pairs do no harm.** Whatever is done to a reached
set with a first-in-first-out waitlist, each operation answers as it does if the waitlist
declines every removal, and the reached sets differ in their waitlists only. So do two runs
that go on from there, unless a shutdown is requested: they have the same result, and the lazy
waitlist takes one more iteration at most. Afterwards all of this holds again. -/
theorem deferral_harmless [BEq S] [BEq P] {ops : List (Operation S P)} (few : Few ops) :
    (deferring : Reached S P Deferred).answers ops = (prompt : Reached S P Fifo).answers ops ∧
    ((prompt : Reached S P Fifo).performAll ops).Agrees (deferring.performAll ops) ∧
    ∀ {ω : Type} {a : Analysis ω S P Fifo} {b : Analysis ω S P Deferred}
      {x : Exploration ω S P Fifo} {y : Exploration ω S P Deferred} (limit : Nat),
      a.Counterpart b → Twin ops x y → Few (ops ++ Exploration.runScript a limit x) →
      (x.run a limit).2.shutdown.requested = false →
        (y.run b limit).1 = (x.run a limit).1 ∧
        (x.run a limit).2.reached.Agrees (y.run b limit).2.reached ∧
        (∃ n late, late ≤ 1 ∧
          (x.run a limit).2.statistics.iterations = x.statistics.iterations + n ∧
          (y.run b limit).2.statistics.iterations = y.statistics.iterations + n + late) ∧
        ∃ ops', Few ops' ∧ Twin ops' (x.run a limit).2 (y.run b limit).2 := by
  obtain ⟨hanswers, k, hshadows⟩ := few.shadows
  refine ⟨hanswers, hshadows.agrees, fun limit hab htwin hfew quiet => ?_⟩
  obtain ⟨n, late, hresult, hbound, hafter, hn, hn'⟩ := htwin.run hab limit hfew quiet
  have hfew' := hfew.append_pop late
  exact ⟨hresult, hafter.agrees hfew', ⟨n, late, hbound, hn, hn'⟩, _, hfew', hafter⟩

/-! The demonstration, after a pair was removed whose cell is in use again. -/
namespace Counter

def replaced : List (Operation Interval Unit) :=
  [.add ⟨.loop, 0, 0⟩ (), .add ⟨.exit, 5, 5⟩ (), .removeHandle ⟨1, 0⟩, .add ⟨.start, 0, 0⟩ (),
    .add ⟨.exit, 9, 9⟩ (), .remove ⟨.exit, 9, 9⟩]

theorem replaced_harmless :
    let x : Exploration Unit Interval Unit Fifo :=
      { trail := { reached := prompt.performAll replaced }, memory := () }
    let y : Exploration Unit Interval Unit Deferred :=
      { trail := { reached := deferring.performAll replaced }, memory := () }
    (x.run (analysis ⟨3, none⟩ true false) 20).1 = some (.ok ⟨.soundAndPrecise, .exhausted⟩) ∧
      (y.run (analysis ⟨3, none⟩ true false) 20).1 = some (.ok ⟨.soundAndPrecise, .exhausted⟩) ∧
      y.reached.waitlistSize = x.reached.waitlistSize + 2 := by
  intro x y
  have hab : (analysis ⟨3, none⟩ true false : Analysis Unit Interval Unit Fifo).Counterpart
      (analysis ⟨3, none⟩ true false : Analysis Unit Interval Unit Deferred) :=
    ⟨rfl, rfl, rfl, fun _ _ _ => rfl, .none, rfl⟩
  have hfew : Few replaced := by
    show _ < _
    decide +kernel
  have hfew' : Few (replaced ++ Exploration.runScript (analysis ⟨3, none⟩ true false) 20 x) := by
    show _ < _
    decide +kernel
  have hx : (x.run (analysis ⟨3, none⟩ true false) 20).1 =
      some (.ok ⟨.soundAndPrecise, .exhausted⟩) := by decide +kernel
  have hsame := (deferral_harmless hfew).2.2 (x := x) (y := y) 20 hab ⟨rfl, rfl, rfl⟩ hfew'
    (by decide +kernel)
  exact ⟨hx, hsame.1.trans hx, by decide +kernel⟩

end Counter
end Reachability
