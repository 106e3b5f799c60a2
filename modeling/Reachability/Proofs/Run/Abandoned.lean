import Reachability.Proofs.Counter.Interval
import Reachability.Proofs.Reached.Removals
import Reachability.Proofs.Reached.Requeue
import Reachability.Proofs.Run.Ending
import Reachability.Proofs.Run.Evolution

/-! Abandoned runs lose nothing.

A run is abandoned before a pop, and then nothing has changed since the last iteration; or
an expansion gives up, at whatever point, and then the pair it was about is put back.
Meanwhile the pair may have been removed, by forced covering or by a merge. Its handle
then names nothing, even if its cell is in use again, and so putting it back does nothing.
When it was the transfer relation that gave up, everything is as it was before the pop. -/
namespace Reachability

variable {ω S P W : Type} [AbstractState S] [BEq S] [BEq P]

/-! ### The operations of an expansion -/

namespace Effect
variable [Waitlist W]

/-- An expansion of the pair named `h` as operations: those that forced covering names, then
those that deal with the successors. -/
structure Performed (a : Analysis ω S P W) (h : Handle) (r : Reached S P W)
    (forced own : List (Operation S P)) (r' : Reached S P W) : Prop where
  covering : forced = [] ∨ ∃ c s p w, a.cover = some c ∧ r.get? h = some (s, p) ∧
    forced = (c.attempt s p r w).operations
  settling : ∀ op ∈ own, op.Expanding h
  result : r' = r.performAll (forced ++ own)

variable {a : Analysis ω S P W} {r r' : Reached S P W} {h : Handle}

theorem Attempted.exists_forced {s : S} {p : P} {verdict : Except Abort Bool}
    (pair : r.get? h = some (s, p)) (hc : Attempted a s p r verdict r') :
    ∃ forced, r' = r.performAll forced ∧
      (forced = [] ∨ ∃ c s p w, a.cover = some c ∧ r.get? h = some (s, p) ∧
        forced = (c.attempt s p r w).operations) := by
  cases hc with
  | absent installed => exact ⟨[], rfl, .inl rfl⟩
  | made installed => exact ⟨_, rfl, .inr ⟨_, s, p, _, installed, pair, rfl⟩⟩

/-- Every expansion is made of such operations. -/
theorem Expanded.performed {flow : Flow} (hx : Expanded a h r flow r') :
    ∃ forced own, Performed a h r forced own r' := by
  have hcovered : ∀ {s p verdict r₁}, r.get? h = some (s, p) → Attempted a s p r verdict r₁ →
      ∃ forced own, Performed a h r forced own r₁ := fun pair cover => by
    obtain ⟨forced, rfl, hforced⟩ := cover.exists_forced pair
    exact ⟨forced, [], hforced, fun op hop => (List.not_mem_nil hop).elim, by rw [List.append_nil]⟩
  cases hx with
  | nothing pair => exact ⟨[], [], .inl rfl, fun op hop => (List.not_mem_nil hop).elim, rfl⟩
  | unattempted pair cover => exact hcovered pair cover
  | forced pair cover => exact hcovered pair cover
  | failed pair cover transfer => exact hcovered pair cover
  | expanded pair cover transfer treated =>
    obtain ⟨forced, rfl, hforced⟩ := cover.exists_forced pair
    obtain ⟨own, hown, rfl⟩ := treated.expanding
    exact ⟨forced, own, hforced, hown, (Reached.performAll_append ..).symm⟩

/-- What an expansion removes, forced covering removed or a merge replaced. -/
theorem Performed.cases_removals {forced own : List (Operation S P)}
    (hp : Performed a h r forced own r') {g : Handle} (hmem : g ∈ r.removals (forced ++ own)) :
    g ∈ r.removals forced ∨ ∃ gone fresh, Operation.update gone fresh ∈ own ∧ g ∈ gone := by
  rw [Reached.removals_append, List.mem_append] at hmem
  refine hmem.imp_right fun hmem => ?_
  obtain ⟨op, hop, r₁, hremoved⟩ := Reached.exists_of_mem_removals hmem
  cases hp.settling op hop with
  | again => cases hremoved
  | settle settling =>
    cases settling with
    | merge gone fresh => exact ⟨gone, fresh, hop, (Reached.mem_dropped_iff.1 hremoved).1⟩
    | publish s p => cases hremoved

end Effect

/-! ### The last iteration -/

namespace Exploration
variable [Waitlist W] {a : Analysis ω S P W}

/-- An iteration is abandoned before the pop, or when the expansion gives up. -/
theorem step_eq_error {x y : Exploration ω S P W} {e : Abort}
    (hstep : step a x = (some (.error e), y)) :
    x.shutdown.requested = true ∧ e = .interrupted ∧ y = x ∨
      x.shutdown.requested = false ∧ ∃ h before after,
        x.reached.pop = (some h, before.reached) ∧ before.memory = x.memory ∧
        expand a h before = (.abort e, after) ∧ y = after.apply (.enqueue h) := by
  unfold step at hstep
  by_cases hwaiting : x.reached.hasWaiting = true
  · rw [hwaiting] at hstep
    simp only [Bool.not_true, Bool.false_eq_true, if_false] at hstep
    by_cases hrequested : x.shutdown.requested = true
    · rw [if_pos hrequested] at hstep
      cases hstep
      exact .inl ⟨hrequested, rfl, rfl⟩
    · rw [if_neg hrequested] at hstep
      refine .inr ⟨by simpa using hrequested, ?_⟩
      have htimed : x.countIteration.timed .choose Exploration.pop =
          (x.reached.pop.1, (x.countIteration.timed .choose Exploration.pop).2) := rfl
      have hreached : (x.countIteration.timed .choose Exploration.pop).2.reached =
          x.reached.pop.2 := rfl
      have hmemory : (x.countIteration.timed .choose Exploration.pop).2.memory = x.memory := rfl
      rw [htimed] at hstep
      generalize (x.countIteration.timed .choose Exploration.pop).2 = z at hreached hmemory hstep
      cases hpop : x.reached.pop.1 with
      | none =>
        rw [hpop] at hstep
        cases hstep
      | some h =>
        rw [hpop] at hstep
        simp only at hstep
        cases hexpand : expand a h (z.note (.retrieved h)) with
        | mk flow after =>
          rw [hexpand] at hstep
          cases flow with
          | onward => cases hstep
          | halt => cases hstep
          | abort e' =>
            cases hstep
            exact ⟨h, z.note (.retrieved h), after, Prod.ext hpop hreached.symm, hmemory, hexpand,
              rfl⟩
  · rw [Bool.not_eq_true] at hwaiting
    rw [hwaiting] at hstep
    cases hstep

/-- If the transfer relation gives up, the reached set is as it was found. -/
theorem expand_of_transfer_error (hcover : a.cover = none) {h : Handle} {s : S} {p : P} {e : Abort}
    {x : Exploration ω S P W} (pair : x.reached.get? h = some (s, p))
    (transfer : (a.transfer s p x.memory).result = .error e) :
    ∃ y, expand a h x = (.abort e, y) ∧ y.reached = x.reached := by
  obtain ⟨y, hasked, hy⟩ :=
    exists_timed_ask (x.note (.expanding s p)) .transfer fun _ => a.transfer s p
  refine ⟨y, ?_, hy⟩
  have htransfer : (a.transfer s p (x.note (.expanding s p)).memory).result = .error e := transfer
  simp only [expand, pair, forceCover, hcover, expandBy, hasked, htransfer]

end Exploration

/-! ### What is left of it -/

open Exploration

/-- The iteration that starts at `top` pops the pair named `h`; its expansion leads from
`before` to `after` and gives up; and the run leaves the reached set `r`. -/
structure Lossless (a : Analysis ω S P Frontier) (o : TraversalOrder) (e : Abort) (h : Handle)
    (top before after : Exploration ω S P Frontier) (r : Reached S P Frontier) : Prop where
  uninterrupted : top.shutdown.requested = false
  popped : top.reached.pop = (some h, before.reached)
  memory : before.memory = top.memory
  expanded : expand a h before = (.abort e, after)
  performed : ∃ forced own, Effect.Performed a h before.reached forced own after.reached
  /-- Unless the expansion removed it, the pair waits. -/
  retained : ∀ forced own, Effect.Performed a h before.reached forced own after.reached →
    h ∉ before.reached.removals (forced ++ own) →
      r.isWaiting h = true ∧ r.state? h = top.reached.state? h
  /-- If the expansion removed it, nothing is put back. -/
  removed : ∀ forced own, Effect.Performed a h before.reached forced own after.reached →
    h ∈ before.reached.removals (forced ++ own) →
      (h ∈ before.reached.removals forced ∨
        ∃ gone fresh, Operation.update gone fresh ∈ own ∧ h ∈ gone) ∧
      ((before.reached.removals (forced ++ own)).length < UInt32.size →
        r.state? h = none ∧ r = after.reached)
  /-- In either case no other pair is put into the frontier. -/
  others : ∀ g, g ≠ h → r.isWaiting g = after.reached.isWaiting g
  /-- If it was the transfer relation that gave up, only the place in the waitlist differs. -/
  untransferred : a.cover = none → ∀ s p e', top.reached.get? h = some (s, p) →
    (a.transfer s p top.memory).result = .error e' →
      e = e' ∧ r = {top.reached with waitlist := r.waitlist} ∧ Reached.Requeued o h top.reached r

theorem lossless_of_expand {a : Analysis ω S P Frontier} {o : TraversalOrder} {e : Abort}
    {h : Handle} {top before after : Exploration ω S P Frontier} (htop : top.reached.InOrder o)
    (uninterrupted : top.shutdown.requested = false)
    (popped : top.reached.pop = (some h, before.reached)) (memory : before.memory = top.memory)
    (expanded : expand a h before = (.abort e, after)) :
    Lossless a o e h top before after (after.reached.enqueue h).2 := by
  have hstate : ∀ g, before.reached.state? g = top.reached.state? g := Reached.state?_of_pop popped
  refine ⟨uninterrupted, popped, memory, expanded, ?_, ?_, ?_, fun g hg =>
    Reached.isWaiting_enqueue_of_ne _ hg, ?_⟩
  · have hexpanded := Effect.expand_effect a h before
    rw [expanded] at hexpanded
    exact hexpanded.performed
  · intro forced own hp hkept
    obtain ⟨s, -, hs, -⟩ := htop.exists_enqueue_of_pop popped
    have hafter : after.reached.state? h = some s := by
      rw [hp.result]
      exact Reached.state?_performAll ((hstate h).trans hs) hkept
    exact ⟨Reached.isWaiting_enqueue hafter, by rw [Reached.state?_enqueue, hafter, hs]⟩
  · intro forced own hp hmem
    refine ⟨hp.cases_removals hmem, fun hfew => ?_⟩
    have hdead : after.reached.arena.get? h = none := by
      rw [hp.result]
      exact Reached.get?_performAll_of_mem_removals hmem hfew
    rw [Reached.enqueue_of_get?_eq_none hdead]
    exact ⟨by rw [Reached.state?, hdead]; rfl, rfl⟩
  · intro hcover s p e' pair transfer
    -- Popping leaves the pair and what the operators remember as they are.
    have hpair : before.reached.get? h = some (s, p) := by
      obtain ⟨entry, hentry, hview⟩ := Reached.pop_eq_some popped
      obtain ⟨waiting, he⟩ := Reached.get?_eq_some_iff.1 pair
      rw [hentry, Option.some.injEq] at he
      subst he
      exact Reached.get?_eq_some_iff.2 ⟨false, by rw [hview, if_pos rfl]⟩
    rw [← memory] at transfer
    obtain ⟨z, hexpand, hz⟩ := expand_of_transfer_error hcover hpair transfer
    rw [expanded] at hexpand
    cases hexpand
    obtain ⟨s', rest, -, -, hback⟩ := htop.exists_enqueue_of_pop popped
    have hrequeued := htop.requeued_of_pop popped
    rw [hz]
    exact ⟨rfl, by rw [hback], hrequeued⟩

/-- **An abandoned run loses nothing.** Either a shutdown was requested before a pop, and the
reached set is the one that the iterations before left, or the expansion of the pair popped
last gave up, and this pair waits again, unless it was removed meanwhile. -/
theorem lossless_of_abandoned {a : Analysis ω S P Frontier} {o : TraversalOrder} {e : Abort}
    {limit : Nat} {x y : Exploration ω S P Frontier}
    (evolved : Reached.Evolves (.ofOrder o) x.reached)
    (ended : x.run a limit = (some (.error e), y)) :
    ∃ n top, iterate a n (x.start .total).publishSeeds = (none, top) ∧
      ((top.shutdown.requested = true ∧ e = .interrupted ∧ y.reached = top.reached) ∨
        ∃ h before after, Lossless a o e h top before after y.reached) := by
  unfold run at ended
  cases hiterate : iterate a limit (x.start .total).publishSeeds with
  | mk result z =>
    rw [hiterate] at ended
    cases result with
    | none => cases ended
    | some result =>
      cases result with
      | ok t => cases ended
      | error e' =>
        cases ended
        obtain ⟨n, top, hbefore, hlast⟩ := exists_last_step hiterate
        refine ⟨n, top, hbefore, ?_⟩
        rw [reached_conclude]
        have htop : top.reached.InOrder o := by
          have hstart := evolves_iterate hbefore
          rw [reached_publishSeeds, reached_start] at hstart
          obtain ⟨ops, hops⟩ := evolved.trans ((Reached.Evolves.drain _).trans hstart)
          rw [hops]
          exact (Reached.InOrder.stable o).performAll ops (.ofOrder o)
        obtain ⟨hrequested, rfl, rfl⟩ | ⟨hquiet, h, before, after, hpop, hmemory, hexpand, rfl⟩ :=
          step_eq_error hlast
        · exact .inl ⟨hrequested, rfl, rfl⟩
        · exact .inr ⟨h, before, after, lossless_of_expand htop hquiet hpop hmemory hexpand⟩

/-! In the demonstration, the transfer relation cannot handle the loop. The start of the
program is expanded, and then the run is abandoned. -/
namespace Counter

def unsteady : Analysis Unit Interval Unit Frontier :=
  {analysis ⟨1, none⟩ true true with
    transfer s _ :=
      if s.loc = .loop then Ask.fail (.transferFailed ⟨"L1", "no edge"⟩)
      else pure ((Program.successors ⟨1, none⟩ s).map fun t => (t, ()))}

def abandoned : Option (Except Abort Outcome) × State :=
  Exploration.run unsteady 5 (initial { bound := 1, join := true })

theorem abandoned_lossless :
    abandoned.1 = some (.error (.transferFailed ⟨"L1", "no edge"⟩)) ∧
      ∃ h top before after, Lossless unsteady .breadthFirst (.transferFailed ⟨"L1", "no edge"⟩)
        h top before after abandoned.2.reached := by
  have hfailed : abandoned.1 = some (.error (.transferFailed ⟨"L1", "no edge"⟩)) := by rfl
  have hseeded : Reached.Evolves (.ofOrder .breadthFirst)
      (initial { bound := 1, join := true }).reached :=
    .perform _ (.addInitial seed ())
  obtain ⟨n, top, -, ⟨-, hinterrupted, -⟩ | ⟨h, before, after, hlossless⟩⟩ :=
    lossless_of_abandoned hseeded (Prod.ext hfailed rfl)
  · cases hinterrupted
  · exact ⟨hfailed, h, top, before, after, hlossless⟩

end Counter
end Reachability
