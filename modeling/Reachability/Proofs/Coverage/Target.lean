import Mathlib.Data.Prod.Basic
import Reachability.Proofs.Join.Independence
import Reachability.Proofs.Reached.Intact

/-! Hunting for targets.

An analysis that halts at targets can be trusted either way. As long as its run goes on,
nothing published is a target (`Clean`): the seeds are none, a successor that is one halts the
run unless it is covered, and merging two states that are none does not make one. When the run
halts, the latest pair is the target, and it is published beside states that are none
(`Caught`): had an equal state been there, it would have covered the successor. When it is
exhausted instead, whatever is reachable is below something published, so a reachable target
would be below a published one. -/
namespace Reachability

open AbstractState (location isTarget)

variable {ω S P W : Type} [AbstractState S]

/-- Halting at targets, coverage by a single state, merging that keeps the reached state and
does not make a target of states that are none, and no forced covering. -/
structure Analysis.Hunting (c : Comparison Id S) (a : Analysis ω S P W) : Prop where
  adjust : a.adjust = .haltOnTarget .keep
  stop : a.stop = .separate c.lift
  above : a.merge.separates = false → ∀ {s old : S} {p : P} {w : ω} {new : S},
    location s = location old → (a.merge.merge s old p w).result = .ok new → c.Below old new
  harmless : a.merge.separates = false → ∀ {s old : S} {p : P} {w : ω} {new : S},
    location s = location old → isTarget s = false → isTarget old = false →
      (a.merge.merge s old p w).result = .ok new → isTarget new = false
  cover : a.cover = none

namespace Analysis.Hunting
variable {c : Comparison Id S} {a : Analysis ω S P W} {s : S} {p : P} {w : ω}

theorem result_adjust (ha : a.Hunting c) (s : S) (p : P) (r : Reached S P W) (w : ω) :
    (a.adjust s p r w).result =
      .ok (some ⟨s, p, if isTarget s = true then .halt else .proceed⟩) := by
  rw [ha.adjust]
  cases htarget : isTarget s <;>
    simp [Adjustment.haltOnTarget, Adjustment.keep, Ask.bind_apply, htarget]

variable {r : Reached S P W} {t : S} {q : P}

/-- The run is to halt at targets, and only there. -/
theorem target_of_halt (ha : a.Hunting c)
    (h : (a.adjust s p r w).result = .ok (some ⟨t, q, .halt⟩)) : isTarget t = true := by
  rw [ha.result_adjust, Except.ok.injEq, Option.some.injEq, Adjusted.mk.injEq] at h
  obtain ⟨rfl, -, haction⟩ := h
  by_contra hnone
  rw [if_neg hnone] at haction
  cases haction

theorem not_target_of_proceed (ha : a.Hunting c)
    (h : (a.adjust s p r w).result = .ok (some ⟨t, q, .proceed⟩)) : isTarget t = false := by
  rw [ha.result_adjust, Except.ok.injEq, Option.some.injEq, Adjusted.mk.injEq] at h
  obtain ⟨rfl, -, haction⟩ := h
  cases htarget : isTarget s with
  | false => rfl
  | true =>
    rw [if_pos htarget] at haction
    cases haction

theorem covered_iff (ha : a.Hunting c) {reached : List S} {covered : Bool}
    (h : (a.stop s reached p w).result = .ok covered) :
    covered = true ↔ ∃ t ∈ reached, c.Below s t := by
  rw [ha.stop] at h
  exact Stop.covered_iff_of_separate h

theorem conservative [BEq S] (ha : a.Hunting c) (hle : Subsumption c.Below) :
    a.Conservative c.Below where
  merge joins _ _ _ _ _ hloc hnew := ha.above joins hloc hnew
  stop hstop := (ha.covered_iff hstop).1 rfl
  adjust := by
    intro s p r w adjusted hadjusted
    rw [ha.result_adjust, Except.ok.injEq] at hadjusted
    exact ⟨_, hadjusted.symm, hle.refl s⟩
  cover := ha.cover

end Analysis.Hunting

namespace Reached

/-- No published state is a target. -/
def Clean (r : Reached S P Frontier) : Prop :=
  r.Within fun s => isTarget s = false

/-- The latest pair is a target, and the only one. -/
def Caught (r : Reached S P Frontier) : Prop :=
  ∃ h s, r.last = some h ∧ r.state? h = some s ∧ isTarget s = true ∧
    ∀ g t, r.state? g = some t → isTarget t = true → g = h

/-- What is to be found when dealing with successors goes on like this. -/
def HuntedTo (r : Reached S P Frontier) : Flow → Prop
  | .halt => r.Caught
  | _ => r.Clean

/-- What is to be found after an iteration. -/
def Hunted (r : Reached S P Frontier) : Option (Except Abort Termination) → Prop
  | some (.ok .halted) => r.Caught
  | _ => r.Clean

/-- The frontier has no say in this. -/
theorem Caught.enqueue {r : Reached S P Frontier} (hr : r.Caught) (h : Handle) :
    (r.enqueue h).2.Caught := by
  obtain ⟨g, s, hlast, hs, htarget, honly⟩ := hr
  refine ⟨g, s, (ends_enqueue r h).2.trans hlast, (state?_enqueue r h g).trans hs, htarget,
    fun k t ht => honly k t ?_⟩
  rwa [state?_enqueue] at ht

/-- A target published beside states that are none. -/
theorem Clean.caught_publish {r : Reached S P Frontier} (hr : r.Clean) {s : S}
    (htarget : isTarget s = true) (p : P) : (r.publish s p).2.Caught := by
  have hview : ∀ g, (r.publish s p).2.state? g =
      if g = r.nextHandle s p then some s else r.state? g := fun g => by
    rw [state?, get?_publish]
    split <;> rfl
  refine ⟨r.nextHandle s p, s, rfl, by rw [hview, if_pos rfl], htarget, fun g t ht htarget' => ?_⟩
  by_contra hne
  rw [hview, if_neg hne] at ht
  have hnone := hr t (mem_states_iff.2 ⟨g, ht⟩)
  rw [hnone] at htarget'
  cases htarget'

end Reached

/-! ### While the run goes on -/

namespace Effect
open Reached

variable [BEq S] [BEq P] {c : Comparison Id S} {a : Analysis ω S P Frontier}
  {r r' : Reached S P Frontier} {s : S} {p : P}

theorem Merged.clean (ha : a.Hunting c) (hr : r.Consistent) (hclean : r.Clean)
    (hs : isTarget s = false) {abort : Option Abort} (h : Merged a s p r abort r') : r'.Clean := by
  cases h with
  | spared separates => exact hclean
  | scanned joins scan =>
    intro t ht
    rcases mem_states_of_mem_states_update ht with ht | ⟨x, hx, rfl⟩
    · exact hclean t ht
    · obtain ⟨y, hy, rfl⟩ := List.mem_map.1 hx
      obtain ⟨hcandidate, old, w, hold, hmerge, -⟩ := scan.exists_merge hy
      have hloc := hr.location_of_mem_handlesAt hcandidate hold
      exact ha.harmless joins hloc.symm hs (hclean old (mem_states_iff.2 ⟨y.1, hold⟩)) hmerge

omit [BEq P] in
/-- An uncovered successor is new: an equal state would cover it. -/
theorem find?_eq_none_of_uncovered [PartialEquivBEq S] (hle : Subsumption c.Below)
    (ha : a.Hunting c) {w : ω} (stop : (a.stop s (r.statesAt s) p w).result = .ok false) :
    r.find? s = none := by
  cases hfind : r.find? s with
  | none => rfl
  | some h =>
    obtain ⟨hmem, t, ht, hsame⟩ := find?_eq_some hfind
    have hbelow : c.Below s t := hle.of_beq (PartialEquivBEq.symm hsame)
    have hcovered := (ha.covered_iff stop).2 ⟨t, mem_statesAt_iff.2 ⟨h, hmem, ht⟩, hbelow⟩
    cases hcovered

variable [PartialEquivBEq S] (hle : Subsumption c.Below) (ha : a.Hunting c)
include hle ha

/-- A target is published only when the run halts with it. -/
theorem Treated.hunted (hr : r.Consistent) (hclean : r.Clean) {flow : Flow}
    (h : Treated a s p r flow r') : r'.HuntedTo flow := by
  cases h with
  | interrupted => exact hclean
  | unadjusted adjust => exact hclean
  | pruned adjust => exact hclean
  | halting adjust settle =>
    cases settle with
    | undecided stop => exact hclean
    | covered stop => exact hclean
    | published stop =>
      rw [add_of_find?_eq_none (find?_eq_none_of_uncovered hle ha stop)]
      exact hclean.caught_publish (ha.target_of_halt adjust) _
  | unmerged adjust merge => exact merge.clean ha hr hclean (ha.not_target_of_proceed adjust)
  | proceeding adjust merge settle =>
    have hnone := ha.not_target_of_proceed adjust
    have hafter := settle.within (merge.clean ha hr hclean hnone) hnone
    cases settle <;> exact hafter

theorem TreatedAll.hunted (hr : r.Consistent) (hclean : r.Clean) {h : Handle}
    {successors : List (S × P)} {flow : Flow} (ht : TreatedAll a h successors r flow r') :
    r'.HuntedTo flow := by
  induction ht with
  | finished => exact hclean
  | next first others ih => exact ih (first.evolves.consistent hr) (first.hunted hle ha hr hclean)
  | haltedLast first => exact first.hunted hle ha hr hclean
  | halted first left =>
    have hcaught : Caught _ := first.hunted hle ha hr hclean
    exact hcaught.enqueue _
  | abandoned first => exact first.hunted hle ha hr hclean

theorem Expanded.hunted (hr : r.Consistent) (hclean : r.Clean) {h : Handle} {flow : Flow}
    (hx : Expanded a h r flow r') : r'.HuntedTo flow := by
  cases hx with
  | nothing pair => exact hclean
  | unattempted pair cover => cases (cover.of_absent ha.cover).1
  | forced pair cover => cases (cover.of_absent ha.cover).1
  | failed pair cover transfer =>
    obtain ⟨-, rfl⟩ := cover.of_absent ha.cover
    exact hclean
  | expanded pair cover transfer treated =>
    obtain ⟨-, rfl⟩ := cover.of_absent ha.cover
    exact treated.hunted hle ha hr hclean

theorem Stepped.hunted (hr : r.Consistent) (hclean : r.Clean)
    {ended : Option (Except Abort Termination)} (h : Stepped a r ended r') : r'.Hunted ended := by
  have hpop : ∀ {popped r₁}, r.pop = (popped, r₁) → r₁.Clean := fun e t ht =>
    hclean t ((mem_states_of_pop e).1 ht)
  cases h with
  | exhausted idle => exact hclean
  | interrupted => exact hclean
  | drained popped => exact hpop popped
  | onward popped expansion => exact expansion.hunted hle ha (hr.of_pop popped) (hpop popped)
  | halted popped expansion => exact expansion.hunted hle ha (hr.of_pop popped) (hpop popped)
  | abandoned popped expansion =>
    have hafter : Clean _ := expansion.hunted hle ha (hr.of_pop popped) (hpop popped)
    exact fun t ht => hafter t (mem_states_enqueue.1 ht)

/-- A run ends with a target if it is halted, and otherwise without one. -/
theorem Iterated.hunted (hr : r.Consistent) (hclean : r.Clean)
    {result : Except Abort Termination} (h : Iterated a r result r') :
    r'.Hunted (some result) := by
  induction h with
  | ended step => exact step.hunted hle ha hr hclean
  | more step rest ih => exact ih (step.evolves.consistent hr) (step.hunted hle ha hr hclean)

end Effect

/-! ### Verdicts -/

variable [BEq S] [BEq P] {c : Comparison Id S} {a : Analysis ω S P Frontier}
  {successors : S → P → List (S × P)} {batch : List (S × P)} {o : TraversalOrder}

omit [BEq S] [BEq P] in
/-- Where states are kept separate, only what is reachable is published. -/
theorem Analysis.Hunting.confined (ha : a.Hunting c) (hseparates : a.merge.separates = true)
    (hcomputes : a.Computes successors) :
    a.Confined (Reachable (Succeeds successors) batch) where
  transfer := by
    intro s p w l hs hl x hx
    obtain ⟨seed, hseed, hchain⟩ := hs
    rw [hcomputes s p w l hl] at hx
    exact ⟨seed, hseed, hchain.tail ⟨p, x.2, hx⟩⟩
  merge joins := by
    rw [hseparates] at joins
    cases joins
  adjust := by
    intro s p r w x hs hadjusted
    rw [ha.result_adjust] at hadjusted
    cases hadjusted
    exact hs
  cover := ha.cover

/-- Where all is expanded and no target is published, none is reachable: a published state would
be above it. -/
theorem Exhausted.not_target_of_reachable [PartialEquivBEq S] (hle : Subsumption c.Below)
    (hmono : ∀ s t p q, c.Below s t → ∀ x ∈ successors s p, ∃ y ∈ successors t q, c.Below x.1 y.1)
    (htargets : ∀ s t, c.Below s t → isTarget s = true → isTarget t = true)
    {r : Reached S P Frontier}
    (h : Exhausted (fun _ a => a.Hunting c ∧ a.Computes successors) (.seeded o batch) [] r)
    (hclean : r.Clean) {s : S} (hs : Reachable (Succeeds successors) batch s) :
    isTarget s = false := by
  have hfixpoint := h.fixpoint hle
    (fun ω a ha => ⟨ha.1.conservative hle, ha.2.represents hle.refl⟩)
    (Reached.consistent_seeded o batch) (Reached.closed_seeded _ _ o batch)
  rw [Reached.seeds_seeded, List.append_nil] at hfixpoint
  have hsucceeds : ∀ s t p q, c.Below s t → ∀ u, Succeeds successors s p u →
      ∃ v, Succeeds successors t q v ∧ c.Below u v := fun s t p q hst u hu => by
    obtain ⟨p', hp'⟩ := hu
    obtain ⟨⟨v, q'⟩, hv, huv⟩ := hmono s t p q hst (u, p') hp'
    exact ⟨v, ⟨q', hv⟩, huv⟩
  obtain ⟨t, ht, hst⟩ := hfixpoint.covers hle hsucceeds hs
  cases htarget : isTarget s with
  | false => rfl
  | true =>
    have hcaught := htargets s t hst htarget
    rw [hclean t ht] at hcaught
    cases hcaught

/-- **The verdict of a hunt is right.** Let a run begin with seeds that are no targets, let larger
states have larger successors, and let whatever is above a target be one. If the run is
exhausted, no target is reachable, and none is published. If it halts, the latest state is a
target and no other published pair is; and if states are kept separate, this target is
reachable. -/
theorem hunt_verdict [PartialEquivBEq S] (hle : Subsumption c.Below) (ha : a.Hunting c)
    (hcomputes : a.Computes successors)
    (hmono : ∀ s t p q, c.Below s t → ∀ x ∈ successors s p, ∃ y ∈ successors t q, c.Below x.1 y.1)
    (htargets : ∀ s t, c.Below s t → isTarget s = true → isTarget t = true)
    (hbatch : ∀ x ∈ batch, isTarget x.1 = false) {x y : Exploration ω S P Frontier}
    (hx : x.reached = .seeded o batch) {limit : Nat} {outcome : Outcome}
    (ended : x.run a limit = (some (.ok outcome), y)) :
    (outcome.termination = .exhausted →
      (∀ t, Reachable (Succeeds successors) batch t → isTarget t = false) ∧
        ∀ t ∈ y.reached.states, isTarget t = false) ∧
    (outcome.termination = .halted → ∃ h s, y.reached.last = some h ∧
      y.reached.lastState? = some s ∧ isTarget s = true ∧
      (∀ g t, y.reached.state? g = some t → isTarget t = true → g = h) ∧
      (a.merge.separates = true → Reachable (Succeeds successors) batch s)) := by
  have hconsistent : x.reached.Consistent := by
    rw [hx]
    exact Reached.consistent_seeded o batch
  have hnothing : ∀ Q : S → Prop, x.reached.Within Q := fun Q s hs => by
    rw [hx, Reached.states_seeded] at hs
    cases hs
  have hpending : x.reached.seeds = batch := by rw [hx, Reached.seeds_seeded]
  have hdrained : x.reached.drain.Clean :=
    Reached.Within.addAll (by rwa [hpending]) (hnothing _)
  obtain ⟨result, hiterated, hresult⟩ := Exploration.run_effect a ended
  have hhunted := hiterated.hunted hle ha hconsistent.drain hdrained
  cases result with
  | error e => cases hresult
  | ok t =>
    cases hresult
    refine ⟨fun hexhausted => ?_, fun hhalted => ?_⟩
    · simp only at hexhausted
      subst hexhausted
      have hlast : Exhausted (fun _ a => a.Hunting c ∧ a.Computes successors) (.seeded o batch) []
          y.reached := .last (hx ▸ .start) ⟨ha, hcomputes⟩ ended rfl
      exact ⟨fun u hu => hlast.not_target_of_reachable hle hmono htargets hhunted hu, hhunted⟩
    · simp only at hhalted
      subst hhalted
      obtain ⟨h, s, hlast, hs, htarget, honly⟩ : y.reached.Caught := hhunted
      refine ⟨h, s, hlast, by rw [Reached.lastState?, hlast]; exact hs, htarget, honly,
        fun hseparates => ?_⟩
      have hwithin : x.reached.drain.Within (Reachable (Succeeds successors) batch) :=
        Reached.Within.addAll (fun z hz => ⟨z, hpending ▸ hz, .refl⟩) (hnothing _)
      exact (Exploration.preserves_of_run (ha.confined hseparates hcomputes).keeps ended
        ⟨hconsistent.drain, hwithin⟩).2 s (Reached.mem_states_iff.2 ⟨h, hs⟩)

/-! The demonstration with its states kept apart, counting to two and failing at one; and
with merging, counting to one and failing nowhere. -/
namespace Counter

def hunt (prog : Program) : Analysis Unit Interval Unit Frontier :=
  {analysis prog false true with stop := .separate .flat}

theorem hunt_hunting (prog : Program) : (hunt prog).Hunting .flat where
  adjust := rfl
  stop := rfl
  above joins := by cases joins
  harmless joins := by cases joins
  cover := rfl

theorem hunt_computes (prog : Program) : (hunt prog).Computes (edges prog) :=
  analysis_computes (W := Frontier) prog false true

theorem analysis_hunting (prog : Program) :
    (analysis prog true true : Analysis Unit Interval Unit Frontier).Hunting
      Interval.domain.toComparison where
  adjust := rfl
  stop := rfl
  above _ _ _ _ _ _ hloc hnew :=
    (Merge.joins_join _).below Interval.below_refl (Interval.below_join_right hloc) hnew
  harmless _ s old p w new hloc hs hold hnew := by
    rw [Merge.joins_join Interval.domain hnew]
    split
    · exact hold
    · exact hs
  cover := rfl

theorem isTarget_of_loc {s t : Interval} (hloc : s.loc = t.loc) : isTarget s = isTarget t :=
  congrArg (· == Location.error) hloc

def seededState (o : TraversalOrder) : State :=
  { trail := { reached := .seeded o [(seed, ())] }, memory := () }

theorem reached_seededState (o : TraversalOrder) :
    (seededState o).reached = .seeded o [(seed, ())] := rfl

theorem hunt_verdict_counting :
    (∃ s, (Exploration.run (hunt ⟨2, some 1⟩) 20 (seededState .depthFirst)).2.reached.lastState? =
      some s ∧ isTarget s = true ∧ Reachable (Succeeds (edges ⟨2, some 1⟩)) [(seed, ())] s) ∧
      ∀ t, Reachable (Succeeds (edges ⟨1, none⟩)) [(seed, ())] t → isTarget t = false := by
  have hflat : Subsumption (Comparison.flat : Comparison Id Interval).Below :=
    Subsumption.equality
  have hseeds : ∀ x ∈ [(seed, ())], isTarget x.1 = false := List.forall_mem_singleton.2 rfl
  have hhalted : (Exploration.run (hunt ⟨2, some 1⟩) 20 (seededState .depthFirst)).1 =
      some (.ok ⟨.soundAndPrecise, .halted⟩) := by decide +kernel
  have hexhausted : (Exploration.run (analysis ⟨1, none⟩ true true) 20
      (seededState .breadthFirst)).1 = some (.ok ⟨.soundAndPrecise, .exhausted⟩) := by
    decide +kernel
  have hmono : ∀ (s t : Interval) (p q : Unit), Interval.domain.Below s t →
      ∀ x ∈ edges ⟨1, none⟩ s p, ∃ y ∈ edges ⟨1, none⟩ t q, Interval.domain.Below x.1 y.1 := by
    intro s t p q hst x hx
    obtain ⟨u, hu, rfl⟩ := List.mem_map.1 hx
    obtain ⟨v, hv, huv⟩ := Program.successors_mono rfl hst hu
    exact ⟨(v, q), List.mem_map.2 ⟨v, hv, rfl⟩, huv⟩
  have hverdict := hunt_verdict hflat
    (hunt_hunting ⟨2, some 1⟩) (hunt_computes _)
    (fun s t p q hst x hx => ⟨x, by rwa [← eq_of_beq hst], BEq.refl x.1⟩)
    (fun s t hst hs => by rwa [← eq_of_beq hst])
    hseeds (reached_seededState _) (Prod.fst_eq_iff.1 hhalted)
  have hnone := hunt_verdict Interval.subsumption
    (analysis_hunting ⟨1, none⟩) (analysis_computes ⟨1, none⟩ true true) hmono
    (fun s t hst hs => by rwa [isTarget_of_loc (Interval.below_iff.1 hst).1] at hs)
    hseeds (reached_seededState _) (Prod.fst_eq_iff.1 hexhausted)
  obtain ⟨h, s, -, hlast, htarget, -, hreachable⟩ := hverdict.2 rfl
  exact ⟨⟨s, hlast, htarget, hreachable rfl⟩, (hnone.1 rfl).1⟩

end Counter
end Reachability
