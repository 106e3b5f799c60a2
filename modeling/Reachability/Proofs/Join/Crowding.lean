import Reachability.Proofs.Join.Termination
import Reachability.Proofs.Reached.Population
import Reachability.Proofs.Run.Script

/-! Merging by the join does not crowd a location.

A merge replaces some of the states at the successor's location by as many at most, at the same
location. If it went through and anything is published there, then something there covers the
successor; so a successor is published only where nothing else is. Hence a location never holds
more states than it held when the seeds were published, or one, whatever the adjustment makes
of the successors as long as it does not halt the run. An abort may come at any moment, also
between two merges for one successor: the merges that were made before are not crowding either. -/
namespace Reachability

open AbstractState (Location location)

variable {ω S P : Type} [AbstractState S]

/-- An adjustment that never asks for a halt. -/
def Analysis.NeverHalts {W : Type} (a : Analysis ω S P W) : Prop :=
  ∀ s p r w t q, (a.adjust s p r w).result ≠ .ok (some ⟨t, q, .halt⟩)

namespace Effect
open Reached

variable [BEq S] {d : Domain Id S} {a : Analysis ω S P Frontier} {r r' : Reached S P Frontier}
  {s : S} {p : P} {changed : List (Handle × S)}

/-- What changed stays at its location, and is above the successor. -/
theorem Scanned.located (hd : d.Bounding) (ha : a.JoinMerging d) (hr : r.Consistent)
    {abort : Option Abort} (scan : Scanned a s p r (r.handlesAt s) changed abort) {c : Handle × S}
    (hc : c ∈ changed) :
    ∃ old, r.state? c.1 = some old ∧ location c.2 = location old ∧ location old = location s ∧
      d.Below s c.2 := by
  obtain ⟨hcandidate, old, w, hold, hmerge, -⟩ := scan.exists_merge hc
  have hloc := hr.location_of_mem_handlesAt hcandidate hold
  obtain ⟨hstays, habove, -⟩ := hd.above_of_merge ha.merge hloc.symm hmerge
  exact ⟨old, hold, hstays, hloc, habove⟩

variable [BEq P]

theorem Merged.population_le (hd : d.Bounding) (ha : a.JoinMerging d) (hr : r.Consistent)
    {abort : Option Abort} (h : Merged a s p r abort r') (l : Location S) :
    r'.population l ≤ r.population l := by
  cases h with
  | spared separates => exact Nat.le_refl _
  | @scanned changed abort joins scan =>
    refine hr.population_update_le ((hr.unrepeated _).sublist scan.sublist) ?_
    -- State by state, what comes is at the location of what goes.
    have hsame : ∀ c ∈ changed, ∃ old, r.state? c.1 = some old ∧ location c.2 = location old :=
      fun c hc => by
        obtain ⟨old, hold, hloc, -⟩ := scan.located hd ha hr hc
        exact ⟨old, hold, hloc⟩
    clear scan
    induction changed with
    | nil => exact Nat.le_refl _
    | cons c rest ih =>
      obtain ⟨hfirst, hrest⟩ := List.forall_mem_cons.1 hsame
      obtain ⟨old, hold, hloc⟩ := hfirst
      simp only [List.map_cons, List.filterMap_cons, hold, List.countP_cons, hloc]
      exact Nat.add_le_add_right (ih hrest) _

/-- Where something is published after a complete merge, something covers the successor. -/
theorem Merged.exists_above [PartialEquivBEq S] (hd : d.Bounding) (ha : a.JoinMerging d)
    (hr : r.Consistent) (h : Merged a s p r none r') {t : S} (ht : t ∈ r'.states)
    (hloc : location t = location s) :
    ∃ u ∈ r'.states, location u = location s ∧ d.Below s u := by
  cases h with
  | spared separates =>
    rw [ha.joins] at separates
    cases separates
  | @scanned changed abort joins scan =>
    have hreplaced : ∀ c ∈ changed, ∃ u ∈ (r.update (changed.map Prod.fst)
        (changed.map fun c => (c.2, p))).states, location u = location s ∧ d.Below s u := by
      intro c hc
      obtain ⟨old, -, hloc', hlocated, hbelow⟩ := scan.located hd ha hr hc
      have hfresh : (c.2, p) ∈ changed.map fun c => (c.2, p) := List.mem_map_of_mem hc
      obtain ⟨u, hu, huc, hsame⟩ :=
        Consistent.exists_mem_addAll (Consistent.stable.removeHandles (changed.map Prod.fst) hr) hfresh
      refine ⟨u, hu, huc.trans (hloc'.trans hlocated), ?_⟩
      rcases hsame with rfl | hsame
      · exact hbelow
      · exact hd.subsumption.trans hbelow (hd.subsumption.of_beq (PartialEquivBEq.symm hsame))
    rcases mem_states_of_mem_states_update ht with hbefore | ⟨x, hx, rfl⟩
    · obtain ⟨h, hh⟩ := mem_states_iff.1 hbefore
      by_cases hgone : h ∈ changed.map Prod.fst
      · obtain ⟨c, hc, -⟩ := List.mem_map.1 hgone
        exact hreplaced c hc
      · have hleft : ((changed.map Prod.fst).foldl removeHandle r).state? h = some t := by
          rwa [state?, get?_removeHandles, if_neg hgone]
        have hcandidate := hr.mem_handlesAt_iff.2 ⟨t, hh, hloc⟩
        exact ⟨t, mem_states_addAll (mem_states_iff.2 ⟨h, hleft⟩) _, hloc,
          scan.below_of_kept hd ha hr hcandidate hgone hh⟩
    · obtain ⟨c, hc, -⟩ := List.mem_map.1 hx
      exact hreplaced c hc

/-- What is published after a complete merge has its location to itself. -/
theorem Settled.population_le [PartialEquivBEq S] (hd : d.Bounding) (ha : a.JoinMerging d)
    (hr : r.Consistent) (hmerged : Merged a s p r none r') {after flow : Flow}
    {r'' : Reached S P Frontier} (h : Settled a s p after r' flow r'') (l : Location S) :
    r''.population l ≤ max 1 (r'.population l) := by
  have hr' : r'.Consistent := hmerged.evolves.consistent hr
  cases h with
  | undecided stop => exact Nat.le_max_right ..
  | covered stop => exact Nat.le_max_right ..
  | published stop =>
    have hadded := hr'.population_add_le s p l
    by_cases hl : location s = l
    · have hvacant : r'.population l = 0 := List.countP_eq_zero.2 fun t ht hloc => by
        rw [decide_eq_true_eq, ← hl] at hloc
        obtain ⟨u, hu, hlocated, hbelow⟩ := hmerged.exists_above hd ha hr ht hloc
        have hcovered := (ha.stop stop).2 ⟨u, hr'.mem_statesAt_iff.2 ⟨hu, hlocated⟩, hbelow⟩
        cases hcovered
      rw [if_pos hl] at hadded
      omega
    · rw [if_neg hl] at hadded
      omega

end Effect

variable [BEq S] [BEq P] {d : Domain Id S} {a : Analysis ω S P Frontier}

/-- No location holds more than one state, unless it may. -/
def Reached.Uncrowded (room : Location S → Nat) (r : Reached S P Frontier) : Prop :=
  r.Consistent ∧ ∀ l, r.population l ≤ max 1 (room l)

theorem Analysis.JoinMerging.keepsThroughout [PartialEquivBEq S] (ha : a.JoinMerging d)
    (hd : d.Bounding) (hhalts : a.NeverHalts) (room : Location S → Nat) :
    a.KeepsThroughout (Reached.Uncrowded room) where
  cover := ha.cover
  pop hr := ⟨hr.1.pop, fun l => (Reached.population_pop _ l).trans_le (hr.2 l)⟩
  enqueue h hr := ⟨hr.1.enqueue h, fun l => (Reached.population_enqueue _ h l).trans_le (hr.2 l)⟩
  halt _ hadjust _ := (hhalts _ _ _ _ _ _ hadjust).elim
  merge hr _ hmerged :=
    ⟨hmerged.evolves.consistent hr.1, fun l => (hmerged.population_le hd ha hr.1 l).trans (hr.2 l)⟩
  settle hr _ hmerged hsettled := by
    refine ⟨hsettled.settling.evolves.consistent (hmerged.evolves.consistent hr.1), fun l => ?_⟩
    have hafter := hsettled.population_le hd ha hr.1 hmerged l
    have hbefore := hmerged.population_le hd ha hr.1 l
    have hroom := hr.2 l
    omega

/-- **A join analysis does not crowd its partitions.** However a run goes and however it ends, at
each location there are at most as many states after it as there were right after the seeds
were published, or one. If no partition had more than one state then, none has at any later
moment of the run. -/
theorem population_le_of_join [PartialEquivBEq S] (hd : d.Bounding) (ha : a.JoinMerging d)
    (hhalts : a.NeverHalts) {o : TraversalOrder} {x : Exploration ω S P Frontier}
    (hx : Reached.Evolves (.ofOrder o) x.reached) (limit : Nat) :
    (∀ l, (x.run a limit).2.reached.population l ≤ max 1 (x.reached.drain.population l)) ∧
    (x.reached.drain.maxPartitionSize ≤ 1 →
      x.reached.drain.Throughout (fun r => r.maxPartitionSize ≤ 1)
        (Exploration.iterateScript a limit (x.start .total).publishSeeds)) := by
  have hdrained : x.reached.drain.Consistent := (hx.consistent (.ofOrder o)).drain
  have hthroughout : ∀ room : Location S → Nat,
      (∀ l, x.reached.drain.population l ≤ max 1 (room l)) →
        x.reached.drain.Throughout (Reached.Uncrowded room)
          (Exploration.iterateScript a limit (x.start .total).publishSeeds) := fun room hroom => by
    have hpublished : (x.start .total).publishSeeds.reached = x.reached.drain := by simp
    have hiterated := Exploration.throughout_iterate (ha.keepsThroughout hd hhalts room)
      (x := (x.start .total).publishSeeds) limit
    rw [hpublished] at hiterated
    exact hiterated ⟨hdrained, hroom⟩
  refine ⟨fun l => ?_, fun hsingle => ?_⟩
  · have hafter := (hthroughout _ fun l => Nat.le_max_right ..).last
    rw [Exploration.reached_run, Exploration.runScript, Reached.performAll_append,
      Exploration.performAll_drainScript]
    exact hafter.2 l
  · refine (hthroughout (fun _ => 1) fun l => ?_).mono fun r hr => ?_
    · exact (hdrained.maxPartitionSize_le_iff 1).1 hsingle l
    · exact (hr.1.maxPartitionSize_le_iff 1).2 hr.2

/-! The demonstration with merging, begun with two intervals at the loop. -/
namespace Counter

def crowded : State :=
  let published : Reached Interval Unit Frontier :=
    (Reached.ofOrder .depthFirst).performAll [.add ⟨.loop, 0, 0⟩ (), .add ⟨.loop, 5, 5⟩ ()]
  { trail := { reached := published }, memory := () }

/-- The demonstration, counting to one. -/
def sparse : State :=
  initial { bound := 1, join := true }

/-- Intervals are joined as before, but each merge requests a shutdown. -/
def weary : Analysis Unit Interval Unit Frontier :=
  {analysis ⟨9, none⟩ true false with
    merge := {
      merge := fun s old p => do
        Ask.requestShutdown "enough"
        (Merge.join Interval.domain.lift).merge s old p } }

theorem weary_joinMerging : weary.JoinMerging Interval.domain :=
  {analysis_joinMerging ⟨9, none⟩ with
    merge := (Merge.joins_join Interval.domain).after (Ask.requestShutdown "enough") false }

/-- In the last of the runs the first interval at the loop is widened, and the second one is left
as it is. -/
theorem crowded_population_le :
    (crowded.run (analysis ⟨9, none⟩ true false) 30).2.reached.population Location.loop ≤ 2 ∧
      sparse.reached.drain.Throughout (fun r => r.maxPartitionSize ≤ 1)
        (Exploration.iterateScript (analysis ⟨1, none⟩ true false) 20
          (sparse.start .total).publishSeeds) ∧
      (crowded.run weary 30).2.reached.population Location.loop ≤ 2 ∧
      (crowded.run weary 30).1 = some (.error .interrupted) ∧
      (crowded.run weary 30).2.reached.states = [⟨.loop, 0, 6⟩, ⟨.loop, 5, 5⟩] := by
  have hhalts : ∀ prog : Program, (analysis prog true false :
      Analysis Unit Interval Unit Frontier).NeverHalts := fun _ _ _ _ _ _ _ h => by cases h
  have hpublished : Reached.Evolves (.ofOrder .depthFirst) crowded.reached := ⟨_, rfl⟩
  have hcrowded := population_le_of_join Interval.bounding (analysis_joinMerging ⟨9, none⟩)
    (hhalts _) hpublished 30
  have hseeded : Reached.Evolves (.ofOrder .breadthFirst) sparse.reached :=
    ⟨[.addInitial seed ()], rfl⟩
  have hsingle := population_le_of_join Interval.bounding (analysis_joinMerging ⟨1, none⟩)
    (hhalts _) hseeded 20
  have hroom : crowded.reached.drain.population Location.loop = 2 := by decide +kernel
  have hweary := population_le_of_join Interval.bounding weary_joinMerging
    (fun _ _ _ _ _ _ h => by cases h) hpublished 30
  have hlimit : ∀ n, n ≤ max 1 (crowded.reached.drain.population Location.loop) → n ≤ 2 :=
    fun n hn => by rwa [hroom] at hn
  exact ⟨hlimit _ (hcrowded.1 Location.loop), hsingle.2 (by decide +kernel),
    hlimit _ (hweary.1 Location.loop), by decide +kernel, by decide +kernel⟩

end Counter
end Reachability
