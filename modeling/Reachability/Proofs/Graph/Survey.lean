import Mathlib.Data.List.Induction
import Reachability.Proofs.Graph.Sweep
import Reachability.Proofs.Join.Independence
import Reachability.Proofs.Reached.Population

/-! A finite graph is surveyed.

Each iteration brings one more pair to rest, and there are no more pairs than nodes: so a run ends
after as many iterations as there are nodes, at the latest. If it is exhausted, all pairs rest,
and since none did at the beginning, each was expanded exactly once. If it halts, one more
state at which runs halt is published, so that only so many runs in a row can halt
(`finite_survey`). -/
namespace Reachability

open AbstractState (location)

variable {ω S P : Type} [AbstractState S] [BEq S] [BEq P] {succs : S → List S} {halts : S → Bool}

/-! ### Ledgers -/

namespace Reached
variable {r : Reached S P Frontier} {done : List Handle}

omit [BEq S] [BEq P] in
theorem states_eq_filterMap (r : Reached S P Frontier) :
    (r.entries.map Prod.fst).filterMap r.state? = r.states := by
  have hstate : ∀ x ∈ r.entries, r.state? x.1 = some x.2.state := fun x hx =>
    state?_eq_some_iff.2 ⟨x.2, (Arena.mem_toList_iff ..).1 hx, rfl⟩
  rw [List.filterMap_map, states, ← List.filterMap_eq_map]
  exact List.filterMap_congr hstate

omit [BEq S] [BEq P] in
theorem Ledger.length_le (hr : r.Ledger done) : done.length ≤ r.states.length := by
  have hsubset : done ⊆ r.entries.map Prod.fst := fun h hmem => by
    obtain ⟨s, p, hrests⟩ := (hr.mem_iff h).1 hmem
    refine Arena.mem_handles_iff.2 ?_
    rw [Arena.contains_eq, hrests]
    rfl
  have hlength := (List.subperm_of_subset hr.nodup hsubset).length_le
  rwa [List.length_map, ← List.length_map (fun x : Handle × Entry S P => x.2.state)] at hlength

omit [BEq S] [BEq P] in
/-- Where nothing waits, the ledger names all pairs. -/
theorem Ledger.perm_states (hr : r.Ledger done) (hconsistent : r.Consistent)
    (hidle : r.hasWaiting = false) : (done.filterMap r.state?).Perm r.states := by
  have hnil := Consistent.not_hasWaiting_iff.1 hidle
  have hperm : done.Perm (r.entries.map Prod.fst) := by
    refine (List.perm_ext_iff_of_nodup hr.nodup (Arena.nodup_handles r.arena)).2 fun h => ?_
    rw [hr.mem_iff, Arena.mem_handles_iff, Arena.contains_eq, Option.isSome_iff_exists]
    constructor
    · rintro ⟨s, p, hrests⟩
      exact ⟨_, hrests⟩
    · rintro ⟨⟨s, p, waiting⟩, he⟩
      have hwait : waiting = false := hconsistent.not_waiting_of_toList_eq_nil hnil he
      subst hwait
      exact ⟨s, p, he⟩
  rw [← states_eq_filterMap]
  exact hperm.filterMap _

omit [BEq S] [BEq P] in
theorem exists_ledger (r : Reached S P Frontier) : ∃ done, r.Ledger done := by
  refine ⟨(r.entries.filter fun x => !x.2.waiting).map Prod.fst,
    (Arena.nodup_handles r.arena).sublist (List.filter_sublist.map _), fun h => ?_⟩
  simp only [List.mem_map, List.mem_filter, Prod.exists, entries, Arena.mem_toList_iff]
  constructor
  · rintro ⟨g, ⟨s, p, waiting⟩, ⟨he, hwait⟩, rfl⟩
    simp only [Bool.not_eq_true'] at hwait
    subst hwait
    exact ⟨s, p, he⟩
  · rintro ⟨s, p, hrests⟩
    exact ⟨h, ⟨s, p, false⟩, ⟨hrests, rfl⟩, rfl⟩

/-- Publishing seeds brings nothing to rest. -/
theorem ledger_drain_seeded (o : TraversalOrder) (batch : List (S × P)) :
    (seeded o batch).drain.Ledger [] := by
  refine ⟨.nil, fun h => ⟨fun hmem => (List.not_mem_nil hmem).elim, ?_⟩⟩
  rintro ⟨s, p, hrests⟩
  have htaken : ∀ g t q, ¬ (seeded o batch).takeSeeds.2.Rests g t q := fun g t q hg => by
    rw [seeded_eq] at hg
    have hget : (Reached.ofOrder o : Reached S P Frontier).arena.get? g = some ⟨t, q, false⟩ := hg
    rw [Consistent.get?_ofOrder] at hget
    cases hget
  have hadded : ∀ (r : Reached S P Frontier) s p, (∀ g t q, ¬ r.Rests g t q) →
      ∀ g t q, ¬ (r.add s p).2.Rests g t q := fun r s p hr g t q hg => hr g t q (rests_of_add hg)
  have hnone : ∀ g t q, ¬ (seeded o batch).drain.Rests g t q := drain_preserves htaken hadded
  exact (hnone h s p hrests).elim

end Reached

/-! ### Runs -/

variable [EquivBEq S] {a : Analysis ω S P Frontier} {o : TraversalOrder} {batch : List (S × P)}
  {nodes : List S}

omit [EquivBEq S] in
theorem History.seeded (admits : (ω : Type) → Analysis ω S P Frontier → Prop) (o : TraversalOrder)
    (batch : List (S × P)) : History admits (.ofOrder o) batch (.seeded o batch) := by
  induction batch using List.reverseRecOn with
  | nil => exact .start
  | append_singleton rest pair ih =>
    have hseeded : Reached.seeded o (rest ++ [pair]) =
        (Reached.seeded o rest).addInitial pair.1 pair.2 := by
      rw [Reached.seeded, List.foldl_append]
      rfl
    rw [hseeded]
    exact ih.schedule pair.1 pair.2

theorem History.kept {admits : (ω : Type) → Analysis ω S P Frontier → Prop}
    {r : Reached S P Frontier}
    (hlocation : ∀ s t : S, (s == t) = true → location s = location t)
    (h : History admits (.ofOrder o) batch r) : r.Kept := by
  have hstable := Reached.Kept.stable (P := P) hlocation
  refine h.induct Reached.Kept (.ofOrder o) (fun r seeds hr => hstable.seeds seeds hr)
    (fun r s p hr => hstable.add s p hr) ?_
  intro ω a ha r ended r' hr hstep
  obtain ⟨ops, rfl⟩ := hstep.evolves
  exact hstable.performAll ops hr

namespace Exploration

variable {x y : Exploration ω S P Frontier}
  (hlocation : ∀ s t : S, (s == t) = true → location s = location t)
include hlocation

/-- Iterations that do not end the run expand one pair each. -/
theorem exists_toured (ha : a.Steady succs) (hadjust : a.adjust = .haltOn halts) {n : Nat}
    {x y : Exploration ω S P Frontier} (hr : x.reached.Consistent)
    (quiet : x.shutdown.requested = false) (hbefore : iterate a n x = (none, y)) :
    ∃ tour, tour.length = n ∧ Toured a succs tour x y ∧ y.reached.Consistent := by
  induction n generalizing x with
  | zero =>
    cases hbefore
    exact ⟨[], rfl, .refl a succs _, hr⟩
  | succ n ih =>
    unfold iterate at hbefore
    have hevolves := (Effect.step_effect a x).evolves.consistent hr
    cases hwaiting : x.reached.hasWaiting with
    | false =>
      rw [step_eq, hwaiting] at hbefore
      cases hbefore
    | true =>
      rcases exists_step ha hadjust hlocation hr quiet hwaiting with
        ⟨h, z, hstep, hz⟩ | ⟨z, hstep, -⟩
      · rw [hstep] at hbefore hevolves
        obtain ⟨tour, hlength, htoured, hy⟩ := ih hevolves (hz.shutdown ▸ quiet) hbefore
        exact ⟨h :: tour, congrArg (· + 1) hlength, hz.trans htoured, hy⟩
      · rw [hstep] at hbefore
        cases hbefore

end Exploration

/-- An exploration of the graph, so far without a request for a shutdown. -/
structure Surveying (succs : S → List S) (o : TraversalOrder) (batch : List (S × P))
    (x : Exploration ω S P Frontier) : Prop where
  history : History (fun _ a => a.Explicit succs) (.ofOrder o) batch x.reached
  quiet : x.shutdown.requested = false

/-- The graph, and an analysis of it that may halt at some states. -/
structure Analysis.Surveys (succs : S → List S) (halts : S → Bool) (batch : List (S × P))
    (nodes : List S) (a : Analysis ω S P Frontier) : Prop where
  steady : a.Steady succs
  adjust : a.adjust = .haltOn halts
  located : ∀ s t : S, (s == t) = true → location s = location t
  similar : ∀ s t, (s == t) = true → SameStates (succs s) (succs t)
  nodes : Lists succs batch nodes

namespace Surveying
open Exploration

variable {x y : Exploration ω S P Frontier} (ha : a.Surveys succs halts batch nodes)
  (hx : Surveying succs o batch x)
include hx

omit [EquivBEq S] in
theorem quiet_publishSeeds : (x.start .total).publishSeeds.shutdown.requested = false := by
  have hmind := mind_publishSeeds (x.start .total)
  rw [show (x.start .total).publishSeeds.shutdown = x.shutdown from congrArg Prod.snd hmind]
  exact hx.quiet

include ha

/-- At no moment of a run anything but nodes is published. -/
theorem exists_node (n : Nat) {s : S}
    (hs : s ∈ (iterate a n (x.start .total).publishSeeds).2.reached.states) :
    ∃ t ∈ nodes, (s == t) = true := by
  have hconfined := fun (ω : Type) (a : Analysis ω S P Frontier) (ha' : a.Explicit succs) =>
    ha'.confined batch ha.similar
  obtain ⟨hwithin, hpending⟩ := hx.history.within hconfined (.ofOrder o)
    (fun t ht => by
      rw [Reached.Consistent.states_ofOrder] at ht
      cases ht)
    (fun y hy => (List.not_mem_nil hy).elim) (fun y hy => ⟨y.1, ⟨y, hy, .refl⟩, BEq.refl y.1⟩)
  obtain ⟨t, ht, hst⟩ := within_iterate ((ha.steady.explicit ha.adjust).confined batch ha.similar)
    (hx.history.consistent (.ofOrder o)) hwithin hpending n s hs
  obtain ⟨u, hu, htu⟩ := ha.nodes.complete t ht
  exact ⟨u, hu, PartialEquivBEq.trans hst htu⟩

theorem differing (n : Nat) :
    Differing (iterate a n (x.start .total).publishSeeds).2.reached.states := by
  have hdrained : (x.start .total).publishSeeds.reached.Kept := by
    rw [reached_publishSeeds, reached_start]
    have hkept := (Reached.Kept.stable ha.located).performAll (drainScript x.reached)
      (hx.history.kept ha.located)
    rwa [performAll_drainScript] at hkept
  have hafter := preserves_iterate ((ha.steady.explicit ha.adjust).keeps_distinct ha.located)
    ⟨hdrained.consistent, hdrained.distinct⟩ n
  exact hafter.2.pairwise.imp fun hne => by simpa using hne

/-- A run ends within one iteration more than there are nodes, by a halt or exhausted. -/
theorem run_cases {limit : Nat} (hlimit : nodes.length < limit) :
    ∃ n tour top, iterate a n (x.start .total).publishSeeds = (none, top) ∧
      Toured a succs tour (x.start .total).publishSeeds top ∧ top.reached.Consistent ∧
      ((top.reached.hasWaiting = false ∧ x.run a limit = (some (.ok ⟨a.status, .exhausted⟩),
          conclude (.ok ⟨a.status, .exhausted⟩) top)) ∨
        ∃ y, iterate a (n + 1) (x.start .total).publishSeeds = (some (.ok .halted), y) ∧
          Found halts top y ∧ x.run a limit = (some (.ok ⟨a.status, .halted⟩),
            conclude (.ok ⟨a.status, .halted⟩) y)) := by
  have hconsistent : (x.start .total).publishSeeds.reached.Consistent := by
    rw [reached_publishSeeds, reached_start]
    exact (hx.history.consistent (.ofOrder o)).drain
  have hquiet := hx.quiet_publishSeeds
  have hrun : ∀ {result z}, iterate a limit (x.start .total).publishSeeds = (some result, z) →
      x.run a limit = (some (result.map fun t => ⟨a.status, t⟩),
        conclude (result.map fun t => ⟨a.status, t⟩) z) := fun hended => by
    unfold run
    rw [hended]
  cases hiterated : iterate a limit (x.start .total).publishSeeds with
  | mk ended y =>
    cases ended with
    | none =>
      obtain ⟨tour, hlength, htoured, -⟩ :=
        exists_toured ha.located ha.steady ha.adjust hconsistent hquiet hiterated
      obtain ⟨done, hdone⟩ := Reached.exists_ledger (x.start .total).publishSeeds.reached
      have hbound := (htoured.ledger hdone).length_le
      have hnodes := (hx.differing ha limit).length_le fun s hs => hx.exists_node ha limit hs
      rw [hiterated] at hnodes
      rw [List.length_append, hlength] at hbound
      simp only at hnodes
      omega
    | some result =>
      obtain ⟨n, top, hbefore, hlast⟩ := exists_last_step hiterated
      obtain ⟨tour, -, htoured, htop⟩ :=
        exists_toured ha.located ha.steady ha.adjust hconsistent hquiet hbefore
      refine ⟨n, tour, top, hbefore, htoured, htop, ?_⟩
      cases hwaiting : top.reached.hasWaiting with
      | false =>
        rw [step_eq, hwaiting] at hlast
        cases hlast
        exact .inl ⟨rfl, hrun hiterated⟩
      | true =>
        rcases exists_step ha.steady ha.adjust ha.located htop (htoured.shutdown ▸ hquiet) hwaiting
          with ⟨h, z, hstep, -⟩ | ⟨z, hstep, hz⟩
        · rw [hstep] at hlast
          cases hlast
        · have hhalted := (iterate_succ_of_none hbefore).trans hstep
          rw [hstep] at hlast
          cases hlast
          exact .inr ⟨y, hhalted, hz, hrun hiterated⟩

/-- A run is part of the history. -/
theorem run {limit : Nat} (hlimit : nodes.length < limit) :
    Surveying succs o batch (x.run a limit).2 := by
  obtain ⟨n, tour, top, -, htoured, -, hend⟩ := hx.run_cases ha hlimit
  have hquiet : top.shutdown.requested = false := by
    rw [htoured.shutdown]
    exact hx.quiet_publishSeeds
  refine ⟨hx.history.ran (ha.steady.explicit ha.adjust) ?_, ?_⟩
  · rcases hend with ⟨-, hrun⟩ | ⟨y, -, -, hrun⟩ <;> rw [hrun] <;> rfl
  · rcases hend with ⟨-, hrun⟩ | ⟨y, -, hy, hrun⟩
    · rw [hrun]
      exact hquiet
    · rw [hrun]
      exact hy.shutdown ▸ hquiet

end Surveying

/-! ### One run that does not halt -/

/-- What there is to count after a run over the whole graph. -/
structure Exploration.Census (a : Analysis ω S P Frontier) (succs : S → List S)
    (batch : List (S × P)) (nodes : List S) (x y : Exploration ω S P Frontier) : Prop where
  /-- What is published is what is reachable, each state once. -/
  exact : y.reached.Exact succs batch
  /-- Whatever log of its calls the transfer keeps, each published state was added to it once. -/
  asked : ∀ log : ω → List S, (∀ s p w, log (a.transfer s p w).memory = log w ++ [s]) →
    ∃ calls, log y.memory = log x.memory ++ calls ∧ calls.Perm y.reached.states
  size : y.reached.size = nodes.length
  iterations : y.statistics.iterations = y.reached.size
  successors : y.statistics.successors = (nodes.map fun s => (succs s).length).sum
  balance : y.reached.size + y.statistics.stops =
    (batch.map Prod.fst).eraseDups.length + y.statistics.successors

omit [EquivBEq S] [BEq P] in
theorem Reached.Kept.size_eq {r : Reached S P Frontier} (hr : r.Kept) :
    r.size = r.states.length := by
  rw [Reached.states, List.length_map]
  exact hr.counted

/-- Of equal seeds one is published. -/
theorem Reached.size_drain_seeded
    (hlocation : ∀ s t : S, (s == t) = true → location s = location t) (o : TraversalOrder)
    (batch : List (S × P)) :
    (Reached.seeded o batch).drain.size = (batch.map Prod.fst).eraseDups.length := by
  have hstable := Reached.Kept.stable (P := P) hlocation
  have hkept : (Reached.seeded o batch).drain.Kept := by
    rw [← Exploration.performAll_drainScript, Reached.seeded_eq]
    exact hstable.performAll _ (hstable.seeds batch (.ofOrder o))
  have htaken : (Reached.seeded o batch).takeSeeds.2.states = [] := Reached.states_seeded o batch
  have hsame : SameStates (Reached.seeded o batch).drain.states (batch.map Prod.fst) := by
    unfold Reached.drain
    rw [Reached.seeds_seeded]
    constructor
    · intro s hs
      rcases Reached.mem_states_of_mem_states_addAll hs with hs | ⟨x, hx, rfl⟩
      · rw [htaken] at hs
        cases hs
      · exact ⟨x.1, List.mem_map_of_mem hx, BEq.refl x.1⟩
    · intro s hs
      obtain ⟨x, hx, rfl⟩ := List.mem_map.1 hs
      have hconsistent : (Reached.seeded o batch).takeSeeds.2.Consistent :=
        (Reached.consistent_seeded o batch).congr rfl rfl rfl
      obtain ⟨t, ht, -, htx⟩ := hconsistent.exists_mem_addAll hx
      rcases htx with rfl | htx
      · exact ⟨x.1, ht, BEq.refl x.1⟩
      · exact ⟨t, ht, PartialEquivBEq.symm htx⟩
  rw [hkept.size_eq]
  have hdiffering : Differing (Reached.seeded o batch).drain.states :=
    hkept.distinct.pairwise.imp fun hne => by simpa using hne
  exact (hsame.trans (sameStates_eraseDups _).symm).length_eq hdiffering (differing_eraseDups _)

omit [EquivBEq S] [BEq P] [BEq S] in
theorem Exploration.Toured.length_eq {tour : List Handle} {x y : Exploration ω S P Frontier}
    (h : Toured a succs tour x y) : (tour.filterMap y.reached.state?).length = tour.length := by
  refine List.filterMap_length_eq_length.2 fun g hmem => ?_
  obtain ⟨s, hs⟩ := h.live g hmem
  rw [hs]
  rfl

/-- A tour that leaves nothing waiting is a census of the graph. -/
theorem Exploration.Toured.census {tour : List Handle} {x top y : Exploration ω S P Frontier}
    (ha : a.Surveys succs halts batch nodes)
    (hlength : ∀ s t, (s == t) = true → (succs s).length = (succs t).length)
    (hx : x.reached = .seeded o batch) (hfresh : x.statistics = {})
    (htoured : Toured a succs tour (x.start .total).publishSeeds top)
    (hkept : top.reached.Kept) (hidle : top.reached.hasWaiting = false)
    (hexact : top.reached.Exact succs batch) (hreached : y.reached = top.reached)
    (hmemory : y.memory = top.memory) (hcounts : y.counts = top.counts) :
    x.Census a succs batch nodes y := by
  have hdrained : (x.start .total).publishSeeds.reached = (Reached.seeded o batch).drain := by
    rw [reached_publishSeeds, reached_start, hx]
  have hzero : (x.start .total).publishSeeds.counts = Statistics.counts {} := by
    rw [counts_publishSeeds, counts_start, counts, hfresh]
  have hnone : (x.start .total).publishSeeds.reached.Ledger [] := by
    rw [hdrained]
    exact Reached.ledger_drain_seeded o batch
  have hledger : top.reached.Ledger tour := htoured.ledger hnone
  have hperm := hledger.perm_states hkept.consistent hidle
  have hsame := hexact.sameStates ha.nodes
  have hiterations : top.counts.iterations = tour.length := by
    rw [htoured.iterations, hzero]
    exact Nat.zero_add _
  have hsuccessors : top.counts.successors = (nodes.map fun s => (succs s).length).sum := by
    rw [htoured.successors, hzero, (hperm.map _).sum_nat,
      hsame.sum_eq hexact.distinct ha.nodes.differing hlength]
    exact Nat.zero_add _
  have hbalance : top.reached.size + top.counts.stops =
      (batch.map Prod.fst).eraseDups.length + top.counts.successors := by
    have hbalance := htoured.balance
    rw [hdrained, hzero, Reached.size_drain_seeded ha.located] at hbalance
    exact hbalance
  refine ⟨hreached ▸ hexact, fun log hlog => ⟨tour.filterMap top.reached.state?, ?_, ?_⟩, ?_, ?_,
    ?_, ?_⟩
  · rw [hmemory, htoured.log log hlog]
    exact congrArg (log · ++ _) (congrArg Prod.fst (mind_publishSeeds (x.start .total)))
  · rw [hreached]
    exact hperm
  · rw [hreached, hkept.size_eq]
    exact hsame.length_eq hexact.distinct ha.nodes.differing
  · rw [hreached, hkept.size_eq, ← hperm.length_eq, htoured.length_eq]
    exact (congrArg Statistics.iterations hcounts).trans hiterations
  · exact (congrArg Statistics.successors hcounts).trans hsuccessors
  · have hboth : y.reached.size + y.counts.stops =
        (batch.map Prod.fst).eraseDups.length + y.counts.successors := by
      rw [hreached, hcounts, hbalance]
    exact hboth

theorem exists_census {x : Exploration ω S P Frontier}
    (ha : a.Surveys succs (fun _ => false) batch nodes)
    (hlength : ∀ s t, (s == t) = true → (succs s).length = (succs t).length)
    (hx : x.reached = .seeded o batch) (hquiet : x.shutdown.requested = false)
    (hfresh : x.statistics = {}) {limit : Nat} (hlimit : nodes.length < limit) :
    ∃ y, x.run a limit = (some (.ok ⟨a.status, .exhausted⟩), y) ∧ x.Census a succs batch nodes y := by
  have hsurveying : Surveying succs o batch x := ⟨hx ▸ .seeded _ o batch, hquiet⟩
  obtain ⟨n, tour, top, -, htoured, htop, hend⟩ := hsurveying.run_cases ha hlimit
  rcases hend with ⟨hidle, hrun⟩ | ⟨y, -, hfound, -⟩
  · have hafter := (hsurveying.run ha hlimit).history.kept ha.located
    have hexhausted : Exhausted (fun _ a => a.Explicit succs) (.ofOrder o) batch
        (Exploration.conclude (.ok ⟨a.status, .exhausted⟩) top).reached :=
      .last hsurveying.history (ha.steady.explicit ha.adjust) hrun rfl
    have hexact := hexhausted.exact ha.located ha.similar
    rw [hrun, Exploration.reached_conclude] at hafter
    rw [Exploration.reached_conclude] at hexact
    exact ⟨_, hrun, htoured.census ha hlength hx hfresh hafter hidle hexact
      (Exploration.reached_conclude ..) rfl (Exploration.counts_conclude ..)⟩
  · obtain ⟨s, -, hhalts, -⟩ := hfound.latest
    cases hhalts

/-! ### Runs that halt -/

namespace Surveying
open Exploration

variable {x : Exploration ω S P Frontier} (ha : a.Surveys succs halts batch nodes)
  (hx : Surveying succs o batch x)
include ha hx

theorem exhausted_or_halted {limit : Nat} (hlimit : nodes.length < limit) :
    (x.run a limit).1 = some (.ok ⟨a.status, .exhausted⟩) ∨
      (x.run a limit).1 = some (.ok ⟨a.status, .halted⟩) := by
  obtain ⟨n, tour, top, -, -, -, hend⟩ := hx.run_cases ha hlimit
  rcases hend with ⟨-, hrun⟩ | ⟨y, -, -, hrun⟩
  · exact .inl (congrArg Prod.fst hrun)
  · exact .inr (congrArg Prod.fst hrun)

/-- A run that halts has published a state that none of the earlier ones equals. -/
theorem exists_latest {limit : Nat} (hlimit : nodes.length < limit)
    (hhalted : (x.run a limit).1 = some (.ok ⟨a.status, .halted⟩)) :
    ∃ s, (x.run a limit).2.reached.lastState? = some s ∧ halts s = true ∧
      s ∈ (x.run a limit).2.reached.states ∧
      ∀ t ∈ x.reached.drain.states, (s == t) = false ∧ t ∈ (x.run a limit).2.reached.states := by
  obtain ⟨n, tour, top, -, htoured, -, hend⟩ := hx.run_cases ha hlimit
  rcases hend with ⟨-, hrun⟩ | ⟨y, -, hy, hrun⟩
  · rw [hrun] at hhalted
    cases hhalted
  · rw [hrun, reached_conclude]
    have hfound := hy.after htoured.kept htoured.shutdown
    obtain ⟨s, hlast, hhalts, hdiffers⟩ := hfound.latest
    rw [reached_publishSeeds, reached_start] at hdiffers
    refine ⟨s, hlast, hhalts, ?_, fun t ht => ⟨hdiffers t ht, ?_⟩⟩
    · obtain ⟨h, -, hs⟩ := Option.bind_eq_some_iff.1 hlast
      exact Reached.mem_states_iff.2 ⟨h, hs⟩
    · obtain ⟨h, hh⟩ := Reached.mem_states_iff.1 ht
      refine Reached.mem_states_iff.2 ⟨h, hfound.kept ?_⟩
      rw [reached_publishSeeds, reached_start]
      exact hh

/-- Once the seeds are published, no more than the nodes are. -/
theorem length_filter_le (hclosed : ∀ s t, (s == t) = true → halts s = halts t) :
    (x.reached.drain.states.filter halts).length ≤ (nodes.filter halts).length := by
  have hdrained : (iterate a 0 (x.start .total).publishSeeds).2.reached = x.reached.drain := by
    rw [iterate, reached_publishSeeds, reached_start]
  have hdiffering := hx.differing ha 0
  rw [hdrained] at hdiffering
  refine (hdiffering.sublist List.filter_sublist).length_le fun s hs => ?_
  obtain ⟨hmem, hhalts⟩ := List.mem_filter.1 hs
  obtain ⟨t, ht, hst⟩ := hx.exists_node ha 0 (hdrained ▸ hmem)
  exact ⟨t, List.mem_filter.2 ⟨ht, hclosed s t hst ▸ hhalts⟩, hst⟩

/-- A run that halts leaves more states published at which runs halt. -/
theorem length_filter_lt {limit : Nat} (hlimit : nodes.length < limit)
    (hhalted : (x.run a limit).1 = some (.ok ⟨a.status, .halted⟩)) :
    (x.reached.drain.states.filter halts).length <
      ((x.run a limit).2.reached.drain.states.filter halts).length := by
  obtain ⟨s, -, hhalts, hs, hdiffers⟩ := hx.exists_latest ha hlimit hhalted
  have hkept : ∀ {t}, t ∈ (x.run a limit).2.reached.states →
      t ∈ (x.run a limit).2.reached.drain.states := fun {t} ht =>
    Reached.mem_states_addAll (r := (x.run a limit).2.reached.takeSeeds.2) ht _
  have hdiffering : Differing x.reached.drain.states := by
    have hdrained := hx.differing ha 0
    rwa [iterate, reached_publishSeeds, reached_start] at hdrained
  have hmore : Differing (s :: x.reached.drain.states.filter halts) :=
    List.pairwise_cons.2 ⟨fun t ht => (hdiffers t (List.mem_of_mem_filter ht)).1,
      hdiffering.sublist List.filter_sublist⟩
  refine hmore.length_le fun t ht => ⟨t, List.mem_filter.2 ?_, BEq.refl t⟩
  rcases List.mem_cons.1 ht with rfl | ht
  · exact ⟨hkept hs, hhalts⟩
  · obtain ⟨hmem, hhalts⟩ := List.mem_filter.1 ht
    exact ⟨hkept (hdiffers t hmem).2, hhalts⟩

end Surveying

/-- What so many runs leave, one after the other. -/
def Exploration.runs {ω S P W : Type} [AbstractState S] [Waitlist W] [BEq S] [BEq P]
    (a : Analysis ω S P W) (limit : Nat) : Nat → Exploration ω S P W → Exploration ω S P W
  | 0, x => x
  | n + 1, x => runs a limit n (x.run a limit).2

omit [EquivBEq S] in
theorem Exploration.runs_succ (a : Analysis ω S P Frontier) (limit n : Nat)
    (x : Exploration ω S P Frontier) : x.runs a limit (n + 1) = ((x.runs a limit n).run a limit).2 := by
  induction n generalizing x with
  | zero => rfl
  | succ n ih => exact ih (x.run a limit).2

theorem Surveying.runs {x : Exploration ω S P Frontier} (ha : a.Surveys succs halts batch nodes)
    (hx : Surveying succs o batch x) {limit : Nat} (hlimit : nodes.length < limit) (n : Nat) :
    Surveying succs o batch (x.runs a limit n) := by
  induction n generalizing x with
  | zero => exact hx
  | succ n ih => exact ih (hx.run ha hlimit)

/-- Each halt uses up one of the states at which runs halt, so after as many runs at the latest
one is exhausted. -/
theorem Surveying.exists_exhausted (ha : a.Surveys succs halts batch nodes)
    (hclosed : ∀ s t, (s == t) = true → halts s = halts t) {limit : Nat}
    (hlimit : nodes.length < limit) (k : Nat) {x : Exploration ω S P Frontier}
    (hx : Surveying succs o batch x)
    (hk : (nodes.filter halts).length ≤ (x.reached.drain.states.filter halts).length + k) :
    ∃ n ≤ k, (∀ m < n, ((x.runs a limit m).run a limit).1 = some (.ok ⟨a.status, .halted⟩)) ∧
      ((x.runs a limit n).run a limit).1 = some (.ok ⟨a.status, .exhausted⟩) := by
  induction k generalizing x with
  | zero =>
    rcases hx.exhausted_or_halted ha hlimit with hexhausted | hhalted
    · exact ⟨0, Nat.le_refl 0, fun m hm => (Nat.not_lt_zero m hm).elim, hexhausted⟩
    · have hmore := hx.length_filter_lt ha hlimit hhalted
      have hroom := (hx.run ha hlimit).length_filter_le ha hclosed
      omega
  | succ k ih =>
    rcases hx.exhausted_or_halted ha hlimit with hexhausted | hhalted
    · exact ⟨0, Nat.zero_le _, fun m hm => (Nat.not_lt_zero m hm).elim, hexhausted⟩
    · have hmore := hx.length_filter_lt ha hlimit hhalted
      obtain ⟨n, hn, hbefore, hlast⟩ := ih (hx.run ha hlimit) (by omega)
      refine ⟨n + 1, Nat.succ_le_succ hn, fun m hm => ?_, hlast⟩
      cases m with
      | zero => exact hhalted
      | succ m => exact hbefore m (Nat.lt_of_succ_lt_succ hm)

/-! ### The survey -/

/-- **A finite graph is surveyed, by one run or by several.** Let successors be computed without
fail, let equal states have equal successors, and let the states reachable from a batch of
seeds be those of a list, up to equality. Then a run that adjusts nothing is exhausted, has
expanded each reachable state once, and its counters add up. If runs halt at some of the
states, each run that halts has published a state unlike all before, and so the runs in a row
that halt are no more than these states; the next is exhausted, with all that is reachable
published. -/
theorem finite_survey {x : Exploration ω S P Frontier} (ha : a.Steady succs)
    (hlocation : ∀ s t : S, (s == t) = true → location s = location t)
    (hsuccs : ∀ s t, (s == t) = true →
      SameStates (succs s) (succs t) ∧ (succs s).length = (succs t).length)
    (hnodes : Lists succs batch nodes) (hx : x.reached = .seeded o batch)
    (hfresh : x.statistics = {}) (hquiet : x.shutdown.requested = false) {limit : Nat}
    (hlimit : nodes.length < limit) :
    (a.adjust = .keep → ∃ y, x.run a limit = (some (.ok ⟨a.status, .exhausted⟩), y) ∧
      x.Census a succs batch nodes y) ∧
    ∀ halts : S → Bool, (∀ s t, (s == t) = true → halts s = halts t) → a.adjust = .haltOn halts →
      (∀ n, ((x.runs a limit n).run a limit).1 = some (.ok ⟨a.status, .halted⟩) →
        ∃ s, (x.runs a limit (n + 1)).reached.lastState? = some s ∧ halts s = true ∧
          (∀ t ∈ (x.runs a limit n).reached.drain.states, (s == t) = false) ∧
          Differing (x.runs a limit (n + 1)).reached.states) ∧
      ∃ n ≤ (nodes.filter halts).length,
        (∀ m < n, ((x.runs a limit m).run a limit).1 = some (.ok ⟨a.status, .halted⟩)) ∧
        ((x.runs a limit n).run a limit).1 = some (.ok ⟨a.status, .exhausted⟩) ∧
        (x.runs a limit (n + 1)).reached.Exact succs batch := by
  have hsurveying : Surveying succs o batch x := ⟨hx ▸ .seeded _ o batch, hquiet⟩
  have hsurveys : ∀ halts, a.adjust = .haltOn halts → a.Surveys succs halts batch nodes :=
    fun halts hadjust => ⟨ha, hadjust, hlocation, fun s t hst => (hsuccs s t hst).1, hnodes⟩
  refine ⟨fun hadjust => ?_, fun halts hclosed hadjust => ⟨fun n hhalted => ?_, ?_⟩⟩
  · exact exists_census (hsurveys _ hadjust) (fun s t hst => (hsuccs s t hst).2) hx hquiet hfresh
      hlimit
  · have hn := hsurveying.runs (hsurveys halts hadjust) hlimit n
    obtain ⟨s, hlast, hhalts, -, hdiffers⟩ := hn.exists_latest (hsurveys halts hadjust) hlimit hhalted
    have hdistinct := (hn.run (hsurveys halts hadjust) hlimit).history.distinct hlocation
    rw [Exploration.runs_succ]
    exact ⟨s, hlast, hhalts, fun t ht => (hdiffers t ht).1,
      hdistinct.pairwise.imp fun hne => by simpa using hne⟩
  · obtain ⟨n, hn, hbefore, hlast⟩ := hsurveying.exists_exhausted (hsurveys halts hadjust) hclosed
      hlimit _ (Nat.le_add_left ..)
    refine ⟨n, hn, hbefore, hlast, ?_⟩
    rw [Exploration.runs_succ]
    have hhistory := (hsurveying.runs (hsurveys halts hadjust) hlimit n).history
    have hexhausted : Exhausted (fun _ a => a.Explicit succs) (.ofOrder o) batch
        ((x.runs a limit n).run a limit).2.reached :=
      .ran hhistory (ha.explicit hadjust) (by rw [hlast]; rfl)
    exact hexhausted.exact hlocation fun s t hst => (hsuccs s t hst).1

/-! The demonstration with its states kept apart and a transfer that notes down its calls, once on
its way without a halt, and once halting in the loop. The seed is given twice. -/
namespace Counter

def walk : Analysis (List Interval) Interval Unit Frontier where
  transfer s _ := fun calls =>
    { result := .ok ((Program.successors ⟨2, none⟩ s).map fun t => (t, ()))
      memory := calls ++ [s] }
  merge := .separate
  stop := .separate .flat

def pausing : Analysis (List Interval) Interval Unit Frontier :=
  {walk with adjust := .haltOn fun s => s.loc == .loop}

theorem walk_steady : walk.Steady (Program.successors ⟨2, none⟩) where
  transfer s p w := by
    refine ⟨_, rfl, ?_, List.length_map _⟩
    rw [List.map_map]
    exact (List.map_id _).symm ▸ .refl _
  quiet _ _ _ := rfl
  merge := rfl
  stop := rfl
  cover := rfl

theorem pausing_steady : pausing.Steady (Program.successors ⟨2, none⟩) :=
  ⟨walk_steady.transfer, walk_steady.quiet, rfl, rfl, rfl⟩

def walkStart : Exploration (List Interval) Interval Unit Frontier :=
  { trail := { reached := .seeded .depthFirst [(seed, ()), (seed, ())] }, memory := [] }

theorem walk_survey :
    (∃ y, walkStart.run walk 10 = (some (.ok ⟨.soundAndPrecise, .exhausted⟩), y) ∧
      y.memory.Perm y.reached.states ∧ y.statistics.iterations = 5 ∧
      y.reached.size + y.statistics.stops = 1 + y.statistics.successors) ∧
    ∃ n ≤ 3, ((walkStart.runs pausing 10 n).run pausing 10).1 =
      some (.ok ⟨.soundAndPrecise, .exhausted⟩) := by
  have hlocation : ∀ s t : Interval, (s == t) = true → location s = location t :=
    fun s t hst => congrArg Interval.loc (eq_of_beq hst)
  have hsuccs : ∀ s t : Interval, (s == t) = true →
      SameStates (Program.successors ⟨2, none⟩ s) (Program.successors ⟨2, none⟩ t) ∧
        (Program.successors ⟨2, none⟩ s).length = (Program.successors ⟨2, none⟩ t).length :=
    fun s t hst => by
      rw [eq_of_beq hst]
      exact ⟨.refl _, rfl⟩
  have hexhausted : Exhausted (fun _ a => a.Explicit (Program.successors ⟨2, none⟩))
      (.ofOrder .depthFirst) [(seed, ()), (seed, ())] (walkStart.run walk 10).2.reached :=
    .ran (.seeded _ .depthFirst _) (walk_steady.explicit Adjustment.keep_eq_haltOn)
      (by decide +kernel)
  have hnodes := (hexhausted.exact hlocation fun s t hst => (hsuccs s t hst).1).lists
  have hlength : (walkStart.run walk 10).2.reached.states.length = 5 := by decide +kernel
  have hloop : ((walkStart.run walk 10).2.reached.states.filter fun s => s.loc == .loop).length =
      3 := by decide +kernel
  have hlimit : (walkStart.run walk 10).2.reached.states.length < 10 := by
    rw [hlength]
    decide
  have hwalk := finite_survey (x := walkStart) walk_steady hlocation hsuccs hnodes rfl rfl rfl hlimit
  have hpausing := finite_survey (x := walkStart) pausing_steady hlocation hsuccs hnodes rfl rfl rfl
    hlimit
  obtain ⟨y, hrun, hcensus⟩ := hwalk.1 rfl
  obtain ⟨calls, hcalls, hperm⟩ := hcensus.asked id fun _ _ _ => rfl
  obtain ⟨-, n, hn, -, hlast, -⟩ := hpausing.2 (fun s => s.loc == .loop)
    (fun s t hst => by rw [eq_of_beq hst]) rfl
  refine ⟨⟨y, hrun, ?_, ?_, hcensus.balance⟩, n, hloop ▸ hn, hlast⟩
  · have hmemory : y.memory = calls := hcalls
    rw [hmemory]
    exact hperm
  · rw [hcensus.iterations, hcensus.size, hlength]

end Counter
end Reachability
