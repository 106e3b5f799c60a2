import Reachability.Proofs.Coverage.Fixpoint
import Reachability.Proofs.Join.Single

/-! The result of a join analysis does not depend on the order of traversal.

An exhausted run leaves a fixpoint with one state for each location it reached. Any other
exploration of the same seeds stays below this fixpoint: the seeds are covered, the
transfer is monotone, and the join of two states below the state of a location is below
it too. This holds the other way round as well. -/
namespace Reachability

open AbstractState (location)

variable {S P : Type} [AbstractState S] [BEq S] [BEq P] [PartialEquivBEq S]

/-! ### A batch of seeds -/

/-- Nothing reached yet, with a batch of seeds. -/
def Reached.seeded (o : TraversalOrder) (batch : List (S × P)) : Reached S P Frontier :=
  batch.foldl (fun r (s, p) => r.addInitial s p) (.ofOrder o)

omit [BEq S] [BEq P] [PartialEquivBEq S] in
theorem Reached.seeded_eq (o : TraversalOrder) (batch : List (S × P)) :
    seeded o batch = {ofOrder o with seeds := batch} := by
  have hfold : ∀ r : Reached S P Frontier, batch.foldl (fun r (s, p) => r.addInitial s p) r =
      {r with seeds := r.seeds ++ batch} := by
    induction batch with
    | nil =>
      intro r
      rw [List.append_nil]
      rfl
    | cons pair rest ih =>
      intro r
      rw [List.foldl_cons, ih]
      simp [addInitial]
  exact hfold (ofOrder o)

omit [BEq S] [BEq P] [PartialEquivBEq S] in
theorem Reached.seeds_seeded (o : TraversalOrder) (batch : List (S × P)) :
    (seeded o batch : Reached S P Frontier).seeds = batch := by
  rw [seeded_eq]

omit [BEq S] [BEq P] [PartialEquivBEq S] in
theorem Reached.states_seeded (o : TraversalOrder) (batch : List (S × P)) :
    (seeded o batch : Reached S P Frontier).states = [] := by
  rw [seeded_eq]
  exact Consistent.states_ofOrder o

omit [BEq S] [BEq P] [PartialEquivBEq S] in
theorem Reached.closed_seeded (le : S → S → Prop) (succ : S → P → S → Prop) (o : TraversalOrder)
    (batch : List (S × P)) : (seeded o batch : Reached S P Frontier).Closed le succ := by
  rw [seeded_eq]
  exact (closed_ofOrder o).congr rfl

/-- Seeds at locations of their own, where nothing is published. -/
def Reached.Free (r : Reached S P Frontier) (batch : List (S × P)) : Prop :=
  batch.Pairwise (fun x y => location x.1 ≠ location y.1) ∧ ∀ x ∈ batch, r.VacantAt x.1

omit [PartialEquivBEq S] in
theorem Reached.Single.addAll {batch : List (S × P)} {r : Reached S P Frontier} (hr : r.Single)
    (hfree : r.Free batch) : (batch.foldl (fun r (s, p) => (r.add s p).2) r).Single := by
  induction batch generalizing r with
  | nil => exact hr
  | cons pair rest ih =>
    obtain ⟨hapart, hvacant⟩ := hfree
    obtain ⟨hothers, hrest⟩ := List.pairwise_cons.1 hapart
    have hadded := Single.add hr (hvacant pair (List.mem_cons_self ..)) pair.2
    refine ih hadded ⟨hrest, fun x hx t ht => ?_⟩
    rcases mem_states_of_mem_states_add ht with ht | rfl
    · exact hvacant x (List.mem_cons_of_mem _ hx) t ht
    · exact hothers x hx

section Histories
variable {d : Domain Id S} {succs : S → List S} {o : TraversalOrder} {batch : List (S × P)}
  {r : Reached S P Frontier}

omit [BEq S] [BEq P] [PartialEquivBEq S] in
theorem Reached.consistent_seeded (o : TraversalOrder) (batch : List (S × P)) :
    (seeded o batch).Consistent := by
  rw [seeded_eq]
  exact (Consistent.ofOrder o).congr rfl rfl rfl

theorem History.single (hd : d.Located)
    (hbatch : batch.Pairwise fun x y => location x.1 ≠ location y.1)
    (h : History (fun _ a => a.Joining d succs) (.seeded o batch) [] r) : r.Single := by
  have hconsistent := Reached.consistent_seeded o batch
  have hboth : r.Single ∧ r.Free r.seeds := by
    generalize hnone : ([] : List (S × P)) = seeds at h
    induction h with
    | start =>
      refine ⟨fun g h s t hs => ?_, ?_, fun x _ t ht => ?_⟩
      · have hmem := Reached.mem_states_iff.2 ⟨g, hs⟩
        rw [Reached.states_seeded] at hmem
        cases hmem
      · rwa [Reached.seeds_seeded]
      · rw [Reached.states_seeded] at ht
        cases ht
    | schedule before s p ih =>
      have hlength := congrArg List.length hnone
      simp at hlength
    | @run seeds ω a limit x y result before admitted ended ih =>
      obtain ⟨hsingle, hfree⟩ := ih hnone
      have hdrained : x.reached.drain.Consistent ∧ x.reached.drain.Single :=
        ⟨(before.consistent hconsistent).drain, Reached.Single.addAll hsingle hfree⟩
      have hafter := Exploration.preserves_of_run (admitted.keeps_single hd) ended hdrained
      rw [Exploration.seeds_of_run admitted.cover ended]
      exact ⟨hafter.2, .nil, fun z hz => (List.not_mem_nil hz).elim⟩
  exact hboth.1

/-- An exhausted run leaves a fixpoint that covers the batch. -/
theorem Exhausted.fixpoint_of_join (hd : d.Located)
    (h : Exhausted (fun _ a => a.Joining d succs) (.seeded o batch) [] r) :
    r.Fixpoint d.Below (fun s _ t => t ∈ succs s) batch := by
  have hfixpoint := h.fixpoint hd.subsumption
    (fun ω a ha => ⟨ha.conservative hd, ha.transfer.represents hd.subsumption.of_beq⟩)
    (Reached.consistent_seeded o batch) (Reached.closed_seeded _ _ o batch)
  rwa [Reached.seeds_seeded, List.append_nil] at hfixpoint

omit [BEq P] [PartialEquivBEq S] in
/-- A join analysis does not get above a fixpoint with one state for each location. -/
theorem Analysis.Joining.confined {ω : Type} {a : Analysis ω S P Frontier}
    (ha : a.Joining d succs) (hd : d.Located)
    (hmono : ∀ s t, d.Below s t → ∀ u ∈ succs s, ∃ v ∈ succs t, d.Below u v)
    (hsingle : r.Single) (hr : r.Fixpoint d.Below (fun s _ t => t ∈ succs s) batch) :
    a.Confined (r.Covers d.Below) where
  transfer := by
    intro s p w l hs hl x hx
    obtain ⟨t, ht, hst⟩ := hs
    obtain ⟨h, q, hpair⟩ := Reached.mem_states_iff_get?.1 ht
    obtain ⟨u, hu, hxu⟩ := (ha.transfer s p w l hl).1 x.1 (List.mem_map_of_mem hx)
    obtain ⟨v, hv, huv⟩ := hmono s t hst u hu
    have hcovered := hr.expanded h t q hpair v hv
    have hxv := hd.subsumption.trans (hd.subsumption.of_beq hxu) huv
    exact hcovered.of_le hd.subsumption hxv
  merge := by
    intro _ s old p w new hloc hs hold hmerge
    rw [ha.merge hmerge]
    split
    · exact hold
    · obtain ⟨t, ht, hst⟩ := hs
      obtain ⟨u, hu, hou⟩ := hold
      have hsame : t = u := hsingle.eq_of_mem ht hu
        ((hd.location_eq hst).symm.trans (hloc.trans (hd.location_eq hou)))
      subst hsame
      exact ⟨t, ht, hd.join_least hloc hst hou⟩
  adjust := by
    intro s p r w x hs hadjusted
    have hkept := ha.adjust hadjusted
    cases hkept
    exact hs
  cover := ha.cover

/-- Whatever the order, a join analysis stays below what an exhausted one of the same batch
left. -/
theorem History.covered (hd : d.Located)
    (hmono : ∀ s t, d.Below s t → ∀ u ∈ succs s, ∃ v ∈ succs t, d.Below u v)
    (hbatch : batch.Pairwise fun x y => location x.1 ≠ location y.1)
    (h : Exhausted (fun _ a => a.Joining d succs) (.seeded o batch) [] r) {o' : TraversalOrder}
    {r' : Reached S P Frontier}
    (h' : History (fun _ a => a.Joining d succs) (.seeded o' batch) [] r') :
    ∀ s ∈ r'.states, r.Covers d.Below s := by
  have hfixpoint := h.fixpoint_of_join hd
  have hsingle := h.history.single hd hbatch
  have hwithin := h'.within (fun ω a ha => ha.confined hd hmono hsingle hfixpoint)
    (Reached.consistent_seeded o' batch) (fun s hs => ?_) (fun x hx => ?_)
    (fun x hx => (List.not_mem_nil hx).elim)
  · exact hwithin.1
  · rw [Reached.states_seeded] at hs
    cases hs
  · rw [Reached.seeds_seeded] at hx
    exact hfixpoint.seeded x hx

/-- **The result of a join analysis does not depend on the order**, nor on where its runs
were cut short: exhausted explorations of the same seeds reach the same locations, with
one state at each, and the two states of a location are below each other. -/
theorem join_independent {o₁ o₂ : TraversalOrder} {r₁ r₂ : Reached S P Frontier}
    (hd : d.Located) (hmono : ∀ s t, d.Below s t → ∀ u ∈ succs s, ∃ v ∈ succs t, d.Below u v)
    (hbatch : batch.Pairwise fun x y => location x.1 ≠ location y.1)
    (h₁ : Exhausted (fun _ a => a.Joining d succs) (.seeded o₁ batch) [] r₁)
    (h₂ : Exhausted (fun _ a => a.Joining d succs) (.seeded o₂ batch) [] r₂) :
    (∀ l, (∃ s ∈ r₁.states, location s = l) ↔ ∃ s ∈ r₂.states, location s = l) ∧
      (r₁.states.Pairwise fun s t => location s ≠ location t) ∧
      (r₂.states.Pairwise fun s t => location s ≠ location t) ∧
      ∀ s ∈ r₁.states, ∀ t ∈ r₂.states, location s = location t → d.Below s t ∧ d.Below t s := by
  have hbelow₁ := h₂.history.covered hd hmono hbatch h₁
  have hbelow₂ := h₁.history.covered hd hmono hbatch h₂
  have hsingle₁ := h₁.history.single hd hbatch
  have hsingle₂ := h₂.history.single hd hbatch
  refine ⟨fun l => ⟨?_, ?_⟩, hsingle₁.pairwise, hsingle₂.pairwise, fun s hs t ht hloc => ⟨?_, ?_⟩⟩
  · rintro ⟨s, hs, rfl⟩
    obtain ⟨t, ht, hst⟩ := hbelow₂ s hs
    exact ⟨t, ht, (hd.location_eq hst).symm⟩
  · rintro ⟨s, hs, rfl⟩
    obtain ⟨t, ht, hst⟩ := hbelow₁ s hs
    exact ⟨t, ht, (hd.location_eq hst).symm⟩
  · obtain ⟨u, hu, hsu⟩ := hbelow₂ s hs
    have hsame : u = t := hsingle₂.eq_of_mem hu ht ((hd.location_eq hsu).symm.trans hloc)
    exact hsame ▸ hsu
  · obtain ⟨u, hu, htu⟩ := hbelow₁ t ht
    have hsame : u = s := hsingle₁.eq_of_mem hu hs ((hd.location_eq htu).symm.trans hloc.symm)
    exact hsame ▸ htu

end Histories

/-! The demonstration with merging, counting to one: once from the oldest states, once from
the newest. -/
namespace Counter

theorem Interval.located : Interval.domain.Located :=
  ⟨subsumption, fun h => (below_iff.1 h).1, fun _ => below_join_left .., below_join_right,
    fun _ => join_below⟩

theorem analysis_joining (prog : Program) :
    (analysis prog true false : Analysis Unit Interval Unit Frontier).Joining Interval.domain
      prog.successors :=
  Analysis.joining_of_join (analysis_yields prog true false) rfl rfl rfl rfl

def onceBy (o : TraversalOrder) : State :=
  (Exploration.run (analysis ⟨1, none⟩ true false) 20
    { trail := { reached := .seeded o [(seed, ())] }, memory := () }).2

theorem onceBy_independent :
    (onceBy .depthFirst).reached.states.Pairwise (fun s t => s.loc ≠ t.loc) ∧
      ∀ s ∈ (onceBy .breadthFirst).reached.states, ∀ t ∈ (onceBy .depthFirst).reached.states,
        s.loc = t.loc → Interval.domain.Below s t ∧ Interval.domain.Below t s := by
  have hfirst : Exhausted (fun _ a => a.Joining Interval.domain (Program.successors ⟨1, none⟩))
      (.seeded .breadthFirst [(seed, ())]) [] (onceBy .breadthFirst).reached :=
    .ran .start (analysis_joining _) (by decide +kernel)
  have hsecond : Exhausted (fun _ a => a.Joining Interval.domain (Program.successors ⟨1, none⟩))
      (.seeded .depthFirst [(seed, ())]) [] (onceBy .depthFirst).reached :=
    .ran .start (analysis_joining _) (by decide +kernel)
  obtain ⟨-, -, hsingle, hbelow⟩ := join_independent Interval.located
    (fun s t hst u hu => Program.successors_mono rfl hst hu) (List.pairwise_singleton _ _)
    hfirst hsecond
  exact ⟨hsingle, hbelow⟩

end Counter
end Reachability
