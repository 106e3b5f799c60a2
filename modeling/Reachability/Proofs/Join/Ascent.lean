import Mathlib.Data.Multiset.DershowitzManna
import Reachability.Proofs.Coverage.Advance
import Reachability.Proofs.Operator
import Reachability.Proofs.Reached.Stock
import Reachability.Proofs.Run.Unforced

/-! A join analysis climbs.

Where successors are merged by the join, a merge replaces published states by strictly
higher ones of the same location (`Domain.Raises`). Once a successor was merged with all that is
published at its location, it is covered. So it is only ever published where nothing was
published before, unless the run halts at it. What an expansion does to the published states
is therefore one of two things (`Ascends`): some make room for higher ones, or a location is
occupied for the first time. -/
namespace Reachability

open AbstractState (location)

variable {ω S P W : Type} [AbstractState S]

/-- An order, and a join that bounds two states of one location there. -/
structure Domain.Bounding [BEq S] (d : Domain Id S) : Prop where
  subsumption : Subsumption d.Below
  location_join : ∀ {s t}, location s = location t → location (d.join s t).run = location s
  join_left : ∀ {s t}, location s = location t → d.Below s (d.join s t).run
  join_right : ∀ {s t}, location s = location t → d.Below t (d.join s t).run

/-- What a merge answers is above both states, at their location. -/
theorem Domain.Bounding.above_of_merge [BEq S] {d : Domain Id S} (hd : d.Bounding)
    {m : Merge ω S P} (hm : m.Joins d) {s old new : S} {p : P} {w : ω}
    (hloc : location s = location old) (hnew : (m.merge s old p w).result = .ok new) :
    location new = location old ∧ d.Below s new ∧ d.Below old new := by
  refine ⟨?_, hm.covered (hd.join_left hloc) hnew,
    hm.below hd.subsumption.refl (hd.join_right hloc) hnew⟩
  rw [hm hnew]
  split
  · rfl
  · rw [hd.location_join hloc, hloc]

/-- At the same location, and strictly above. -/
def Domain.Climbs (d : Domain Id S) (s t : S) : Prop :=
  location s = location t ∧ d.Below s t ∧ ¬ d.Below t s

/-! ### Higher states in the place of others -/

/-- The states of a location, turned around: what is above is less. -/
@[reducible] def Domain.climbing [BEq S] {d : Domain Id S} (hd : Subsumption d.Below) :
    Preorder S where
  le s t := location t = location s ∧ d.Below t s
  lt s t := d.Climbs t s
  le_refl s := ⟨rfl, hd.refl s⟩
  le_trans _ _ _ hst htu := ⟨htu.1.trans hst.1, hd.trans htu.2 hst.2⟩
  lt_iff_le_not_ge _ _ :=
    ⟨fun h => ⟨⟨h.1, h.2.1⟩, fun hge => h.2.2 hge.2⟩,
      fun h => ⟨h.1.1, h.1.2, fun hge => h.2 ⟨h.1.1.symm, hge⟩⟩⟩

/-- Some of the states made room for higher ones, and the rest is kept. -/
def Domain.Raises (d : Domain Id S) (before after : Multiset S) : Prop :=
  ∃ kept raised replaced : Multiset S, replaced ≠ ∅ ∧ after = kept + raised ∧
    before = kept + replaced ∧ ∀ t ∈ raised, ∃ s ∈ replaced, d.Climbs s t

theorem Domain.Raises.trans [BEq S] {d : Domain Id S} (hd : Subsumption d.Below)
    {first second third : Multiset S} (h₁ : d.Raises first second) (h₂ : d.Raises second third) :
    d.Raises first third :=
  letI := Domain.climbing hd
  Multiset.IsDershowitzMannaLT.trans h₂ h₁

namespace Reached

/-- Occupied locations stay occupied; and if the published states change at all, some made
room for higher ones, or a location is occupied that was not. -/
structure Ascends (d : Domain Id S) (r r' : Reached S P W) : Prop where
  occupied : ∀ s ∈ r.states, ∃ t ∈ r'.states, location t = location s
  change : r' = r ∨ d.Raises r.stock r'.stock ∨
    ∃ t ∈ r'.states, ∀ s ∈ r.states, location s ≠ location t

variable {d : Domain Id S} {r r₁ r₂ : Reached S P W}

theorem Ascends.refl (d : Domain Id S) (r : Reached S P W) : r.Ascends d r :=
  ⟨fun s hs => ⟨s, hs, rfl⟩, .inl rfl⟩

theorem Ascends.trans [BEq S] (hd : Subsumption d.Below) (h₁ : r.Ascends d r₁)
    (h₂ : r₁.Ascends d r₂) : r.Ascends d r₂ := by
  refine ⟨fun s hs => ?_, ?_⟩
  · obtain ⟨t, ht, hts⟩ := h₁.occupied s hs
    obtain ⟨u, hu, hut⟩ := h₂.occupied t ht
    exact ⟨u, hu, hut.trans hts⟩
  · rcases h₂.change with rfl | hraised | ⟨t, ht, hnew⟩
    · exact h₁.change
    · rcases h₁.change with rfl | hbefore | ⟨t, ht, hnew⟩
      · exact .inr (.inl hraised)
      · exact .inr (.inl (hbefore.trans hd hraised))
      · obtain ⟨u, hu, hut⟩ := h₂.occupied t ht
        exact .inr (.inr ⟨u, hu, fun s hs hsu => hnew s hs (hsu.trans hut)⟩)
    · -- What was occupied at first was still occupied in between.
      refine .inr (.inr ⟨t, ht, fun s hs hst => ?_⟩)
      obtain ⟨u, hu, hus⟩ := h₁.occupied s hs
      exact hnew u hu (hus.trans hst)

end Reached

/-! ### Merging -/

namespace Effect
open Reached

variable [BEq S] [EquivBEq S] {d : Domain Id S} {a : Analysis ω S P Frontier}
  {r r' : Reached S P Frontier} {s : S} {p : P}

/-- What changed in a scan climbed, and is above the successor. -/
theorem Scanned.climbs (hd : d.Bounding) (ha : a.JoinMerging d) (hr : r.Consistent)
    {changed : List (Handle × S)} {abort : Option Abort}
    (scan : Scanned a s p r (r.handlesAt s) changed abort) {c : Handle × S} (hc : c ∈ changed) :
    ∃ old, r.state? c.1 = some old ∧ d.Climbs old c.2 ∧ d.Below s c.2 := by
  obtain ⟨hcandidate, old, w, hold, hmerge, hdiffers⟩ := scan.exists_merge hc
  have hloc : location s = location old := (hr.location_of_mem_handlesAt hcandidate hold).symm
  obtain ⟨hstays, habove, hraised⟩ := hd.above_of_merge ha.merge hloc hmerge
  refine ⟨old, hold, ⟨hstays.symm, hraised, fun hback => ?_⟩, habove⟩
  -- The successor would be below the old state, and nothing would have changed.
  rw [ha.merge hmerge, if_pos (hd.subsumption.trans habove hback), BEq.refl] at hdiffers
  cases hdiffers

omit [EquivBEq S] in
/-- What a scan left as it was is above the successor. -/
theorem Scanned.below_of_kept (hd : d.Bounding) (ha : a.JoinMerging d) (hr : r.Consistent)
    {changed : List (Handle × S)} (scan : Scanned a s p r (r.handlesAt s) changed none) {h : Handle}
    (hh : h ∈ r.handlesAt s) (hkept : h ∉ changed.map Prod.fst) {old : S}
    (hold : r.state? h = some old) : d.Below s old := by
  obtain ⟨w, new, hmerge, hsame⟩ := scan.exists_kept hh hkept hold
  have hloc : location s = location old := (hr.location_of_mem_handlesAt hh hold).symm
  have habove : d.Below s new := (hd.above_of_merge ha.merge hloc hmerge).2.1
  exact hd.subsumption.trans habove (hd.subsumption.of_beq hsame)

variable [BEq P]

/-- Whatever is below a published state is below some state of the same location once the
candidates that changed are replaced, if it is below what the state changed into. -/
theorem exists_above_update (hd : d.Bounding) (hr : r.Consistent) {changed : List (Handle × S)}
    {h : Handle} {t x : S} (ht : r.state? h = some t)
    (hchanged : ∀ c ∈ changed, c.1 = h → location c.2 = location t ∧ d.Below x c.2)
    (hkept : h ∉ changed.map Prod.fst → d.Below x t) :
    ∃ u ∈ (r.update (changed.map Prod.fst) (changed.map fun c => (c.2, p))).states,
      location u = location t ∧ d.Below x u := by
  by_cases hgone : h ∈ changed.map Prod.fst
  · obtain ⟨c, hc, hch⟩ := List.mem_map.1 hgone
    obtain ⟨hloc, hbelow⟩ := hchanged c hc hch
    have hfresh : (c.2, p) ∈ changed.map fun c => (c.2, p) := List.mem_map_of_mem hc
    obtain ⟨u, hu, huc, hsame⟩ := hr.exists_mem_update (changed.map Prod.fst) hfresh
    have hcu : d.Below c.2 u := hd.subsumption.of_beq (PartialEquivBEq.symm hsame)
    exact ⟨u, hu, huc.trans hloc, hd.subsumption.trans hbelow hcu⟩
  · exact ⟨t, hr.mem_states_update hgone ht, rfl, hkept hgone⟩

/-- The candidates that changed made room for higher states. -/
theorem Scanned.raises (hd : d.Bounding) (ha : a.JoinMerging d) (hr : r.Consistent)
    {changed : List (Handle × S)} {abort : Option Abort}
    (scan : Scanned a s p r (r.handlesAt s) changed abort) (hne : changed ≠ []) :
    d.Raises r.stock (r.update (changed.map Prod.fst) (changed.map fun c => (c.2, p))).stock := by
  have hnodup : (changed.map Prod.fst).Nodup := (hr.unrepeated _).sublist scan.sublist
  obtain ⟨kept, added, hle, hbefore, hafter⟩ :=
    hr.exists_stock_update hnodup (changed.map fun c => (c.2, p))
  have hreplaced : ∀ c ∈ changed, ∃ old ∈ ((changed.map Prod.fst).filterMap r.state? : Multiset S),
      d.Climbs old c.2 := fun c hc => by
    obtain ⟨old, hold, hclimbs, -⟩ := scan.climbs hd ha hr hc
    exact ⟨old, Multiset.mem_coe.2 (List.mem_filterMap.2 ⟨c.1, List.mem_map_of_mem hc, hold⟩),
      hclimbs⟩
  refine ⟨kept, added, _, fun hnone => ?_, hafter, hbefore, fun t ht => ?_⟩
  · obtain ⟨c, hc⟩ := List.exists_mem_of_ne_nil _ hne
    obtain ⟨old, hold, -⟩ := hreplaced c hc
    rw [hnone] at hold
    cases hold
  · have hmem := Multiset.mem_coe.1 (Multiset.mem_of_le hle ht)
    rw [List.map_map] at hmem
    obtain ⟨c, hc, rfl⟩ := List.mem_map.1 hmem
    exact hreplaced c hc

/-- Merging a successor ascends. If the merges went through, then wherever something is
published at the location of the successor, something is published there that covers it. -/
theorem Merged.ascends (hd : d.Bounding) (ha : a.JoinMerging d) (hr : r.Consistent)
    {abort : Option Abort} (h : Merged a s p r abort r') :
    r.Ascends d r' ∧ (abort = none → ∀ t ∈ r.states, location t = location s →
      ∃ u ∈ r'.states, location u = location s ∧ d.Below s u) := by
  cases h with
  | spared separates =>
    rw [ha.joins] at separates
    cases separates
  | @scanned changed abort joins scan =>
    -- A handle names one state only.
    have hclimbs : ∀ {h t}, r.state? h = some t → ∀ c ∈ changed, c.1 = h →
        d.Climbs t c.2 ∧ d.Below s c.2 := fun ht c hc hch => by
      obtain ⟨old, hold, hclimb, hbelow⟩ := scan.climbs hd ha hr hc
      rw [hch, ht, Option.some.injEq] at hold
      exact ⟨hold ▸ hclimb, hbelow⟩
    refine ⟨⟨fun t ht => ?_, ?_⟩, fun habort t ht hloc => ?_⟩
    · obtain ⟨h, hh⟩ := mem_states_iff.1 ht
      obtain ⟨u, hu, hut, -⟩ := exists_above_update (p := p) hd hr hh
        (fun c hc hch => ⟨(hclimbs hh c hc hch).1.1.symm, (hclimbs hh c hc hch).1.2.1⟩)
        fun _ => hd.subsumption.refl t
      exact ⟨u, hu, hut⟩
    · by_cases hnone : changed = []
      · subst hnone
        exact .inl rfl
      · exact .inr (.inl (scan.raises hd ha hr hnone))
    · subst habort
      obtain ⟨h, hh⟩ := mem_states_iff.1 ht
      obtain ⟨u, hu, hut, hbelow⟩ := exists_above_update (p := p) hd hr hh
        (fun c hc hch => ⟨(hclimbs hh c hc hch).1.1.symm, (hclimbs hh c hc hch).2⟩)
        fun hkept => scan.below_of_kept hd ha hr (hr.mem_handlesAt_iff.2 ⟨t, hh, hloc⟩) hkept hh
      exact ⟨u, hu, hut.trans hloc, hbelow⟩

/-! ### Successors and expansions -/

/-- Dealing with a successor ascends, if the run goes on. -/
theorem Treated.ascends (hd : d.Bounding) (ha : a.JoinMerging d) (hr : r.Consistent)
    (h : Treated a s p r .onward r') : r.Ascends d r' := by
  cases h with
  | pruned adjust => exact .refl d r
  | halting adjust settle =>
    cases settle with
    | covered stop => exact .refl d r
  | @proceeding _ t q _ r₁ _ adjust merge settle =>
    obtain ⟨hmerged, hcovers⟩ := merge.ascends hd ha hr
    cases settle with
    | covered stop => exact hmerged
    | published stop =>
      have hr₁ := merge.evolves.consistent hr
      obtain ⟨u, hu, hut⟩ := hr₁.exists_mem_add t q
      refine ⟨fun v hv => ?_, .inr (.inr ⟨u, hu, fun v hv hvu => ?_⟩)⟩
      · obtain ⟨v', hv', hloc⟩ := hmerged.occupied v hv
        exact ⟨v', mem_states_add_of_mem hv' t q, hloc⟩
      · -- Otherwise the successor would be covered by now.
        obtain ⟨c, hc, hloc, hbelow⟩ := hcovers rfl v hv (hvu.trans hut)
        have hcovered := (ha.stop stop).2 ⟨c, hr₁.mem_statesAt_iff.2 ⟨hc, hloc⟩, hbelow⟩
        cases hcovered

theorem TreatedAll.ascends (hd : d.Bounding) (ha : a.JoinMerging d) (hr : r.Consistent)
    {h : Handle} {successors : List (S × P)} {flow : Flow} (hflow : flow = .onward)
    (ht : TreatedAll a h successors r flow r') : r.Ascends d r' := by
  induction ht with
  | finished => exact .refl d _
  | next first others ih =>
    exact (first.ascends hd ha hr).trans hd.subsumption (ih (first.evolves.consistent hr) hflow)
  | haltedLast first => cases hflow
  | halted first left => cases hflow
  | abandoned first => cases hflow

/-- An expansion ascends, if the run goes on. -/
theorem Expanded.ascends (hd : d.Bounding) (ha : a.JoinMerging d) (hr : r.Consistent) {h : Handle}
    (hx : Expanded a h r .onward r') : r.Ascends d r' := by
  cases hx with
  | nothing pair => exact .refl d r
  | forced pair cover => cases (cover.of_absent ha.cover).1
  | expanded pair cover transfer treated =>
    obtain ⟨-, rfl⟩ := cover.of_absent ha.cover
    exact treated.ascends hd ha hr rfl

end Effect
end Reachability
