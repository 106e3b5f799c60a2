import Reachability.Proofs.Coverage.Fixpoint
import Reachability.Proofs.Operator
import Reachability.Proofs.Reached.Apart
import Reachability.Proofs.Run.Published

/-! A join analysis keeps one state for each location.

States are comparable at one location only, and are merged by the join. Then a successor is
either the first at its location, or it is merged into the state that is there, and what
comes of this covers it. So it is never published beside another state. -/
namespace Reachability

open AbstractState (location)

variable {S P : Type} [AbstractState S] [BEq S]

/-- States are comparable only at one location, where the join is the least bound. -/
structure Domain.Located (d : Domain Id S) : Prop where
  subsumption : Subsumption d.Below
  location_eq : ∀ {s t}, d.Below s t → location s = location t
  join_left : ∀ {s t}, location s = location t → d.Below s (d.join s t).run
  join_right : ∀ {s t}, location s = location t → d.Below t (d.join s t).run
  join_least : ∀ {s t u}, location s = location t → d.Below s u → d.Below t u →
    d.Below (d.join s t).run u

/-- Merging by the join along a successor function, with pairs kept as they are. -/
structure Analysis.Joining {ω W : Type} (d : Domain Id S) (succs : S → List S)
    (a : Analysis ω S P W) : Prop extends a.JoinMerging d where
  transfer : a.Yields succs
  adjust : ∀ {s : S} {p : P} {r : Reached S P W} {w : ω} {adjusted : Option (Adjusted S P)},
    (a.adjust s p r w).result = .ok adjusted →
      adjusted = some { state := s, precision := p, action := .proceed }

/-- The operators that come with the library for this. -/
theorem Analysis.joining_of_join {ω W : Type} {d : Domain Id S} {succs : S → List S}
    {a : Analysis ω S P W} (htransfer : a.Yields succs) (hmerge : a.merge = .join d.lift)
    (hstop : a.stop = .separate d.toComparison.lift) (hadjust : a.adjust = Adjustment.keep)
    (hcover : a.cover = none) : a.Joining d succs where
  toJoinMerging := joinMerging_of_join hmerge hstop hcover
  transfer := htransfer
  adjust := by
    intro s p r w adjusted h
    rw [hadjust] at h
    cases h
    rfl

namespace Analysis.Joining
variable {ω : Type} {d : Domain Id S} {succs : S → List S} {a : Analysis ω S P Frontier}

/-- What a merge answers is above both. -/
theorem above_of_merge (ha : a.Joining d succs) (hd : d.Located) {s old : S} {p : P} {w : ω}
    {new : S} (hloc : location s = location old)
    (hnew : (a.merge.merge s old p w).result = .ok new) : d.Below s new ∧ d.Below old new :=
  ⟨ha.merge.covered (hd.join_left hloc) hnew,
    ha.merge.below hd.subsumption.refl (hd.join_right hloc) hnew⟩

theorem conservative (ha : a.Joining d succs) (hd : d.Located) : a.Conservative d.Below where
  merge _ _ _ _ _ _ hloc hnew := (ha.above_of_merge hd hloc hnew).2
  stop hstop := (ha.stop hstop).1 rfl
  adjust := by
    intro s p r w adjusted hadjusted
    exact ⟨_, ha.adjust hadjusted, hd.subsumption.refl s⟩
  cover := ha.cover

end Analysis.Joining

/-! ### One state for each location -/

/-- No location has two states. -/
def Reached.Single {W : Type} (r : Reached S P W) : Prop :=
  r.Apart fun s t => location s = location t

/-- No state is published at the location. -/
def Reached.VacantAt {W : Type} (r : Reached S P W) (s : S) : Prop :=
  ∀ t ∈ r.states, location t ≠ location s

omit [BEq S] in
theorem Reached.Single.handlesAt_eq {r : Reached S P Frontier} (hr : r.Consistent)
    (hsingle : r.Single) (s : S) :
    r.handlesAt s = [] ∧ r.VacantAt s ∨ ∃ h old, r.handlesAt s = [h] ∧ r.state? h = some old ∧
      location old = location s := by
  cases hlist : r.handlesAt s with
  | nil =>
    refine .inl ⟨rfl, fun t ht hloc => ?_⟩
    obtain ⟨h, hh⟩ := mem_states_iff.1 ht
    have hmem := hr.mem_handlesAt_iff.2 ⟨t, hh, hloc⟩
    rw [hlist] at hmem
    cases hmem
  | cons h rest =>
    have hmem : ∀ g, g ∈ h :: rest ↔ ∃ t, r.state? g = some t ∧ location t = location s := by
      intro g
      rw [← hlist]
      exact hr.mem_handlesAt_iff
    obtain ⟨old, hold, hloc⟩ := (hmem h).1 (List.mem_cons_self ..)
    have hnodup : (h :: rest).Nodup := hlist ▸ hr.unrepeated _
    refine .inr ⟨h, old, ?_, hold, hloc⟩
    -- Any other handle would name a second state of the location.
    cases rest with
    | nil => rfl
    | cons g others =>
      obtain ⟨t, ht, hloc'⟩ := (hmem g).1 (List.mem_cons_of_mem _ (List.mem_cons_self ..))
      have hsame := hsingle h g old t hold ht (hloc.trans hloc'.symm)
      exact absurd (hsame ▸ List.mem_cons_self ..) (List.nodup_cons.1 hnodup).1

theorem Reached.Single.add [BEq P] {r : Reached S P Frontier} (hr : r.Single) {s : S}
    (hvacant : r.VacantAt s) (p : P) : (r.add s p).2.Single :=
  Apart.add hr (fun _ t ht => ⟨fun hloc => hvacant t ht hloc.symm, hvacant t ht⟩) p

/-! ### Merging and settling at one location -/

namespace Effect
open Reached

variable {ω : Type} {d : Domain Id S} {succs : S → List S} {a : Analysis ω S P Frontier}
  {r r' : Reached S P Frontier} {s : S} {p : P}

theorem Scanned.of_nil {changed : List (Handle × S)} {abort : Option Abort}
    (h : Scanned a s p r [] changed abort) : changed = [] := by
  cases h with
  | finished => rfl
  | interrupted => rfl

/-- A single candidate is kept, or replaced by what the merge answered. -/
theorem Scanned.of_singleton {h : Handle} {old : S} (hold : r.state? h = some old)
    {changed : List (Handle × S)} {abort : Option Abort}
    (hs : Scanned a s p r [h] changed abort) :
    changed = [] ∧ (abort = none → ∃ w new, (a.merge.merge s old p w).result = .ok new ∧
        (new == old) = true) ∨
      ∃ w new, (a.merge.merge s old p w).result = .ok new ∧ changed = [(h, new)] := by
  cases hs with
  | interrupted => exact .inl ⟨rfl, fun habort => by cases habort⟩
  | failed state merge => exact .inl ⟨rfl, fun habort => by cases habort⟩
  | vanished state others =>
    rw [hold] at state
    cases state
  | kept state merge same others =>
    rw [hold, Option.some.injEq] at state
    subst state
    exact .inl ⟨others.of_nil, fun _ => ⟨_, _, merge, same⟩⟩
  | changed state merge differs others =>
    rw [hold, Option.some.injEq] at state
    subst state
    rw [others.of_nil]
    exact .inr ⟨_, _, merge, rfl⟩

variable [BEq P] [PartialEquivBEq S]

/-- Merging keeps one state for each location. A successor whose merge went through is the
first at its location, or it is covered. -/
theorem Merged.single (hd : d.Located) (ha : a.Joining d succs) (hr : r.Consistent)
    (hsingle : r.Single) {abort : Option Abort} (h : Merged a s p r abort r') :
    r'.Single ∧ (abort = none → r'.VacantAt s ∨ r'.Covers d.Below s) := by
  cases h with
  | spared separates =>
    rw [ha.joins] at separates
    cases separates
  | scanned joins scan =>
    rcases hsingle.handlesAt_eq hr s with ⟨hnil, hvacant⟩ | ⟨g, old, hlist, hold, hloc⟩
    · rw [hnil] at scan
      rw [scan.of_nil]
      exact ⟨hsingle, fun _ => .inl hvacant⟩
    · rw [hlist] at scan
      rcases scan.of_singleton hold with ⟨rfl, hkept⟩ | ⟨w, new, hmerge, rfl⟩
      · refine ⟨hsingle, fun habort => .inr ?_⟩
        obtain ⟨w, new, hmerge, hsame⟩ := hkept habort
        have habove := (ha.above_of_merge hd hloc.symm hmerge).1
        exact ⟨old, mem_states_iff.2 ⟨g, hold⟩,
          hd.subsumption.trans habove (hd.subsumption.of_beq hsame)⟩
      · obtain ⟨habove, hold'⟩ := ha.above_of_merge hd hloc.symm hmerge
        -- The only state of the location makes room for what it was merged into.
        have hvacant : ([g].foldl removeHandle r).VacantAt new := by
          intro t ht hsame
          obtain ⟨k, hk⟩ := mem_states_iff.1 ht
          obtain ⟨hout, hk'⟩ := state?_of_removeHandles hk
          have hloc' : location t = location old := hsame.trans (hd.location_eq hold').symm
          exact hout (List.mem_singleton.2 (hsingle k g t old hk' hold hloc'))
        have hremoved : ([g].foldl removeHandle r).Single := Apart.removeHandles hsingle [g]
        refine ⟨hremoved.add hvacant p, fun _ => .inr ?_⟩
        exact covers_add hd.subsumption.respects _ habove p

omit [PartialEquivBEq S] in
/-- What is first at its location, or covered, can be settled. -/
theorem Settled.single (hd : d.Located) (ha : a.Joining d succs) (hr : r.Consistent)
    (hsingle : r.Single) (hready : r.VacantAt s ∨ r.Covers d.Below s) {after flow : Flow}
    (h : Settled a s p after r flow r') : r'.Single := by
  cases h with
  | undecided stop => exact hsingle
  | covered stop => exact hsingle
  | published stop =>
    refine hsingle.add (hready.resolve_right fun hcovers => ?_) p
    obtain ⟨t, ht, hst⟩ := hcovers
    have hcandidate := hr.mem_statesAt_iff.2 ⟨ht, (hd.location_eq hst).symm⟩
    have hcovered := (ha.stop stop).2 ⟨t, hcandidate, hst⟩
    cases hcovered

theorem Treated.single (hd : d.Located) (ha : a.Joining d succs) (hr : r.Consistent)
    (hsingle : r.Single) {flow : Flow} (h : Treated a s p r flow r') : r'.Single := by
  cases h with
  | interrupted => exact hsingle
  | unadjusted adjust => exact hsingle
  | pruned adjust => exact hsingle
  | halting adjust settle =>
    have hkept := ha.adjust adjust
    cases hkept
  | unmerged adjust merge => exact (merge.single hd ha hr hsingle).1
  | proceeding adjust merge settle =>
    have hkept := ha.adjust adjust
    cases hkept
    obtain ⟨hmerged, hready⟩ := merge.single hd ha hr hsingle
    exact settle.single hd ha (merge.evolves.consistent hr) hmerged (hready rfl)

end Effect

variable [BEq P] [PartialEquivBEq S]

theorem Analysis.Joining.keeps_single {ω : Type} {d : Domain Id S} {succs : S → List S}
    {a : Analysis ω S P Frontier} (ha : a.Joining d succs) (hd : d.Located) :
    a.Keeps (fun _ => True) fun r => r.Consistent ∧ r.Single where
  cover := ha.cover
  pop hr e := ⟨hr.1.of_pop e, Reached.Apart.pop hr.2 e⟩
  enqueue h hr := ⟨hr.1.enqueue h, Reached.Apart.enqueue hr.2 h⟩
  transfer _ _ _ _ _ := trivial
  treat _ hr ht := ⟨ht.evolves.consistent hr.1, ht.single hd ha hr.1 hr.2⟩

end Reachability
