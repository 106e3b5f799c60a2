import Reachability.Proofs.Coverage.Advance
import Reachability.Proofs.Operator
import Reachability.Proofs.Reached.Replacing
import Reachability.Proofs.Run.Counters

/-! Merging a successor with the reached states of its location.

The merge operator is called on the candidates in turn, until a call fails or a shutdown
is seen (`Analysis.mergeCalls`), and what has changed by then is replaced in one batch.
New states may equal each other, a candidate that was kept, a candidate that is removed,
or a state of another location, and removed candidates make room for new pairs. Yet the
reached set afterwards is described by the calls alone (`Reached.MergedBy`,
`mergeInto_replaces`), also when not all candidates were looked at. -/
namespace Reachability

open AbstractState (location)

/-! ### Calls -/

/-- A call of the merge operator: the candidate, its state, and the answer. -/
structure MergeCall (S : Type) where
  handle : Handle
  old : S
  new : S
deriving DecidableEq

def MergeCall.changed {S : Type} [BEq S] (c : MergeCall S) : Bool :=
  c.new != c.old

variable {ω S P W : Type} [AbstractState S]

/-- The published pairs of a location, which a successor there is merged with. -/
def Reached.candidates (r : Reached S P W) (s : S) : List (Handle × S) :=
  (r.handlesAt s).filterMap fun h => (r.state? h).map fun t => (h, t)

/-- The calls by which a successor is merged with candidates in turn, and why they end
early if they do. The shutdown is looked at before each call. -/
def Analysis.mergeCalls (a : Analysis ω S P W) (s : S) (p : P) :
    List (Handle × S) → ω × Shutdown → List (MergeCall S) × Option Abort
  | [], _ => ([], none)
  | (h, old) :: rest, m =>
    if m.2.requested then ([], some .interrupted)
    else
      let r := a.merge.merge s old p m.1
      match r.result with
      | .error e => ([], some e)
      | .ok new =>
        let (calls, abort) := a.mergeCalls s p rest (Exploration.heed m r)
        (⟨h, old, new⟩ :: calls, abort)

/-- What a reached set is after the calls: the candidates that changed are replaced by
what they changed into, with the successor's precision, and that is all. -/
structure Reached.MergedBy [BEq S] [BEq P] (calls : List (MergeCall S)) (p : P)
    (r r' : Reached S P W) : Prop where
  gone : ∀ c ∈ calls, c.changed = true → r'.arena.get? c.handle = none
  /-- What a candidate changed into waits if it is new, or else if its precision is. -/
  published : ∀ c ∈ calls, c.changed = true → ∃ h e, r'.arena.get? h = some e ∧
    (e.state == c.new) = true ∧ (e.precision == p) = true ∧
    (r.arena.get? h = none → e.waiting = true) ∧
    ∀ old, r.arena.get? h = some old → (old.precision != p) = true → e.waiting = true
  /-- Another pair is published as it was, unless its state is published anew. -/
  kept : ∀ h e, r.arena.get? h = some e → (∀ c ∈ calls, c.changed = true → c.handle ≠ h) →
    r'.arena.get? h =
      some (if calls.any fun c => c.changed && e.state == c.new then e.refresh p else e)
  fresh : ∀ h e, r.arena.get? h = none → r'.arena.get? h = some e →
    ∃ c ∈ calls, c.changed = true ∧ e = ⟨c.new, p, true⟩

namespace Reached
variable {r : Reached S P W} {s : S}

theorem mem_candidates_iff {c : Handle × S} :
    c ∈ r.candidates s ↔ c.1 ∈ r.handlesAt s ∧ r.state? c.1 = some c.2 := by
  simp only [candidates, List.mem_filterMap, Option.map_eq_some_iff]
  constructor
  · rintro ⟨h, hmem, t, ht, rfl⟩
    exact ⟨hmem, ht⟩
  · rintro ⟨hmem, ht⟩
    exact ⟨c.1, hmem, c.2, ht, rfl⟩

/-- Each handle at a location names a candidate. -/
theorem Consistent.map_fst_candidates {r : Reached S P Frontier} (hr : r.Consistent) (s : S) :
    (r.candidates s).map Prod.fst = r.handlesAt s := by
  have hlive : ∀ h ∈ r.handlesAt s,
      (((r.state? h).map fun t => (h, t)).map Prod.fst) = some h := fun h hmem => by
    obtain ⟨t, ht, -⟩ := hr.mem_handlesAt_iff.1 hmem
    rw [ht]
    rfl
  rw [candidates, List.map_filterMap, List.filterMap_congr hlive, List.filterMap_some]

end Reached

namespace Analysis
variable {a : Analysis ω S P W} {s : S} {p : P}

/-- The calls are made on the candidates in turn, and end early by an abort only. -/
theorem mergeCalls_isPrefix (candidates : List (Handle × S)) (m : ω × Shutdown) :
    (a.mergeCalls s p candidates m).1.map (fun c => (c.handle, c.old)) <+: candidates ∧
      ((a.mergeCalls s p candidates m).2.isSome = true ↔
        (a.mergeCalls s p candidates m).1.length < candidates.length) := by
  induction candidates generalizing m with
  | nil => simp [mergeCalls]
  | cons c rest ih =>
    obtain ⟨h, old⟩ := c
    unfold mergeCalls
    split
    · simp
    · simp only
      cases (a.merge.merge s old p m.1).result with
      | error e => simp
      | ok new =>
        obtain ⟨hcalls, habort⟩ := ih (Exploration.heed m (a.merge.merge s old p m.1))
        exact ⟨(List.prefix_cons_inj _).2 hcalls, by simpa using habort⟩

theorem mem_of_mem_mergeCalls {candidates : List (Handle × S)} {m : ω × Shutdown}
    {c : MergeCall S} (hc : c ∈ (a.mergeCalls s p candidates m).1) :
    (c.handle, c.old) ∈ candidates :=
  (a.mergeCalls_isPrefix candidates m).1.subset (List.mem_map_of_mem hc)

/-- Unless they end early, there is a call for each candidate. -/
theorem exists_mergeCall {candidates : List (Handle × S)} {m : ω × Shutdown}
    (hall : (a.mergeCalls s p candidates m).2 = none) {h : Handle} {old : S}
    (hmem : (h, old) ∈ candidates) :
    ∃ c ∈ (a.mergeCalls s p candidates m).1, c.handle = h ∧ c.old = old := by
  obtain ⟨hcalls, habort⟩ := a.mergeCalls_isPrefix (s := s) (p := p) candidates m
  rw [hall, Option.isSome_none, Bool.false_eq_true, false_iff, Nat.not_lt] at habort
  have hlength := hcalls.length_le
  rw [← hcalls.eq_of_length (by rw [List.length_map] at hlength ⊢; omega), List.mem_map] at hmem
  obtain ⟨c, hc, hpair⟩ := hmem
  cases hpair
  exact ⟨c, hc, rfl, rfl⟩

/-- An answer was given by the merge operator. -/
theorem exists_merge_of_mem_mergeCalls {candidates : List (Handle × S)} {m : ω × Shutdown}
    {c : MergeCall S} (hc : c ∈ (a.mergeCalls s p candidates m).1) :
    ∃ w, (a.merge.merge s c.old p w).result = .ok c.new := by
  induction candidates generalizing m with
  | nil => cases hc
  | cons pair rest ih =>
    obtain ⟨h, old⟩ := pair
    unfold mergeCalls at hc
    split at hc
    · cases hc
    · simp only at hc
      cases hmerge : (a.merge.merge s old p m.1).result with
      | error e =>
        rw [hmerge] at hc
        cases hc
      | ok new =>
        rw [hmerge] at hc
        rcases List.mem_cons.1 hc with rfl | hc
        · exact ⟨m.1, hmerge⟩
        · exact ih hc

end Analysis

/-! ### The scan makes the calls -/

namespace Exploration
variable [BEq S] {a : Analysis ω S P W} {s : S} {p : P}

/-- The scan makes the calls, and keeps those that changed their candidate. -/
theorem scan_eq (candidates : List (Handle × S)) (x : Exploration ω S P W)
    (hstate : ∀ c ∈ candidates, x.reached.state? c.1 = some c.2) :
    (scan a s p (candidates.map Prod.fst) x).changed =
        ((a.mergeCalls s p candidates x.mind).1.filter MergeCall.changed).map
          (fun c => (c.handle, c.new)) ∧
      (scan a s p (candidates.map Prod.fst) x).abort = (a.mergeCalls s p candidates x.mind).2 := by
  induction candidates generalizing x with
  | nil => exact ⟨rfl, rfl⟩
  | cons c rest ih =>
    obtain ⟨h, old⟩ := c
    have hold := hstate (h, old) (List.mem_cons_self ..)
    rw [List.map_cons]
    unfold scan Analysis.mergeCalls
    by_cases hrequested : x.shutdown.requested = true
    · have hmind : x.mind.2.requested = true := hrequested
      rw [if_pos hrequested, if_pos hmind]
      exact ⟨rfl, rfl⟩
    · have hmind : ¬ x.mind.2.requested = true := hrequested
      have hreached := reached_ask x (a.merge.merge s old p)
      have hafter : (x.ask (a.merge.merge s old p)).2.mind =
          heed x.mind (a.merge.merge s old p x.mind.1) := mind_absorb x _
      have hanswer : (x.ask (a.merge.merge s old p)).1 =
          (a.merge.merge s old p x.mind.1).result := rfl
      rw [if_neg hrequested, if_neg hmind]
      simp only [hold]
      generalize x.ask (a.merge.merge s old p) = asked at hreached hafter hanswer ⊢
      obtain ⟨answer, y⟩ := asked
      simp only at hreached hafter hanswer
      rw [← hanswer, ← hafter]
      cases answer with
      | error e => exact ⟨rfl, rfl⟩
      | ok new =>
        have hrest : ∀ z : Exploration ω S P W, z.reached = y.reached →
            ∀ c ∈ rest, z.reached.state? c.1 = some c.2 := fun z hz c hc => by
          rw [hz, hreached]
          exact hstate c (List.mem_cons_of_mem _ hc)
        by_cases hchanged : (new != old) = true
        · have hfirst : (⟨h, old, new⟩ : MergeCall S).changed = true := hchanged
          obtain ⟨hothers, habort⟩ := ih ((y.note (.mergedWith h)).note (.merged s old new))
            (hrest _ rfl)
          simp only [if_pos hchanged, List.filter_cons_of_pos hfirst, List.map_cons]
          exact ⟨congrArg _ hothers, habort⟩
        · have hfirst : ¬ (⟨h, old, new⟩ : MergeCall S).changed = true := hchanged
          obtain ⟨hothers, habort⟩ := ih y (hrest _ rfl)
          simp only [if_neg hchanged, List.filter_cons_of_neg hfirst]
          exact ⟨hothers, habort⟩

variable [BEq P]

/-- A merge counts the candidates that changed, and applies them as one batch. -/
theorem mergeInto_eq {x : Exploration ω S P Frontier} {a : Analysis ω S P Frontier}
    (hx : x.reached.Consistent) (s : S) (p : P) :
    let called := a.mergeCalls s p (x.reached.candidates s) x.mind
    let changed := called.1.filter MergeCall.changed
    (mergeInto a s p x).1 = called.2 ∧
      (mergeInto a s p x).2.counts =
        {x.counts with merges := x.counts.merges + changed.length} ∧
      (mergeInto a s p x).2.reached =
        x.reached.update (changed.map MergeCall.handle) (changed.map fun c => (c.new, p)) := by
  simp only
  unfold mergeInto
  rw [← hx.map_fst_candidates s]
  simp only
  split
  · rename_i hempty
    rw [List.isEmpty_iff, List.map_eq_nil_iff] at hempty
    rw [hempty]
    exact ⟨rfl, rfl, rfl⟩
  · generalize hbegun : (x.note (.considering ((x.reached.candidates s).map Prod.fst).length)).start
      .merge = y
    have hreached : y.reached = x.reached := hbegun ▸ rfl
    have hmind : y.mind = x.mind := hbegun ▸ rfl
    have hcounts : y.counts = x.counts := by rw [← hbegun, counts_start, counts_note]
    have hafter := (Effect.scan_effect a s p ((x.reached.candidates s).map Prod.fst) y).2
    have hcounted := counts_scan a s p ((x.reached.candidates s).map Prod.fst) y
    obtain ⟨hchanged, habort⟩ := scan_eq (a := a) (s := s) (p := p) (x.reached.candidates s) y
      fun c hc => by
        rw [hreached]
        exact (Reached.mem_candidates_iff.1 hc).2
    generalize scan a s p ((x.reached.candidates s).map Prod.fst) y = scanned at *
    rw [hmind] at hchanged habort
    refine ⟨habort, ?_, ?_⟩
    · have hreplaced : (replace p scanned.changed scanned.after).counts =
          {scanned.after.counts with
            merges := scanned.after.counts.merges + scanned.changed.length} := by
        cases scanned.changed <;> rfl
      rw [counts_stop, hreplaced, hcounted, hcounts, hchanged, List.length_map]
    · rw [reached_stop, Effect.reached_replace, hafter, hreached, hchanged, List.map_map,
        List.map_map]
      rfl

end Exploration

/-! ### What the calls leave behind -/

section
variable [BEq S] [EquivBEq S] [BEq P] [ReflBEq P]
  (hlocation : ∀ s t : S, (s == t) = true → location s = location t)
include hlocation

/-- Replacing what the calls changed is what `MergedBy` says it is. -/
theorem Reached.Kept.mergedBy {r : Reached S P Frontier} (hr : r.Kept) {calls : List (MergeCall S)}
    (hlive : ∀ c ∈ calls, r.state? c.handle = some c.old) (p : P) :
    r.MergedBy calls p (r.update ((calls.filter MergeCall.changed).map MergeCall.handle)
      ((calls.filter MergeCall.changed).map fun c => (c.new, p))) := by
  have hp : ∀ x ∈ (calls.filter MergeCall.changed).map fun c => (c.new, p), x.2 = p := by
    intro x hx
    obtain ⟨c, -, rfl⟩ := List.mem_map.1 hx
    rfl
  have hmem : ∀ {c}, c ∈ calls → c.changed = true → c ∈ calls.filter MergeCall.changed :=
    fun hc hchanged => List.mem_filter.2 ⟨hc, hchanged⟩
  refine ⟨fun c hc hchanged => ?_, fun c hc hchanged => ?_, fun h e he hothers => ?_,
    fun h e hnone he => ?_⟩
  · obtain ⟨e, he, -⟩ := state?_eq_some_iff.1 (hlive c hc)
    exact get?_update_of_mem (List.mem_map_of_mem (hmem hc hchanged)) he _
  · exact hr.exists_update hlocation hp (List.mem_map_of_mem (hmem hc hchanged))
  · have hout : h ∉ (calls.filter MergeCall.changed).map MergeCall.handle := fun hgone => by
      obtain ⟨c, hc, hch⟩ := List.mem_map.1 hgone
      obtain ⟨hc, hchanged⟩ := List.mem_filter.1 hc
      exact hothers c hc hchanged hch
    rw [hr.get?_update_of_not_mem hlocation hout he hp, List.any_map, List.any_filter]
    rfl
  · obtain ⟨x, hx, rfl⟩ := hr.get?_update_of_none hlocation hp hnone he
    obtain ⟨c, hc, rfl⟩ := List.mem_map.1 hx
    obtain ⟨hc, hchanged⟩ := List.mem_filter.1 hc
    exact ⟨c, hc, hchanged, rfl⟩

end

/-! ### Merging by the join -/

namespace Reached.MergedBy
variable [BEq S] [EquivBEq S] [BEq P] {d : Domain Id S} {calls : List (MergeCall S)} {p : P}
  {r r' : Reached S P Frontier}

/-- If what changed went up, no state is lost: each is below one that is published. -/
theorem exists_above (hm : r.MergedBy calls p r') (hd : Subsumption d.Below)
    (hlive : ∀ c ∈ calls, r.state? c.handle = some c.old)
    (hup : ∀ c ∈ calls, d.Below c.old c.new) : ∀ s ∈ r.states, ∃ t ∈ r'.states, d.Below s t := by
  intro s hs
  obtain ⟨h, hh⟩ := mem_states_iff.1 hs
  obtain ⟨e, he, rfl⟩ := state?_eq_some_iff.1 hh
  by_cases hgone : ∃ c ∈ calls, c.changed = true ∧ c.handle = h
  · obtain ⟨c, hc, hchanged, rfl⟩ := hgone
    have hold : c.old = e.state := Option.some.inj ((hlive c hc).symm.trans hh)
    obtain ⟨g, e', he', hsame, -⟩ := hm.published c hc hchanged
    refine ⟨e'.state, mem_states_iff.2 ⟨g, state?_eq_some_iff.2 ⟨e', he', rfl⟩⟩, ?_⟩
    rw [← hold]
    exact hd.trans (hup c hc) (hd.of_beq (BEq.symm hsame))
  · have hkept := hm.kept h e he fun c hc hchanged hch => hgone ⟨c, hc, hchanged, hch⟩
    refine ⟨e.state, mem_states_iff.2 ⟨h, state?_eq_some_iff.2 ⟨_, hkept, ?_⟩⟩, hd.refl _⟩
    split
    · exact Entry.state_refresh p e
    · rfl

omit [EquivBEq S] in
/-- If each answer is above the successor, so is all that is published at its location once
every candidate was called on. -/
theorem below_all {s : S} (hm : r.MergedBy calls p r') (hd : Subsumption d.Below)
    (hr : r.Consistent) (hr' : r'.Consistent) (hup : ∀ c ∈ calls, d.Below s c.new)
    (hall : ∀ h ∈ r.handlesAt s, ∀ t, r.state? h = some t →
      ∃ c ∈ calls, c.handle = h ∧ c.old = t) : ∀ t ∈ r'.statesAt s, d.Below s t := by
  intro t ht
  obtain ⟨h, hmem, hh⟩ := Reached.mem_statesAt_iff.1 ht
  have hloc := hr'.location_of_mem_handlesAt hmem hh
  obtain ⟨e, he, rfl⟩ := state?_eq_some_iff.1 hh
  cases hbefore : r.arena.get? h with
  | none =>
    obtain ⟨c, hc, -, rfl⟩ := hm.fresh h e hbefore he
    exact hup c hc
  | some old =>
    have hlive : ∀ c ∈ calls, c.changed = true → c.handle ≠ h := fun c hc hchanged hch => by
      rw [← hch, hm.gone c hc hchanged] at he
      cases he
    have hstate : e.state = old.state := by
      have hkept := hm.kept h old hbefore hlive
      rw [he, Option.some.injEq] at hkept
      rw [hkept]
      split
      · exact Entry.state_refresh p old
      · rfl
    have hold : r.state? h = some e.state := state?_eq_some_iff.2 ⟨old, hbefore, hstate.symm⟩
    have hcandidate := hr.mem_handlesAt_iff.2 ⟨e.state, hold, hloc⟩
    obtain ⟨c, hc, rfl, hcold⟩ := hall h hcandidate e.state hold
    have hsame : (c.new == c.old) = true := by
      cases hdiffers : c.new == c.old with
      | true => rfl
      | false => exact absurd rfl (hlive c hc (by rw [MergeCall.changed, bne, hdiffers]; rfl))
    rw [← hcold]
    exact hd.trans (hup c hc) (hd.of_beq hsame)

end Reached.MergedBy

/-- A join answers with states above both that it was called on. -/
theorem Analysis.below_of_mem_mergeCalls [BEq S] {a : Analysis ω S P Frontier} {d : Domain Id S}
    (hjoin : a.merge.Joins d) (hd : Subsumption d.Below)
    (hupper : ∀ u v, location u = location v →
      d.Below u (d.join u v).run ∧ d.Below v (d.join u v).run)
    {r : Reached S P Frontier} (hr : r.Consistent) {s : S} {p : P} {m : ω × Shutdown}
    {c : MergeCall S} (hc : c ∈ (a.mergeCalls s p (r.candidates s) m).1) :
    d.Below s c.new ∧ d.Below c.old c.new := by
  obtain ⟨w, hanswer⟩ := exists_merge_of_mem_mergeCalls hc
  obtain ⟨hcandidate, hold⟩ := Reached.mem_candidates_iff.1 (mem_of_mem_mergeCalls hc)
  have hloc := hr.location_of_mem_handlesAt hcandidate hold
  obtain ⟨hleft, hright⟩ := hupper s c.old hloc.symm
  exact ⟨hjoin.covered hleft hanswer, hjoin.below hd.refl hright hanswer⟩

namespace Exploration
variable [BEq S] [EquivBEq S] [BEq P] [ReflBEq P]

/-- **Merging a successor replaces what changed, and nothing else**, in whatever reached set
and however the calls end. The calls are made on the candidates in turn, and an abort is
returned if and only if some candidate was not looked at. Merging by the join of a domain
loses no state, and unless it was cut short leaves the successor covered by all that is
published at its location. -/
theorem mergeInto_replaces (a : Analysis ω S P Frontier)
    (hlocation : ∀ s t : S, (s == t) = true → location s = location t) {o : TraversalOrder}
    {x : Exploration ω S P Frontier} (hx : Reached.Evolves (.ofOrder o) x.reached) (s : S) (p : P) :
    let calls := (a.mergeCalls s p (x.reached.candidates s) x.mind).1
    let abort := (mergeInto a s p x).1
    let y := (mergeInto a s p x).2
    x.reached.MergedBy calls p y.reached ∧
      calls.map (fun c => (c.handle, c.old)) <+: x.reached.candidates s ∧
      (x.reached.candidates s).map Prod.fst = x.reached.handlesAt s ∧
      y.counts =
        {x.counts with merges := x.counts.merges + (calls.filter MergeCall.changed).length} ∧
      abort = (a.mergeCalls s p (x.reached.candidates s) x.mind).2 ∧
      (abort.isSome = true ↔ calls.length < (x.reached.handlesAt s).length) ∧
      ∀ d : Domain Id S, a.merge.Joins d → Subsumption d.Below →
        (∀ u v, location u = location v →
          d.Below u (d.join u v).run ∧ d.Below v (d.join u v).run) →
        (∀ t ∈ x.reached.states, ∃ u ∈ y.reached.states, d.Below t u) ∧
          (abort = none → ∀ u ∈ y.reached.statesAt s, d.Below s u) := by
  obtain ⟨ops, hops⟩ := hx
  have hkept : x.reached.Kept := by
    rw [hops]
    exact (Reached.Kept.stable hlocation).performAll ops (.ofOrder o)
  obtain ⟨habort, hcounts, hreached⟩ := mergeInto_eq (a := a) hkept.consistent s p
  obtain ⟨hinitial, hshort⟩ :=
    a.mergeCalls_isPrefix (s := s) (p := p) (x.reached.candidates s) x.mind
  have hlive : ∀ c ∈ (a.mergeCalls s p (x.reached.candidates s) x.mind).1,
      x.reached.state? c.handle = some c.old := fun c hc =>
    (Reached.mem_candidates_iff.1 (Analysis.mem_of_mem_mergeCalls hc)).2
  have hmerged := hkept.mergedBy hlocation hlive p
  rw [← hreached] at hmerged
  have hlength := congrArg List.length (hkept.consistent.map_fst_candidates s)
  rw [List.length_map] at hlength
  refine ⟨hmerged, hinitial, hkept.consistent.map_fst_candidates s, hcounts, habort, ?_,
    fun d hjoin hd hupper => ?_⟩
  · rw [habort, hshort, hlength]
  · have hup : ∀ c ∈ (a.mergeCalls s p (x.reached.candidates s) x.mind).1,
        d.Below s c.new ∧ d.Below c.old c.new :=
      fun _ => Analysis.below_of_mem_mergeCalls hjoin hd hupper hkept.consistent
    refine ⟨hmerged.exists_above hd hlive fun c hc => (hup c hc).2, fun hnone => ?_⟩
    have hafter : (mergeInto a s p x).2.reached.Consistent := by
      rw [hreached]
      exact ((Reached.Kept.stable hlocation).addAll _ (hkept.removeHandles hlocation _)).consistent
    refine hmerged.below_all hd hkept.consistent hafter (fun c hc => (hup c hc).1) ?_
    intro h hmem t ht
    rw [habort] at hnone
    exact Analysis.exists_mergeCall hnone (Reached.mem_candidates_iff.2 ⟨hmem, ht⟩)

end Exploration
end Reachability

/-! Intervals of the demonstration, two of one location among them. A successor above both
replaces them by one, which moves into the cell of the first. -/
namespace Reachability.Counter

def crowd : State where
  trail :=
    { reached := (Reached.ofOrder .topological).performAll
        [.add ⟨.loop, 0, 0⟩ (), .add ⟨.exit, 1, 1⟩ (), .add ⟨.loop, 2, 2⟩ ()] }
  memory := ()

/-- The successor, merged. -/
def crowdMerged : Option Abort × State :=
  crowd.mergeInto (analysis ⟨9, none⟩ true false) ⟨.loop, 0, 5⟩ ()

def crowdCalls : List (MergeCall Interval) :=
  ((analysis ⟨9, none⟩ true false : Analysis Unit Interval Unit Frontier).mergeCalls ⟨.loop, 0, 5⟩ ()
    (crowd.reached.candidates ⟨.loop, 0, 5⟩) crowd.mind).1

theorem crowd_replaced :
    (∀ c ∈ crowdCalls, crowdMerged.2.reached.arena.get? c.handle = none) ∧
      crowdCalls.map MergeCall.handle = [⟨0, 0⟩, ⟨2, 0⟩] ∧
      crowdMerged.2.reached.states = [⟨.loop, 0, 5⟩, ⟨.exit, 1, 1⟩] ∧
      crowdMerged.2.counts.merges = 2 ∧
      (∀ t ∈ crowd.reached.states, ∃ u ∈ crowdMerged.2.reached.states,
        Interval.domain.Below t u) ∧
      ∀ u ∈ crowdMerged.2.reached.statesAt ⟨.loop, 0, 5⟩, Interval.domain.Below ⟨.loop, 0, 5⟩ u := by
  obtain ⟨hmerged, -, -, hcounts, -, -, hjoin⟩ :=
    Exploration.mergeInto_replaces (analysis ⟨9, none⟩ true false)
      (fun _ _ hst => congrArg Interval.loc (eq_of_beq hst))
      (o := .topological) (x := crowd) ⟨_, rfl⟩ ⟨.loop, 0, 5⟩ ()
  obtain ⟨hlossless, hcovered⟩ := hjoin Interval.domain (Merge.joins_join _) Interval.subsumption
    fun u v huv => ⟨Interval.below_join_left u v, Interval.below_join_right huv⟩
  have hchanged : ∀ c ∈ crowdCalls, c.changed = true := by decide +kernel
  exact ⟨fun c hc => hmerged.gone c hc (hchanged c hc), by decide +kernel, by decide +kernel,
    (congrArg Statistics.merges hcounts).trans (by decide +kernel), hlossless,
    hcovered (by decide +kernel)⟩

end Reachability.Counter
