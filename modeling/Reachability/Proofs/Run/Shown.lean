import Mathlib.Data.Set.Function
import Reachability.Proofs.Join.Single
import Reachability.Proofs.Reached.Showing
import Reachability.Proofs.Run.Faultless

/-! What an iteration does to the published states, seen from outside.

A successor is published, or merged, or covered. If coverage is by a single state, and merging is
by the join or not at all, then the set of published states decides which. So an iteration can be
followed on the sets of published and of waiting states alone. -/
namespace Reachability

open AbstractState (location)

variable {ω S P : Type} [AbstractState S] [BEq S] {d : Domain Id S} {a : Analysis ω S P Frontier}
  {r r' : Reached S P Frontier} {published waits : Set S} {s old : S} {p : P}

theorem Flow.onward_ne_abort (e : Abort) : onward ≠ abort e := nofun

theorem Flow.halt_ne_abort (e : Abort) : halt ≠ abort e := nofun

/-- Where each location has one published state, nothing else is merged with. -/
theorem Reached.Shows.single [LawfulBEq S] (hr : r.Shows published waits)
    (hinj : published.InjOn location) : r.Single := by
  intro g h s t hs ht hloc
  have hst : s = t := hinj (hr.mem_published hs) (hr.mem_published ht) hloc
  exact hr.handle_unique hs (hst ▸ ht)

namespace Effect
open Reached

/-! ### Coverage -/

/-- A successor is covered if a published state is above it. -/
theorem covered_iff (hd : d.Located) (hstop : a.stop = .separate d.toComparison.lift)
    (hr : r.Shows published waits) {w : ω} {covered : Bool}
    (h : (a.stop s (r.statesAt s) p w).result = .ok covered) :
    covered = true ↔ ∃ t ∈ published, d.Below s t := by
  rw [hstop] at h
  rw [Stop.covered_iff_of_separate h]
  constructor
  · rintro ⟨t, ht, hst⟩
    exact ⟨t, hr.states.1 (hr.consistent.mem_statesAt_iff.1 ht).1, hst⟩
  · rintro ⟨t, ht, hst⟩
    exact ⟨t, hr.consistent.mem_statesAt_iff.2 ⟨hr.states.2 ht, (hd.location_eq hst).symm⟩, hst⟩

variable [BEq P]

theorem Settled.of_uncovered [LawfulBEq S] (hd : d.Located)
    (hstop : a.stop = .separate d.toComparison.lift) (hr : r.Shows published waits)
    (hnew : ∀ t ∈ published, ¬ d.Below s t) {after flow : Flow} (hflow : ∀ e, flow ≠ .abort e)
    (h : Settled a s p after r flow r') :
    flow = after ∧ r'.Shows (insert s published) (insert s waits) := by
  cases h with
  | undecided stop => exact absurd rfl (hflow _)
  | covered stop =>
    obtain ⟨t, ht, hst⟩ := (covered_iff hd hstop hr stop).1 rfl
    exact absurd hst (hnew t ht)
  | published stop => exact ⟨rfl, hr.add (fun hs => hnew s hs (hd.subsumption.refl s)) p⟩

theorem Settled.of_covered (hd : d.Located) (hstop : a.stop = .separate d.toComparison.lift)
    (hr : r.Shows published waits) (hold : old ∈ published) (hbelow : d.Below s old)
    {after flow : Flow} (hflow : ∀ e, flow ≠ .abort e) (h : Settled a s p after r flow r') :
    flow = .onward ∧ r' = r := by
  cases h with
  | undecided stop => exact absurd rfl (hflow _)
  | covered stop => exact ⟨rfl, rfl⟩
  | published stop =>
    have hcovered := (covered_iff hd hstop hr stop).2 ⟨old, hold, hbelow⟩
    cases hcovered

/-! ### Merging -/

theorem Merged.of_separates (hseparates : a.merge.separates = true) {abort : Option Abort}
    (h : Merged a s p r abort r') : r' = r := by
  cases h with
  | spared separates => rfl
  | scanned joins scan =>
    rw [hseparates] at joins
    cases joins

/-- The first state at its location is merged with nothing. -/
theorem Merged.of_vacant (hr : r.Shows published waits)
    (hvacant : ∀ t ∈ published, location t ≠ location s) {abort : Option Abort}
    (h : Merged a s p r abort r') : r' = r := by
  cases h with
  | spared separates => rfl
  | scanned joins scan =>
    have hnone : r.handlesAt s = [] := by
      refine List.eq_nil_iff_forall_not_mem.2 fun h hmem => ?_
      obtain ⟨t, ht, hloc⟩ := hr.consistent.mem_handlesAt_iff.1 hmem
      exact hvacant t (hr.mem_published ht) hloc
    rw [hnone] at scan
    rw [scan.of_nil]
    rfl

variable [LawfulBEq S]

/-- The only state of the location is joined with the successor. -/
theorem Merged.of_occupied (hmerge : a.merge = .join d.lift) (hr : r.Shows published waits)
    (hinj : published.InjOn location) (hold : old ∈ published)
    (hloc : location s = location old) (h : Merged a s p r none r') :
    d.Below s old ∧ r' = r ∨
      ¬ d.Below s old ∧ ((d.join s old).run ∉ published → r'.Shows
        (insert (d.join s old).run (published \ {old})) (insert (d.join s old).run waits)) := by
  cases h with
  | spared separates =>
    rw [hmerge] at separates
    cases separates
  | scanned joins scan =>
    rcases (hr.single hinj).handlesAt_eq hr.consistent s with ⟨-, hvacant⟩ | ⟨g, t, hlist, ht, hloc'⟩
    · exact absurd hloc.symm (hvacant old (hr.states.2 hold))
    · obtain rfl : t = old := hinj (hr.mem_published ht) hold (hloc'.trans hloc)
      rw [hlist] at scan
      rcases scan.of_singleton ht with ⟨rfl, hkept⟩ | ⟨-, new, -, rfl⟩
      · obtain ⟨w, new, hnew, hsame⟩ := hkept rfl
        rw [hmerge, Merge.result_join, Except.ok.injEq] at hnew
        by_cases hbelow : d.Below s t
        · exact .inl ⟨hbelow, rfl⟩
        · rw [if_neg hbelow] at hnew
          have hsame' : (d.join s t).run = t := hnew.trans (eq_of_beq hsame)
          exact .inr ⟨hbelow, fun hfresh => absurd (hsame'.symm ▸ hold) hfresh⟩
      · obtain ⟨-, u, w, hu, hnew, hdiffers⟩ := scan.exists_merge (List.mem_singleton_self _)
        obtain rfl : t = u := Option.some.inj (ht.symm.trans hu)
        rw [hmerge, Merge.result_join, Except.ok.injEq] at hnew
        by_cases hbelow : d.Below s t
        · rw [if_pos hbelow] at hnew
          rw [← hnew, BEq.rfl] at hdiffers
          cases hdiffers
        · rw [if_neg hbelow] at hnew
          exact .inr ⟨hbelow, fun hfresh => hnew ▸ hr.update ht hfresh p⟩

/-! ### Successors -/

omit [LawfulBEq S] in
/-- A successor that is kept as it is. -/
theorem Treated.of_kept {action : Action}
    (hkeeps : ∀ w, (a.adjust s p r w).result = .ok (some ⟨s, p, action⟩)) {flow : Flow}
    (hflow : ∀ e, flow ≠ .abort e) (h : Treated a s p r flow r') :
    action = .halt ∧ Settled a s p .halt r flow r' ∨
      action = .proceed ∧ ∃ r₁, Merged a s p r none r₁ ∧ Settled a s p .onward r₁ flow r' := by
  cases h with
  | interrupted => exact absurd rfl (hflow _)
  | unadjusted adjust => exact absurd rfl (hflow _)
  | pruned adjust =>
    rw [hkeeps] at adjust
    cases adjust
  | halting adjust settle =>
    rw [hkeeps] at adjust
    cases adjust
    exact .inl ⟨rfl, settle⟩
  | unmerged adjust merge => exact absurd rfl (hflow _)
  | proceeding adjust merge settle =>
    rw [hkeeps] at adjust
    cases adjust
    exact .inr ⟨rfl, _, merge, settle⟩

/-- A successor that is neither covered nor merged is published. -/
theorem Treated.of_new (hd : d.Located) (hstop : a.stop = .separate d.toComparison.lift)
    (hr : r.Shows published waits) (hnew : ∀ t ∈ published, ¬ d.Below s t)
    (hunmerged : a.merge.separates = true ∨ ∀ t ∈ published, location t ≠ location s)
    {action : Action} (hkeeps : ∀ w, (a.adjust s p r w).result = .ok (some ⟨s, p, action⟩))
    {flow : Flow} (hflow : ∀ e, flow ≠ .abort e) (h : Treated a s p r flow r') :
    flow = (if action = .halt then .halt else .onward) ∧
      r'.Shows (insert s published) (insert s waits) := by
  rcases h.of_kept hkeeps hflow with ⟨rfl, hsettled⟩ | ⟨rfl, r₁, hmerged, hsettled⟩
  · exact hsettled.of_uncovered hd hstop hr hnew hflow
  · have hsame : r₁ = r := hunmerged.elim hmerged.of_separates (hmerged.of_vacant hr)
    subst hsame
    exact hsettled.of_uncovered hd hstop hr hnew hflow

/-- A successor below the only state of its location changes nothing. -/
theorem Treated.of_covered (hd : d.Located) (hstop : a.stop = .separate d.toComparison.lift)
    (hmerge : a.merge = .join d.lift) (hr : r.Shows published waits)
    (hinj : published.InjOn location) (hold : old ∈ published) (hbelow : d.Below s old)
    (hkeeps : ∀ w, (a.adjust s p r w).result = .ok (some ⟨s, p, .proceed⟩))
    {flow : Flow} (hflow : ∀ e, flow ≠ .abort e) (h : Treated a s p r flow r') :
    flow = .onward ∧ r' = r := by
  rcases h.of_kept hkeeps hflow with ⟨hhalt, -⟩ | ⟨-, r₁, hmerged, hsettled⟩
  · cases hhalt
  · rcases hmerged.of_occupied hmerge hr hinj hold (hd.location_eq hbelow) with ⟨-, rfl⟩ | ⟨hnot, -⟩
    · exact hsettled.of_covered hd hstop hr hold hbelow hflow
    · exact absurd hbelow hnot

/-- Any other successor takes the place of the only state of its location, joined with it. -/
theorem Treated.of_joined (hd : d.Located) (hstop : a.stop = .separate d.toComparison.lift)
    (hmerge : a.merge = .join d.lift) (hr : r.Shows published waits)
    (hinj : published.InjOn location) (hold : old ∈ published) (hloc : location s = location old)
    (hnot : ¬ d.Below s old) (hnew : (d.join s old).run ∉ published)
    (hkeeps : ∀ w, (a.adjust s p r w).result = .ok (some ⟨s, p, .proceed⟩))
    {flow : Flow} (hflow : ∀ e, flow ≠ .abort e) (h : Treated a s p r flow r') :
    flow = .onward ∧ r'.Shows (insert (d.join s old).run (published \ {old}))
      (insert (d.join s old).run waits) := by
  rcases h.of_kept hkeeps hflow with ⟨hhalt, -⟩ | ⟨-, r₁, hmerged, hsettled⟩
  · cases hhalt
  · rcases hmerged.of_occupied hmerge hr hinj hold hloc with ⟨hbelow, -⟩ | ⟨-, hjoined⟩
    · exact absurd hbelow hnot
    · have hshows := hjoined hnew
      obtain ⟨rfl, rfl⟩ := hsettled.of_covered hd hstop hshows (Set.mem_insert _ _)
        (hd.join_left hloc) hflow
      exact ⟨rfl, hshows⟩

omit [LawfulBEq S] in
/-- Either the first successor is dealt with and the others follow, or it halts the run, and the
expanded pair is put back if there are others. -/
theorem TreatedAll.of_cons {h : Handle} {rest : List (S × P)} {flow : Flow}
    (hflow : ∀ e, flow ≠ .abort e) (ht : TreatedAll a h ((s, p) :: rest) r flow r') :
    (∃ r₁, Treated a s p r .onward r₁ ∧ TreatedAll a h rest r₁ flow r') ∨
      flow = .halt ∧ ∃ r₁, Treated a s p r .halt r₁ ∧ (r' = r₁ ∨ r' = (r₁.enqueue h).2) := by
  cases ht with
  | next first others => exact .inl ⟨_, first, others⟩
  | haltedLast first => exact .inr ⟨rfl, _, first, .inl rfl⟩
  | halted first left => exact .inr ⟨rfl, _, first, .inr rfl⟩
  | abandoned first => exact absurd rfl (hflow _)

omit [LawfulBEq S] in
theorem TreatedAll.of_nil {h : Handle} {flow : Flow} (ht : TreatedAll a h [] r flow r') :
    flow = .onward ∧ r' = r := by
  cases ht
  exact ⟨rfl, rfl⟩

omit [LawfulBEq S] in
theorem TreatedAll.singleton {h : Handle} {flow : Flow} (ht : TreatedAll a h [(s, p)] r flow r') :
    Treated a s p r flow r' := by
  cases ht with
  | next first others =>
    cases others
    exact first
  | haltedLast first => exact first
  | halted first left => exact absurd rfl left
  | abandoned first => exact first

/-- The only state that waits is popped, and its successors are dealt with. -/
theorem Expanded.of_popped (hcover : a.cover = none) (hr : r.Shows published {s}) {h : Handle}
    {r₁ : Reached S P Frontier} (popped : r.pop = (some h, r₁)) {flow : Flow}
    (hflow : ∀ e, flow ≠ .abort e) (hx : Expanded a h r₁ flow r') :
    ∃ p w l, r₁.Shows published ∅ ∧ (a.transfer s p w).result = .ok l ∧
      TreatedAll a h l r₁ flow r' := by
  obtain ⟨t, ht, hstate, hshows⟩ := hr.pop popped
  obtain rfl : t = s := ht
  rw [Set.sdiff_self] at hshows
  obtain ⟨e, he, rfl⟩ := state?_eq_some_iff.1 hstate
  cases hx with
  | nothing pair => simp [get?, he] at pair
  | unattempted pair cover => cases (cover.of_absent hcover).1
  | forced pair cover => cases (cover.of_absent hcover).1
  | failed pair cover transfer => exact absurd rfl (hflow _)
  | expanded pair cover transfer treated =>
    obtain ⟨-, rfl⟩ := cover.of_absent hcover
    simp only [get?, he, Option.map_some, Option.some.injEq, Prod.mk.injEq] at pair
    obtain ⟨rfl, rfl⟩ := pair
    exact ⟨_, _, _, hshows, transfer, treated⟩

end Effect

/-! ### Iterations -/

namespace Exploration
open Effect

variable [BEq P] {x : Exploration ω S P Frontier}

/-- When nothing waits, the run is exhausted. -/
theorem step_of_shows_empty (hr : x.reached.Shows published ∅) :
    step a x = (some (.ok .exhausted), x) := by
  have hidle : x.reached.hasWaiting = false := by
    refine Bool.eq_false_iff.2 fun hwaiting => ?_
    obtain ⟨s, -, hs⟩ := hr.hasWaiting_iff.1 hwaiting
    cases hs
  rw [step, hidle]
  rfl

/-- When a single state waits, it is expanded, and that does not fail. -/
theorem exists_treatedAll [LawfulBEq S] (ha : a.Faultless) (hcover : a.cover = none) (hx : x.Quiet)
    (hr : x.reached.Shows published {s}) (hs : s ∈ published) :
    ∃ h r p w l flow, r.Shows published ∅ ∧
      (a.transfer s p w).result = .ok l ∧ TreatedAll a h l r flow (step a x).2.reached ∧
      (step a x).1 = flow.ending ∧ ∀ e, flow ≠ .abort e := by
  have hwaiting := hr.hasWaiting_iff.2 ⟨s, hs, rfl⟩
  obtain ⟨hfails, -⟩ := hx.step ha
  have hstep := step_effect a x
  generalize (step a x).1 = ended, (step a x).2.reached = r' at hfails hstep
  cases hstep with
  | exhausted idle =>
    rw [hwaiting] at idle
    cases idle
  | interrupted => exact absurd rfl (hfails _)
  | drained popped =>
    have hnil := (hr.consistent.toList_eq_nil_of_pop_eq_none popped).1
    rw [Reached.Consistent.not_hasWaiting_iff.2 hnil] at hwaiting
    cases hwaiting
  | onward popped expansion =>
    obtain ⟨p, w, l, hshows, htransfer, htreated⟩ :=
      expansion.of_popped hcover hr popped Flow.onward_ne_abort
    exact ⟨_, _, p, w, l, _, hshows, htransfer, htreated, rfl, Flow.onward_ne_abort⟩
  | halted popped expansion =>
    obtain ⟨p, w, l, hshows, htransfer, htreated⟩ :=
      expansion.of_popped hcover hr popped Flow.halt_ne_abort
    exact ⟨_, _, p, w, l, _, hshows, htransfer, htreated, rfl, Flow.halt_ne_abort⟩
  | abandoned popped expansion => exact absurd rfl (hfails _)

end Exploration
end Reachability
