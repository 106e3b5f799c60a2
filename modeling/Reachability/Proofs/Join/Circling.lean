import Reachability.Proofs.Join.Termination
import Reachability.Proofs.Run.Shown

/-! A join analysis that never ends.

A merge that answers the reached state is known to have changed nothing by the answer being equal
to the reached state. So if that state equals nothing, not even itself, each merge with it is taken
for a change: it is removed and published again, and waits. If it is its own successor, the run
goes on for ever (`run_circles`), although nothing ascends. -/
namespace Reachability

open AbstractState (location)

variable {ω S P : Type} [AbstractState S] [BEq S] [BEq P]

/-- The state is its own successor, the only one, and nothing goes wrong. -/
structure Analysis.Circling (d : Domain Id S) (s : S) (a : Analysis ω S P Frontier) : Prop where
  joinMerging : a.JoinMerging d
  faultless : a.Faultless
  below : d.Below s s
  transfer : ∀ {p : P} {w : ω} {l : List (S × P)}, (a.transfer s p w).result = .ok l →
    ∃ q, l = [(s, q)]
  adjust : ∀ p r w, (a.adjust s p r w).result = .ok (some ⟨s, p, .proceed⟩)

section
variable {d : Domain Id S} {a : Analysis ω S P Frontier} {s : S} {p : P}
  {r r' : Reached S P Frontier} (hunequal : ∀ t, (t == s) = false)
include hunequal

namespace Reached

omit [BEq P] in
theorem find?_eq_none_of_unequal (r : Reached S P Frontier) : r.find? s = none := by
  cases hfind : r.find? s with
  | none => rfl
  | some h =>
    obtain ⟨-, t, -, hsame⟩ := find?_eq_some hfind
    rw [hunequal] at hsame
    cases hsame

/-- What equals nothing is published anew each time. -/
theorem Consistent.hasWaiting_add (hr : r.Consistent) (p : P) :
    (r.add s p).2.hasWaiting = true := by
  refine Bool.eq_true_of_not_eq_false fun hidle => ?_
  have hentry := get?_publish r s p (r.nextHandle s p)
  rw [if_pos rfl, ← add_of_find?_eq_none (find?_eq_none_of_unequal hunequal r)] at hentry
  have hwait := (hr.add s p).not_waiting_of_toList_eq_nil (not_hasWaiting_iff.1 hidle) hentry
  cases hwait

theorem Consistent.hasWaiting_addAll (hr : r.Consistent) {fresh : List (S × P)}
    (hfresh : ∀ x ∈ fresh, x.1 = s) (hne : fresh ≠ []) :
    (fresh.foldl (fun r (s, p) => (r.add s p).2) r).hasWaiting = true := by
  obtain ⟨before, ⟨t, p⟩, rfl⟩ := List.eq_nil_or_concat fresh |>.resolve_left hne
  rw [List.concat_eq_append] at *
  obtain rfl : t = s := hfresh _ (List.mem_append_right _ (List.mem_singleton_self _))
  rw [List.foldl_append]
  exact (Consistent.stable.addAll before hr).hasWaiting_add hunequal p

end Reached

namespace Effect
open Reached

/-- A merge with the state itself is taken for a change. -/
theorem Merged.circles (ha : a.Circling d s) (hr : r.Consistent) (hin : r.Within (· = s))
    (hs : s ∈ r.states) (h : Merged a s p r none r') : r'.hasWaiting = true := by
  cases h with
  | spared separates =>
    rw [ha.joinMerging.joins] at separates
    cases separates
  | @scanned changed _ joins scan =>
    obtain ⟨h, hh⟩ := mem_states_iff.1 hs
    -- What a merge answers does not equal the state, so the scan finds a change.
    have hchanged : changed ≠ [] := by
      rintro rfl
      obtain ⟨w, new, -, hsame⟩ :=
        scan.exists_kept (hr.mem_handlesAt_iff.2 ⟨s, hh, rfl⟩) List.not_mem_nil hh
      rw [hunequal] at hsame
      cases hsame
    refine (Consistent.stable.removeHandles _ hr).hasWaiting_addAll hunequal (fun x hx => ?_)
      (mt List.map_eq_nil_iff.1 hchanged)
    obtain ⟨c, hc, rfl⟩ := List.mem_map.1 hx
    obtain ⟨-, old, w, hold, hmerge, -⟩ := scan.exists_merge hc
    obtain rfl : old = s := hin old (mem_states_iff.2 ⟨c.1, hold⟩)
    rw [ha.joinMerging.merge hmerge, if_pos ha.below]

theorem Treated.circles (ha : a.Circling d s) (hr : r.Consistent) (hin : r.Within (· = s))
    (hs : s ∈ r.states) {flow : Flow} (hflow : ∀ e, flow ≠ .abort e) (h : Treated a s p r flow r') :
    flow = .onward ∧ r'.hasWaiting = true := by
  rcases h.of_kept (ha.adjust p r) hflow with ⟨hhalt, -⟩ | ⟨-, r₁, hmerged, hsettled⟩
  · cases hhalt
  · have hr₁ := hmerged.evolves.consistent hr
    cases hsettled with
    | undecided stop => exact absurd rfl (hflow _)
    | covered stop => exact ⟨rfl, hmerged.circles hunequal ha hr hin hs⟩
    | published stop => exact ⟨rfl, hr₁.hasWaiting_add hunequal p⟩

theorem Expanded.circles (ha : a.Circling d s) (hr : r.Consistent) (hin : r.Within (· = s))
    {h : Handle} (hlive : r.get? h ≠ none) {flow : Flow} (hflow : ∀ e, flow ≠ .abort e)
    (hx : Expanded a h r flow r') : flow = .onward ∧ r'.hasWaiting = true := by
  cases hx with
  | nothing pair => exact absurd pair hlive
  | unattempted pair cover => cases (cover.of_absent ha.joinMerging.cover).1
  | forced pair cover => cases (cover.of_absent ha.joinMerging.cover).1
  | failed pair cover transfer => exact absurd rfl (hflow _)
  | @expanded t p _ _ _ _ _ pair cover transfer treated =>
    have hmem : t ∈ r.states := mem_states_iff_get?.2 ⟨_, _, pair⟩
    obtain rfl : t = s := hin t hmem
    obtain ⟨-, rfl⟩ := cover.of_absent ha.joinMerging.cover
    obtain ⟨q, rfl⟩ := ha.transfer transfer
    exact treated.singleton.circles hunequal ha hr hin hmem hflow

/-- An iteration that does not fail goes on, and leaves something to be done. -/
theorem Stepped.circles (ha : a.Circling d s) (hr : r.Consistent) (hin : r.Within (· = s))
    (hwaiting : r.hasWaiting = true) {ended : Option (Except Abort Termination)}
    (hended : ∀ e, ended ≠ some (.error e)) (h : Stepped a r ended r') :
    ended = none ∧ r'.hasWaiting = true := by
  have hpopped : ∀ {h r₁}, r.pop = (some h, r₁) → ∀ {flow r'}, (∀ e, flow ≠ .abort e) →
      Expanded a h r₁ flow r' → flow = .onward ∧ r'.hasWaiting = true := by
    intro h r₁ popped flow r' hflow expansion
    refine expansion.circles hunequal ha (hr.of_pop popped)
      (fun t ht => hin t ((mem_states_of_pop popped).1 ht)) ?_ hflow
    obtain ⟨e, -, hview⟩ := pop_eq_some popped
    rw [get?, hview, if_pos rfl]
    exact Option.some_ne_none _
  cases h with
  | exhausted idle =>
    rw [hwaiting] at idle
    cases idle
  | interrupted => exact absurd rfl (hended _)
  | drained popped =>
    have hnil := (hr.toList_eq_nil_of_pop_eq_none popped).1
    rw [Consistent.not_hasWaiting_iff.2 hnil] at hwaiting
    cases hwaiting
  | onward popped expansion => exact ⟨rfl, (hpopped popped Flow.onward_ne_abort expansion).2⟩
  | halted popped expansion =>
    have hflow := (hpopped popped Flow.halt_ne_abort expansion).1
    cases hflow
  | abandoned popped expansion => exact absurd rfl (hended _)

end Effect

omit [BEq S] [BEq P] hunequal in
theorem Analysis.Circling.confined (ha : a.Circling d s) : a.Confined (· = s) where
  transfer := by
    rintro _ p w l rfl hl
    obtain ⟨q, rfl⟩ := ha.transfer hl
    exact List.forall_mem_singleton.2 rfl
  merge := by
    rintro _ _ old p w new _ rfl rfl hnew
    rw [ha.joinMerging.merge hnew, if_pos ha.below]
  adjust := by
    rintro _ p r w x rfl hx
    rw [ha.adjust] at hx
    cases hx
    rfl
  cover := ha.joinMerging.cover

namespace Exploration

theorem iterate_circles (ha : a.Circling d s) {x : Exploration ω S P Frontier}
    (hr : x.reached.Consistent) (hin : x.reached.Within (· = s))
    (hwaiting : x.reached.hasWaiting = true) (hquiet : x.Quiet) (n : Nat) :
    (iterate a n x).1 = none := by
  induction n generalizing x with
  | zero => rfl
  | succ n ih =>
    have hstep := Effect.step_effect a x
    obtain ⟨hended, hquiet'⟩ := hquiet.step ha.faultless
    unfold iterate
    generalize step a x = stepped at hstep hended hquiet' ⊢
    obtain ⟨ended, y⟩ := stepped
    obtain ⟨hr', hin'⟩ := hstep.preserves ha.confined.keeps ⟨hr, hin⟩
    obtain ⟨rfl, hwaiting'⟩ := hstep.circles hunequal ha hr hin hwaiting hended
    exact ih hr' hin' hwaiting' hquiet'

/-- **Where a state equals nothing, the run goes round it for ever**, whatever the limit. -/
theorem run_circles (ha : a.Circling d s) {x : Exploration ω S P Frontier}
    (hr : x.reached.Consistent) (hin : x.reached.Within (· = s))
    (hseeds : ∀ y ∈ x.reached.seeds, y.1 = s) (hne : x.reached.seeds ≠ []) (hquiet : x.Quiet)
    (limit : Nat) : (x.run a limit).1 = none := by
  rw [← Option.not_isSome_iff_eq_none, isSome_run, Option.not_isSome_iff_eq_none]
  have hpublished : (x.start .total).publishSeeds.reached = x.reached.drain :=
    reached_publishSeeds (x.start .total)
  have hshutdown : (x.start .total).publishSeeds.shutdown = x.shutdown :=
    congrArg Prod.snd (mind_publishSeeds (x.start .total))
  have htaken : x.reached.takeSeeds.2.Consistent := hr.congr rfl rfl rfl
  refine iterate_circles hunequal ha ?_ ?_ ?_ ?_ limit
  · exact hpublished ▸ hr.drain
  · exact hpublished ▸ Reached.Within.addAll hseeds hin
  · exact hpublished ▸ htaken.hasWaiting_addAll hunequal hseeds hne
  · rwa [Quiet, hshutdown]

end Exploration
end

/-! A gauge that shows a number, or nothing. Readings that are unknown are not known to be equal. -/
namespace Gauge

inductive Reading where
  | exact (n : Nat)
  | unknown

instance : BEq Reading where
  beq
    | .exact m, .exact n => m == n
    | _, _ => false

@[simp] theorem exact_beq (m n : Nat) : (Reading.exact m == .exact n) = (m == n) := rfl

@[simp] theorem unknown_beq (s : Reading) : (Reading.unknown == s) = false := rfl

@[simp] theorem beq_unknown (s : Reading) : (s == .unknown) = false := by
  cases s <;> rfl

instance : PartialEquivBEq Reading where
  symm {s t} h := by cases s <;> cases t <;> simp_all
  trans {s t u} hst htu := by cases s <;> cases t <;> cases u <;> simp_all

instance : AbstractState Reading where
  Location := Unit
  location _ := ()

/-- A reading that is unknown may be any. -/
def domain : Domain Id Reading :=
  .ofFunctions
    (fun s t => match t with
      | .unknown => true
      | .exact _ => s == t)
    (fun s t => if s == t then s else .unknown)

theorem below_iff {s t : Reading} : domain.Below s t ↔ t = .unknown ∨ (s == t) = true := by
  cases t with
  | exact n => simp [domain, Comparison.Below, Domain.ofFunctions]
  | unknown => simp [domain, Comparison.Below, Domain.ofFunctions]

theorem below_refl (s : Reading) : domain.Below s s := by
  cases s <;> simp [below_iff]

theorem subsumption : Subsumption domain.Below where
  refl := below_refl
  trans hst htu := by
    rcases below_iff.1 htu with hunknown | hequal
    · exact below_iff.2 (.inl hunknown)
    · rcases below_iff.1 hst with rfl | hst
      · simp at hequal
      · exact below_iff.2 (.inr (PartialEquivBEq.trans hst hequal))
  of_beq h := below_iff.2 (.inr h)

theorem bounding : domain.Bounding where
  subsumption := subsumption
  location_join _ := rfl
  join_left {s t} _ := by
    show domain.Below s (if s == t then s else .unknown)
    split
    · exact below_refl s
    · exact below_iff.2 (.inl rfl)
  join_right {s t} _ := by
    show domain.Below t (if s == t then s else .unknown)
    split
    · rename_i hequal
      exact below_iff.2 (.inr (PartialEquivBEq.symm hequal))
    · exact below_iff.2 (.inl rfl)

/-- Only what is unknown is above another reading. -/
theorem eq_unknown_of_climbs {s t : Reading} (h : domain.Climbs s t) : t = .unknown := by
  obtain ⟨-, hst, hts⟩ := h
  refine (below_iff.1 hst).resolve_right fun hequal => hts ?_
  exact below_iff.2 (.inr (PartialEquivBEq.symm hequal))

theorem ascentsEnd : domain.AscentsEnd := by
  rintro ⟨chain, hchain⟩
  obtain ⟨-, -, hback⟩ := hchain 1
  exact hback (below_iff.2 (.inl (eq_unknown_of_climbs (hchain 0))))

/-- Reading the gauge again shows the same. -/
def analysis : Analysis Unit Reading Unit Frontier where
  transfer s _ := pure [(s, ())]
  merge := .join domain.lift
  stop := .separate domain.toComparison.lift

theorem unknown_circling : analysis.Circling domain .unknown where
  joinMerging := Analysis.joinMerging_of_join rfl rfl rfl
  faultless :=
    { transfer := fun _ _ w => Ask.fine_pure _ w
      merge := Merge.fine_join domain
      stop := Stop.fine_separate domain.toComparison
      adjust := fun _ _ _ w => Ask.fine_pure _ w
      cover := fun _ h => by cases h }
  below := below_refl _
  transfer h := by
    cases h
    exact ⟨_, rfl⟩
  adjust _ _ _ := rfl

/-- The gauge shows nothing. -/
def outage : Exploration Unit Reading Unit Frontier where
  trail := { reached := (Reached.ofOrder .breadthFirst).addInitial .unknown () }
  memory := ()

/-- Merging by the join need not end if a state need not equal itself, even with a single location
and no ascent of more than one step. -/
theorem outage_never_ends :
    ¬ ∀ (d : Domain Id Reading) (a : Analysis Unit Reading Unit Frontier) (o : TraversalOrder)
      (x : Exploration Unit Reading Unit Frontier) (locations : Set (AbstractState.Location Reading)),
      d.Bounding → d.AscentsEnd → a.merge = .join d.lift → a.stop = .separate d.toComparison.lift →
      a.cover = none → Reached.Evolves (.ofOrder o) x.reached → locations.Finite →
      (∀ n, (Exploration.iterate a n (x.start .total).publishSeeds).2.reached.Within
        fun s => location s ∈ locations) →
      ∃ limit, (x.run a limit).1.isSome = true := by
  intro hends
  have hevolved : Reached.Evolves (.ofOrder .breadthFirst) outage.reached :=
    .perform _ (.addInitial Reading.unknown ())
  have hcircles : ∀ limit, (outage.run analysis limit).1 = none :=
    Exploration.run_circles beq_unknown unknown_circling
      (hevolved.consistent (.ofOrder .breadthFirst)) (fun s hs => (List.not_mem_nil hs).elim)
      (List.forall_mem_singleton.2 rfl) (List.cons_ne_nil _ _) rfl
  obtain ⟨limit, hlimit⟩ := hends domain analysis .breadthFirst outage Set.univ bounding ascentsEnd
    rfl rfl rfl hevolved (Set.toFinite (Set.univ : Set Unit)) fun _ _ _ => Set.mem_univ _
  rw [hcircles] at hlimit
  cases hlimit

end Gauge
end Reachability
