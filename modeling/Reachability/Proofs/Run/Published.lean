import Reachability.Proofs.Run.Unforced

/-! Bounds on what is published.

If a set of states contains the seeds, and transfer, adjustment and merging never lead
out of it, then all that is ever published is in the set. Merging need only be looked at
for states of one location, since these are the only ones that are merged. -/
namespace Reachability

open AbstractState (location)

variable {ω S P : Type} [AbstractState S] [BEq S] [BEq P]

/-- Operators that do not lead out of `Q`. -/
structure Analysis.Confined (Q : S → Prop) (a : Analysis ω S P Frontier) : Prop where
  transfer : ∀ {s : S} {p : P} {w : ω} {l : List (S × P)}, Q s →
    (a.transfer s p w).result = .ok l → ∀ x ∈ l, Q x.1
  merge : a.merge.separates = false → ∀ {s old : S} {p : P} {w : ω} {new : S},
    location s = location old → Q s → Q old → (a.merge.merge s old p w).result = .ok new → Q new
  adjust : ∀ {s : S} {p : P} {r : Reached S P Frontier} {w : ω} {x : Adjusted S P}, Q s →
    (a.adjust s p r w).result = .ok (some x) → Q x.state
  cover : a.cover = none

/-- All that is published is in `Q`. -/
def Reached.Within (Q : S → Prop) (r : Reached S P Frontier) : Prop :=
  ∀ s ∈ r.states, Q s

namespace Effect
open Reached

variable {a : Analysis ω S P Frontier} {Q : S → Prop} {r r' : Reached S P Frontier}

theorem Merged.within (ha : a.Confined Q) (hr : r.Consistent) (hin : r.Within Q) {s : S} {p : P}
    (hs : Q s) {abort : Option Abort} (h : Merged a s p r abort r') : r'.Within Q := by
  cases h with
  | spared separates => exact hin
  | scanned joins scan =>
    intro t ht
    rcases mem_states_of_mem_states_update ht with ht | ⟨x, hx, rfl⟩
    · exact hin t ht
    · obtain ⟨c, hc, rfl⟩ := List.mem_map.1 hx
      obtain ⟨hcandidate, old, w, hold, hmerge, -⟩ := scan.exists_merge hc
      have hloc := hr.location_of_mem_handlesAt hcandidate hold
      exact ha.merge joins hloc.symm hs (hin old (mem_states_iff.2 ⟨c.1, hold⟩)) hmerge

theorem Settled.within (hin : r.Within Q) {s : S} {p : P} (hs : Q s) {after flow : Flow}
    (h : Settled a s p after r flow r') : r'.Within Q := by
  cases h with
  | undecided stop => exact hin
  | covered stop => exact hin
  | published stop =>
    intro t ht
    rcases mem_states_of_mem_states_add ht with ht | rfl
    · exact hin t ht
    · exact hs

theorem Treated.within (ha : a.Confined Q) (hr : r.Consistent) (hin : r.Within Q) {s : S} {p : P}
    (hs : Q s) {flow : Flow} (h : Treated a s p r flow r') : r'.Within Q := by
  cases h with
  | interrupted => exact hin
  | unadjusted adjust => exact hin
  | pruned adjust => exact hin
  | halting adjust settle => exact settle.within hin (ha.adjust hs adjust)
  | unmerged adjust merge => exact merge.within ha hr hin (ha.adjust hs adjust)
  | proceeding adjust merge settle =>
    exact settle.within (merge.within ha hr hin (ha.adjust hs adjust)) (ha.adjust hs adjust)

end Effect

theorem Analysis.Confined.keeps {a : Analysis ω S P Frontier} {Q : S → Prop} (ha : a.Confined Q) :
    a.Keeps Q fun r => r.Consistent ∧ r.Within Q where
  cover := ha.cover
  pop hr e := ⟨hr.1.of_pop e, fun t ht => hr.2 t ((Reached.mem_states_of_pop e).1 ht)⟩
  enqueue h hr := ⟨hr.1.enqueue h, fun t ht => hr.2 t (Reached.mem_states_enqueue.1 ht)⟩
  transfer hr hpair htransfer := by
    have hpublished := hr.2 _ (Reached.mem_states_iff_get?.2 ⟨_, _, hpair⟩)
    exact ha.transfer hpublished htransfer
  treat hs hr ht := ⟨ht.evolves.consistent hr.1, ht.within ha hr.1 hr.2 hs⟩

theorem Reached.Within.addAll {Q : S → Prop} {fresh : List (S × P)} (hfresh : ∀ x ∈ fresh, Q x.1)
    {r : Reached S P Frontier} (hr : r.Within Q) :
    (fresh.foldl (fun r (s, p) => (r.add s p).2) r).Within Q := by
  intro t ht
  rcases mem_states_of_mem_states_addAll ht with hbefore | ⟨x, hx, rfl⟩
  · exact hr t hbefore
  · exact hfresh x hx

/-- If the seeds are in `Q` and no operator leads out of it, nothing else is published. -/
theorem History.within {admits : (ω : Type) → Analysis ω S P Frontier → Prop}
    {origin r : Reached S P Frontier} {seeds : List (S × P)} {Q : S → Prop}
    (hadmits : ∀ ω (a : Analysis ω S P Frontier), admits ω a → a.Confined Q)
    (horigin : origin.Consistent) (hin : origin.Within Q) (hpending : ∀ x ∈ origin.seeds, Q x.1)
    (hseeds : ∀ x ∈ seeds, Q x.1) (h : History admits origin seeds r) :
    r.Within Q ∧ ∀ x ∈ r.seeds, Q x.1 := by
  induction h with
  | start => exact ⟨hin, hpending⟩
  | schedule before s p ih =>
    obtain ⟨hbefore, hlast⟩ := List.forall_mem_append.1 hseeds
    obtain ⟨hwithin, hpending⟩ := ih hbefore
    exact ⟨hwithin, List.forall_mem_append.2 ⟨hpending, hlast⟩⟩
  | @run seeds ω a limit x y result before admitted ended ih =>
    obtain ⟨hwithin, hpending⟩ := ih hseeds
    have ha := hadmits _ _ admitted
    have hdrained : x.reached.drain.Consistent ∧ x.reached.drain.Within Q :=
      ⟨(before.consistent horigin).drain, Reached.Within.addAll hpending hwithin⟩
    have hafter := Exploration.preserves_of_run ha.keeps ended hdrained
    refine ⟨hafter.2, fun z hz => ?_⟩
    rw [Exploration.seeds_of_run ha.cover ended] at hz
    cases hz

end Reachability
