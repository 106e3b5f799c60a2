import Reachability.Counter.Report
import Reachability.Proofs.Coverage.Expansion
import Reachability.Proofs.Operator

/-! The counting demonstration is an analysis of the lawful kind.

Intervals at one location are ordered by inclusion, and the join is the least interval
above both. The operators of the demonstration lose no state, whether states are merged
or not and whether the error location halts the run. Without an error value the larger
interval has the larger successors; with one, an empty interval may be split where the
interval around it is not. -/
namespace Reachability.Counter

namespace Interval

theorem below_iff {s t : Interval} :
    domain.Below s t ↔ s.loc = t.loc ∧ t.lo ≤ s.lo ∧ s.hi ≤ t.hi := by
  simp [Comparison.Below, domain, Domain.ofFunctions, le, and_assoc]

theorem below_refl (s : Interval) : domain.Below s s :=
  below_iff.2 ⟨rfl, Int64.le_refl _, Int64.le_refl _⟩

theorem below_trans {s t u : Interval} (hst : domain.Below s t) (htu : domain.Below t u) :
    domain.Below s u := by
  obtain ⟨hl, hlo, hhi⟩ := below_iff.1 hst
  obtain ⟨hl', hlo', hhi'⟩ := below_iff.1 htu
  exact below_iff.2 ⟨hl.trans hl', Int64.le_trans hlo' hlo, Int64.le_trans hhi hhi'⟩

theorem subsumption : Subsumption domain.Below :=
  ⟨below_refl, below_trans, fun h => eq_of_beq h ▸ below_refl _⟩

theorem left_le_max (a b : Int64) : a ≤ max a b := by
  show a ≤ if a ≤ b then b else a
  grind

theorem right_le_max (a b : Int64) : b ≤ max a b := by
  show b ≤ if a ≤ b then b else a
  grind

theorem max_le {a b c : Int64} (ha : a ≤ c) (hb : b ≤ c) : max a b ≤ c := by
  show (if a ≤ b then b else a) ≤ c
  grind

theorem below_join_left (s t : Interval) : domain.Below s (domain.join s t).run :=
  below_iff.2 ⟨rfl, Std.min_le_left, left_le_max ..⟩

theorem below_join_right {s t : Interval} (h : s.loc = t.loc) :
    domain.Below t (domain.join s t).run :=
  below_iff.2 ⟨h.symm, Std.min_le_right, right_le_max ..⟩

theorem join_below {s t u : Interval} (hs : domain.Below s u) (ht : domain.Below t u) :
    domain.Below (domain.join s t).run u := by
  obtain ⟨hl, hlo, hhi⟩ := below_iff.1 hs
  obtain ⟨-, hlo', hhi'⟩ := below_iff.1 ht
  exact below_iff.2 ⟨hl, Std.le_min_iff.2 ⟨hlo, hlo'⟩, max_le hhi hhi'⟩

end Interval

namespace Program
open Counter.Interval

/-- Counting up is monotone as long as nothing is split off. -/
theorem countUp_below {prog : Program} {s t : Interval} (hst : domain.Below s t)
    (hbelow : s.lo < prog.bound) :
    domain.Below ⟨.loop, s.lo + 1, min s.hi (prog.bound - 1) + 1⟩
      ⟨.loop, t.lo + 1, min t.hi (prog.bound - 1) + 1⟩ := by
  obtain ⟨-, hlo, hhi⟩ := below_iff.1 hst
  have hmin : min s.hi (prog.bound - 1) ≤ min t.hi (prog.bound - 1) :=
    Std.le_min_iff.2 ⟨Int64.le_trans Std.min_le_left hhi, Std.min_le_right⟩
  have hcap : min t.hi (prog.bound - 1) ≤ prog.bound - 1 := Std.min_le_right
  exact below_iff.2 ⟨rfl, by grind, by grind⟩

theorem successors_mono {prog : Program} (hnone : prog.error = none) {s t : Interval}
    (hst : domain.Below s t) {x : Interval} (hx : x ∈ prog.successors s) :
    ∃ y ∈ prog.successors t, domain.Below x y := by
  obtain ⟨hloc, hlo, hhi⟩ := below_iff.1 hst
  unfold successors at hx ⊢
  rw [← hloc]
  cases hl : s.loc with
  | start =>
    rw [hl] at hx
    exact ⟨x, hx, below_refl x⟩
  | exit =>
    rw [hl] at hx
    cases hx
  | error =>
    rw [hl] at hx
    cases hx
  | loop =>
    simp only [hl, countUp, hnone, List.mem_append, List.mem_ite_nil_right, List.mem_singleton] at hx ⊢
    rcases hx with ⟨hbelow, rfl⟩ | ⟨habove, rfl⟩
    · have hbelow' : t.lo < prog.bound := by grind
      exact ⟨_, .inl ⟨hbelow', rfl⟩, countUp_below hst hbelow⟩
    · have hmax : max t.lo prog.bound ≤ max s.lo prog.bound :=
        max_le (Int64.le_trans hlo (left_le_max ..)) (right_le_max ..)
      exact ⟨_, .inr ⟨Int64.le_trans habove hhi, rfl⟩, below_iff.2 ⟨rfl, hmax, hhi⟩⟩

end Program

open Counter.Interval

/-- The successors as pairs. -/
def edges (prog : Program) (s : Interval) (p : Unit) : List (Interval × Unit) :=
  (prog.successors s).map fun t => (t, p)

variable {W : Type} (prog : Program) (join halt : Bool)

theorem analysis_computes :
    (analysis prog join halt : Analysis Unit Interval Unit W).Computes (edges prog) := by
  intro s p w l hl
  cases hl
  rfl

theorem analysis_yields :
    (analysis prog join halt : Analysis Unit Interval Unit W).Yields prog.successors := by
  intro s p w l hl
  cases hl
  have hmap : ∀ l : List Interval, (l.map fun t => (t, ())).map Prod.fst = l := fun l => by
    simp [Function.comp_def]
  rw [hmap]
  exact .refl _

theorem analysis_conservative :
    (analysis prog join halt : Analysis Unit Interval Unit W).Conservative domain.Below where
  merge := by
    intro joins s old p w new hloc hnew
    cases join with
    | false => cases joins
    | true => exact (Merge.joins_join _).below below_refl (below_join_right hloc) hnew
  stop := by
    intro s reached p w hstop
    have hresult : (Stop.separate domain.toComparison.lift s reached p w).result = .ok true := hstop
    exact (Stop.covered_iff_of_separate hresult).1 rfl
  adjust := by
    intro s p r w adjusted hadjusted
    cases halt with
    | false =>
      cases hadjusted
      exact ⟨_, rfl, below_refl s⟩
    | true =>
      obtain ⟨x, hx, hstate⟩ := Adjustment.result_haltOnTarget hadjusted
      cases hx
      obtain ⟨y, rfl, hy⟩ := Option.map_eq_some_iff.1 hstate
      exact ⟨y, rfl, hy ▸ below_refl s⟩
  cover := rfl

end Reachability.Counter
