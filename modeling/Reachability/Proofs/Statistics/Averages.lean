import Mathlib.Algebra.Order.BigOperators.Group.List
import Mathlib.Algebra.Order.Ring.Nat
import Reachability.Statistics.Operation

/-! What a timer tells of its intervals.

However a timer is used, as long as no operation is a misuse, it holds the number, the sum and the
maximum of the lengths of the intervals that were completed (`Measures`); so the largest is at
most the sum. The mean is another matter, since the sum is divided by the number of intervals in
32 bits only. There is none after a positive multiple of 2^32 intervals, and after more than 2^32
of them it can be longer than the longest. With fewer it is safe, and with fewer only
(`safe_average_iff`). -/
namespace Reachability.Timer

/-- The timer holds what there is to hold of intervals of these lengths. -/
structure Measures (t : Timer) (times : List Nat) : Prop where
  intervals : t.intervals = times.length
  sum : t.sum = times.sum
  max : t.max = times.max?.getD 0

namespace Measures
variable {t : Timer} {times : List Nat}

theorem empty : ({} : Timer).Measures [] :=
  ⟨rfl, rfl, rfl⟩

/-- When the running interval began does not matter before it is complete. -/
theorem start (h : t.Measures times) (now : Nat) :
    ({t with started := some now} : Timer).Measures times :=
  ⟨h.intervals, h.sum, h.max⟩

theorem interval (h : t.Measures times) (time : Nat) :
    (t.interval time).Measures (times ++ [time]) where
  intervals := by
    rw [List.length_append, ← h.intervals]
    rfl
  sum := by
    rw [List.sum_append_nat, List.sum_singleton, ← h.sum]
    rfl
  max := by
    show Max.max t.max time = _
    rw [h.max]
    cases times with
    | nil => exact Nat.zero_max time
    | cons first rest =>
      rw [List.cons_append, List.max?_cons', List.max?_cons', List.foldl_append]
      rfl

theorem stopIfRunning (h : t.Measures times) (now : Nat) :
    (t.stopIfRunning now).Measures (times ++ (t.started.map (now - ·)).toList) := by
  cases hbegan : t.started with
  | none =>
    rw [stopIfRunning_of_idle hbegan, Option.map_none, Option.toList_none, List.append_nil]
    exact h
  | some began =>
    rw [stopIfRunning_of_running hbegan]
    exact h.interval (now - began)

/-- An operation that is no misuse adds the interval that it completes. -/
theorem perform (h : t.Measures times) {op : Operation} (hop : op.Admitted t.started) :
    ∃ u, t.perform op = .ok u ∧ u.started = op.running ∧
      u.Measures (times ++ op.completes t.started) := by
  cases op with
  | start now =>
    refine ⟨{t with started := some now}, ?_, rfl, ?_⟩
    · rw [Timer.perform, Timer.start, show t.started = none from hop]
    · rw [Operation.completes, List.append_nil]
      exact h.start now
  | stop now =>
    obtain ⟨began, hbegan⟩ := Option.ne_none_iff_exists'.1 hop
    refine ⟨t.stopIfRunning now, ?_, started_stopIfRunning t now, h.stopIfRunning now⟩
    rw [Timer.perform, Timer.stop, hbegan]
  | stopIfRunning now =>
    exact ⟨t.stopIfRunning now, rfl, started_stopIfRunning t now, h.stopIfRunning now⟩
  | time before after =>
    exact ⟨t.interval (after - before), time_of_not_running hop before after, rfl,
      h.interval (after - before)⟩

theorem performAll {ops : List Operation} (h : t.Measures times)
    (hlawful : Lawful t.started ops) :
    ∃ u, t.performAll ops = .ok u ∧ u.Measures (times ++ lengths t.started ops) := by
  induction ops generalizing t times with
  | nil =>
    rw [lengths, List.append_nil]
    exact ⟨t, rfl, h⟩
  | cons op rest ih =>
    obtain ⟨hop, hrest⟩ := hlawful
    obtain ⟨u, hperform, hstarted, hu⟩ := h.perform hop
    rw [performAll_cons_of_ok hperform, lengths, ← List.append_assoc, ← hstarted]
    exact ih hu (by rwa [hstarted])

/-- The longest interval is one of those that were added up. -/
theorem max_le_sum (h : t.Measures times) : t.max ≤ t.sum := by
  rw [h.max, h.sum]
  cases hmax : times.max? with
  | none => exact Nat.zero_le _
  | some longest => exact List.le_sum_of_mem (List.max?_mem hmax)

theorem sum_div_intervals_le_max (h : t.Measures times) : t.sum / t.intervals ≤ t.max := by
  rw [h.sum, h.intervals, h.max]
  cases hmax : times.max? with
  | none =>
    rw [List.max?_eq_none_iff.1 hmax]
    exact Nat.le_refl 0
  | some longest => exact List.sum_div_length_le_max_of_max?_eq_some_nat hmax

end Measures

/-- A new timer, however it is used. -/
theorem measures_performAll {ops : List Operation} (hlawful : Lawful none ops) :
    ∃ t, ({} : Timer).performAll ops = .ok t ∧ t.Measures (lengths none ops) :=
  Measures.empty.performAll hlawful

/-! ### The mean -/

theorem average?_eq_none_iff {t : Timer} :
    t.average? = none ↔ t.intervals ≠ 0 ∧ UInt32.size ∣ t.intervals := by
  rw [average?, Nat.dvd_iff_mod_eq_zero]
  by_cases hzero : t.intervals = 0
  · simp [hzero]
  · by_cases hmod : t.intervals % UInt32.size = 0
    · simp [hzero, hmod]
    · simp [hzero, hmod]

theorem average?_of_lt {t : Timer} (h : t.intervals < UInt32.size) :
    t.average? = some (t.sum / t.intervals) := by
  rw [average?]
  split
  · rename_i hzero
    rw [hzero, Nat.div_zero]
  · rename_i hpos
    simp only [Nat.mod_eq_of_lt h, if_neg hpos]

theorem average?_of_not_dvd {t : Timer} (h : ¬ UInt32.size ∣ t.intervals) :
    t.average? = some (t.sum / (t.intervals % UInt32.size)) := by
  have hpos : t.intervals ≠ 0 := fun hzero => h (hzero ▸ Nat.dvd_zero _)
  rw [Nat.dvd_iff_mod_eq_zero] at h
  rw [average?, if_neg hpos]
  exact if_neg h

/-- Of a number that does not fit into 32 bits at most half is left there, so that equal lengths
seem longer than they are. -/
theorem lt_mul_div_mod {n time : Nat} (hn : UInt32.size ≤ n) (hmod : 0 < n % UInt32.size)
    (htime : 0 < time) : time < n * time / (n % UInt32.size) := by
  have hlt : n % UInt32.size < UInt32.size := Nat.mod_lt n (by decide)
  have hdiv : 1 ≤ n / UInt32.size := (Nat.le_div_iff_mul_le (by decide)).2 (by omega)
  have hsplit := Nat.div_add_mod n UInt32.size
  have htwice : 2 * (n % UInt32.size) ≤ n := by
    have := Nat.mul_le_mul_left UInt32.size hdiv
    omega
  refine (Nat.le_div_iff_mul_le hmod).2 ?_
  calc (time + 1) * (n % UInt32.size)
      ≤ (time + time) * (n % UInt32.size) := Nat.mul_le_mul_right _ (by omega)
    _ = 2 * (n % UInt32.size) * time := by rw [← Nat.two_mul, Nat.mul_right_comm]
    _ ≤ n * time := Nat.mul_le_mul_right time htwice

/-- From 2^32 intervals on, equally long ones have no mean, or one that is longer than they are. -/
theorem Measures.max_lt_average {t : Timer} {n time mean : Nat}
    (h : t.Measures (List.replicate n time)) (hn : UInt32.size ≤ n) (htime : 0 < time)
    (hmean : t.average? = some mean) : t.max < mean := by
  have hintervals : t.intervals = n := by rw [h.intervals, List.length_replicate]
  have hpos : 0 < n := Nat.lt_of_lt_of_le (by decide) hn
  have hdvd : ¬ UInt32.size ∣ t.intervals := fun hdvd => by
    rw [average?_eq_none_iff.2 ⟨hintervals ▸ Nat.ne_of_gt hpos, hdvd⟩] at hmean
    cases hmean
  rw [average?_of_not_dvd hdvd, hintervals, h.sum, List.sum_replicate_nat] at hmean
  rw [h.max, List.max?_replicate_of_pos hpos, Option.getD_some, ← Option.some.inj hmean]
  rw [hintervals, Nat.dvd_iff_mod_eq_zero] at hdvd
  exact lt_mul_div_mod hn (Nat.pos_of_ne_zero hdvd) htime

/-- For what numbers of intervals the mean is there and lies below the longest, whatever their
lengths. -/
theorem safe_average_iff (n : Nat) :
    (∀ ops, Lawful none ops → (lengths none ops).length = n →
      ∃ t mean, ({} : Timer).performAll ops = .ok t ∧ t.average? = some mean ∧ mean ≤ t.max) ↔
      n < UInt32.size := by
  constructor
  · intro hsafe
    by_contra hn
    have hlawful := lawful_laps (List.replicate n 1)
    obtain ⟨t, hperform, ht⟩ := measures_performAll hlawful
    rw [lengths_laps] at ht
    obtain ⟨u, mean, hu, hmean, hle⟩ := hsafe _ hlawful (by
      rw [lengths_laps, List.length_replicate])
    obtain rfl : t = u := Except.ok.inj (hperform.symm.trans hu)
    exact absurd (ht.max_lt_average (Nat.le_of_not_lt hn) Nat.one_pos hmean) (Nat.not_lt.2 hle)
  · intro hn ops hlawful hlength
    obtain ⟨t, hperform, ht⟩ := measures_performAll hlawful
    have hfits : t.intervals < UInt32.size := by rwa [ht.intervals, hlength]
    exact ⟨t, _, hperform, average?_of_lt hfits, ht.sum_div_intervals_le_max⟩

/-- What a timer tells of intervals of these lengths. -/
structure Tells (t : Timer) (times : List Nat) : Prop where
  measures : t.Measures times
  max_le_sum : t.max ≤ t.sum
  /-- The number of intervals is zero in 32 bits, but not zero. -/
  no_average : t.average? = none ↔ times ≠ [] ∧ UInt32.size ∣ times.length
  average : times.length < UInt32.size →
    t.average? = some (t.sum / t.intervals) ∧ t.sum / t.intervals ≤ t.max

/-- **Whatever is done to a new timer**, as long as no operation is a misuse, it tells the number,
the sum and the maximum of the intervals that were completed, and with fewer than 2^32 of them the
mean, which is at most the maximum. -/
theorem tells_performAll {ops : List Operation} (hlawful : Lawful none ops) :
    ∃ t, ({} : Timer).performAll ops = .ok t ∧ t.Tells (lengths none ops) := by
  obtain ⟨t, hperform, ht⟩ := measures_performAll hlawful
  refine ⟨t, hperform, ht, ht.max_le_sum, ?_, fun hfits => ?_⟩
  · rw [average?_eq_none_iff, ht.intervals, Ne, List.length_eq_zero_iff]
  · exact ⟨average?_of_lt (ht.intervals ▸ hfits), ht.sum_div_intervals_le_max⟩

/-- Intervals completed in each of the ways there are, and one that is still running. -/
def outing : List Operation :=
  [.time 3 8, .start 10, .stop 12, .stopIfRunning 13, .start 20, .stopIfRunning 29, .start 30]

theorem outing_told :
    Lawful none outing ∧ lengths none outing = [5, 2, 9] ∧
      (∃ t, ({} : Timer).performAll outing = .ok t ∧ t.Tells (lengths none outing)) ∧
      ({} : Timer).performAll outing =
        .ok { started := some 30, sum := 16, max := 9, intervals := 3 } :=
  ⟨by decide, by decide, tells_performAll (by decide), rfl⟩

/-- 2^32 intervals of one nanosecond: no use of the timer is wrong, but the mean divides by zero. -/
theorem laps_without_average :
    Lawful none (laps (List.replicate UInt32.size 1)) ∧
      ∃ t, ({} : Timer).performAll (laps (List.replicate UInt32.size 1)) = .ok t ∧
        t.intervals = UInt32.size ∧ t.average? = none := by
  have hlawful := lawful_laps (List.replicate UInt32.size 1)
  obtain ⟨t, hperform, ht⟩ := measures_performAll hlawful
  have hintervals : t.intervals = UInt32.size := by
    rw [ht.intervals, lengths_laps, List.length_replicate]
  refine ⟨hlawful, t, hperform, hintervals, average?_eq_none_iff.2 ⟨?_, ?_⟩⟩
  · rw [hintervals]
    decide
  · rw [hintervals]

end Reachability.Timer
