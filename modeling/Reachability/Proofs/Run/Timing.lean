import Reachability.Proofs.Run.Overlay

/-! Two runs on their timers.

If two runs do the same in the same time, but one of them spends more time on merging, their
timers tell exactly that: all agree except those for merging and for the whole run, and these
two differ by the same time (`Statistics.Paced`). -/
namespace Reachability

namespace Timer

/-- What the timer shows if it is stopped now. -/
def reading (t : Timer) (now : Nat) : Nat :=
  (t.stopIfRunning now).sum

/-- Running, and not since later than now. -/
def Ticking (t : Timer) (now : Nat) : Prop :=
  ∃ began ≤ now, t.started = some began

variable {t : Timer} {now : Nat}

theorem Ticking.reading_add (h : t.Ticking now) (time : Nat) :
    t.reading (now + time) = t.reading now + time := by
  obtain ⟨began, hbegan, hstarted⟩ := h
  simp only [reading, stopIfRunning, hstarted]
  omega

theorem Ticking.later (h : t.Ticking now) (time : Nat) : t.Ticking (now + time) :=
  let ⟨began, hbegan, hstarted⟩ := h
  ⟨began, Nat.le_add_right_of_le hbegan, hstarted⟩

theorem reading_of_idle (h : t.started = none) (now : Nat) : t.reading now = t.sum := by
  rw [reading, stopIfRunning_of_idle h]

end Timer

namespace Statistics

theorem timer_set (s : Statistics) (p q : Phase) (t : Timer) :
    ({s with timers := s.timers.set p t} : Statistics).timer q = if q = p then t else s.timer q :=
  Timers.get_set ..

theorem timer_stopAll (s : Statistics) (now : Nat) (p : Phase) :
    ({s with timers := s.timers.stopAll now} : Statistics).timer p = (s.timer p).stopIfRunning now :=
  Timers.get_stopAll ..

/-- A timer that stands still can be started. -/
theorem start_of_idle {s : Statistics} {p : Phase} (h : (s.timer p).started = none) (now : Nat) :
    s.start p now =
      {s with timers := s.timers.set p {s.timer p with started := some now}} := by
  rw [start, Timer.start, h, settle]

/-- An interval on a timer that stood still. -/
theorem stop_start {s : Statistics} {p : Phase} (h : (s.timer p).started = none) (now time : Nat) :
    (s.start p now).stop p (now + time) =
      {s with timers := s.timers.set p ((s.timer p).interval time)} := by
  have hstart := start_of_idle h now
  have htimer : (s.start p now).timer p = {s.timer p with started := some now} := by
    rw [hstart, timer, Timers.get_set, if_pos rfl]
  rw [stop, htimer, hstart]
  simp only [Timer.stop, Timer.stopIfRunning, settle, Timer.interval, Nat.add_sub_cancel_left]
  cases p <;> rfl

/-- Of two runs that do the same in the same time except for merging, the one is now at `now` and
the other at `now'`. -/
structure Paced (s : Statistics) (now : Nat) (s' : Statistics) (now' : Nat) : Prop where
  idle : ∀ p, p ≠ .total → (s.timer p).started = none ∧ (s'.timer p).started = none
  timers : ∀ p, p ≠ .total → p ≠ .merge → s'.timer p = s.timer p
  misuse : s'.misuse = s.misuse
  intervals : (s'.timer .total).intervals = (s.timer .total).intervals
  total : (s'.timer .total).reading now' + (s.timer .merge).sum =
    (s.timer .total).reading now + (s'.timer .merge).sum

/-- The same while both runs are under way. -/
structure Pacing (s : Statistics) (now : Nat) (s' : Statistics) (now' : Nat) : Prop where
  paced : Paced s now s' now'
  ticking : (s.timer .total).Ticking now
  ticking' : (s'.timer .total).Ticking now'

namespace Pacing
variable {s s' : Statistics} {now now' : Nat}

/-- At first the timers agree and stand still. -/
theorem start (hidle : ∀ p, (s.timer p).started = none) (now now' : Nat) :
    Pacing (s.start .total now) now (s.start .total now') now' := by
  have hstart := start_of_idle (hidle .total)
  have hother : ∀ now p, p ≠ .total → (s.start .total now).timer p = s.timer p := fun now p hp => by
    rw [hstart, timer_set, if_neg hp]
  have htotal : ∀ now, (s.start .total now).timer .total = {s.timer .total with started := some now} :=
    fun now => by rw [hstart, timer_set, if_pos rfl]
  have hticking : ∀ now, ((s.start .total now).timer .total).Ticking now := fun now =>
    ⟨now, Nat.le_refl now, by rw [htotal]⟩
  refine ⟨⟨fun p hp => ?_, fun p hp _ => ?_, ?_, ?_, ?_⟩, hticking now, hticking now'⟩
  · rw [hother _ p hp, hother _ p hp]
    exact ⟨hidle p, hidle p⟩
  · rw [hother _ p hp, hother _ p hp]
  · rw [hstart, hstart]
  · rw [htotal, htotal]
  · have hreading : ∀ now, ((s.start .total now).timer .total).reading now = (s.timer .total).sum :=
      fun now => by
        rw [htotal]
        simp [Timer.reading, Timer.stopIfRunning]
    rw [hreading, hreading, hother _ .merge (by decide), hother _ .merge (by decide)]

/-- Both do the same in the same time. -/
theorem timed (h : Pacing s now s' now') {p : Phase} (htotal : p ≠ .total) (hmerge : p ≠ .merge)
    (time : Nat) :
    Pacing ((s.start p now).stop p (now + time)) (now + time)
      ((s'.start p now').stop p (now' + time)) (now' + time) := by
  obtain ⟨⟨hidle, htimers, hmisuse, hintervals, htotals⟩, hticking, hticking'⟩ := h
  rw [stop_start (hidle p htotal).1, stop_start (hidle p htotal).2, htimers p htotal hmerge]
  refine ⟨⟨fun q hq => ?_, fun q hq hq' => ?_, hmisuse, ?_, ?_⟩, ?_, ?_⟩
  · rw [timer_set, timer_set]
    split
    · exact ⟨rfl, rfl⟩
    · exact hidle q hq
  · rw [timer_set, timer_set, htimers q hq hq']
  · rw [timer_set, timer_set, if_neg htotal.symm, if_neg htotal.symm]
    exact hintervals
  · rw [timer_set, timer_set, timer_set, timer_set, if_neg htotal.symm, if_neg htotal.symm,
      if_neg hmerge.symm, if_neg hmerge.symm, hticking.reading_add, hticking'.reading_add]
    omega
  · rw [timer_set, if_neg htotal.symm]
    exact hticking.later time
  · rw [timer_set, if_neg htotal.symm]
    exact hticking'.later time

/-- One of them spends time on merging. -/
theorem merged (h : Pacing s now s' now') (time : Nat) :
    Pacing s now ((s'.start .merge now').stop .merge (now' + time)) (now' + time) := by
  obtain ⟨⟨hidle, htimers, hmisuse, hintervals, htotals⟩, hticking, hticking'⟩ := h
  rw [stop_start (hidle .merge (by decide)).2]
  refine ⟨⟨fun q hq => ⟨(hidle q hq).1, ?_⟩, fun q hq hq' => ?_, hmisuse, ?_, ?_⟩, hticking, ?_⟩
  · rw [timer_set]
    split
    · rfl
    · exact (hidle q hq).2
  · rw [timer_set, if_neg hq', htimers q hq hq']
  · rw [timer_set, if_neg (by decide)]
    exact hintervals
  · rw [timer_set, timer_set, if_neg (by decide), if_pos rfl, hticking'.reading_add]
    simp only [Timer.interval]
    omega
  · rw [timer_set, if_neg (by decide)]
    exact hticking'.later time

theorem tally {f : Statistics → Statistics} (hf : Counting f) (h : Pacing s now s' now') :
    Pacing (f s) now (f s') now' := by
  obtain ⟨⟨hidle, htimers, hmisuse, hintervals, htotals⟩, hticking, hticking'⟩ := h
  rw [hf s, hf s']
  exact ⟨⟨hidle, htimers, hmisuse, hintervals, htotals⟩, hticking, hticking'⟩

/-- At last all timers are stopped. -/
theorem stopAll (h : Pacing s now s' now') :
    Paced {s with timers := s.timers.stopAll now} now
      {s' with timers := s'.timers.stopAll now'} now' := by
  obtain ⟨⟨hidle, htimers, hmisuse, hintervals, htotals⟩, ⟨began, -, hbegan⟩, began', -, hbegan'⟩ := h
  obtain ⟨hmerge, hmerge'⟩ := hidle .merge (by decide)
  refine ⟨fun p _ => ?_, fun p hp hp' => ?_, hmisuse, ?_, ?_⟩
  · rw [timer_stopAll, timer_stopAll]
    exact ⟨Timer.started_stopIfRunning _ _, Timer.started_stopIfRunning _ _⟩
  · rw [timer_stopAll, timer_stopAll, Timer.stopIfRunning_of_idle (hidle p hp).1,
      Timer.stopIfRunning_of_idle (hidle p hp).2, htimers p hp hp']
  · rw [timer_stopAll, timer_stopAll, Timer.stopIfRunning_of_running hbegan,
      Timer.stopIfRunning_of_running hbegan']
    exact congrArg (· + 1) hintervals
  · rw [timer_stopAll, timer_stopAll, timer_stopAll, timer_stopAll,
      Timer.stopIfRunning_of_idle hmerge, Timer.stopIfRunning_of_idle hmerge',
      Timer.reading_of_idle (Timer.started_stopIfRunning _ _),
      Timer.reading_of_idle (Timer.started_stopIfRunning _ _)]
    exact htotals

end Pacing
end Statistics
end Reachability
