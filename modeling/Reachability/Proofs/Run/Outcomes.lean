import Reachability.Proofs.Run.Balance
import Reachability.Proofs.Run.Transcript

/-! What dealing with successors counts and times.

Each call of an operator is one interval of the timer for it, which stood still before and stands
still again, even if the operator gave up. Of a successor the stop operator is asked once at most,
and one outcome is counted for it at most (`Handled`); nothing that is counted elsewhere changes
meanwhile, nor the failures of forced covering in the transcript. -/
namespace Reachability

open Exploration

variable {ω S P W α : Type} [AbstractState S]

/-- Forced covering gave up. -/
def Exchange.coverFails : Exchange S P W → Bool
  | .cover _ _ _ (.error _) => true
  | _ => false

namespace Exploration

/-- How often forced covering gave up, by the transcript. -/
def failures (x : Exploration (WithTranscript ω S P W) S P W) : Nat :=
  x.transcript.countP Exchange.coverFails

/-- Some successors were dealt with: so many calls of the stop operator at most were timed, and so
many outcomes were counted. -/
structure Handled (checks outcomes : Nat) (x y : Exploration (WithTranscript ω S P W) S P W) :
    Prop where
  ready : y.statistics.Ready
  standing : y.statistics.standing = x.statistics.standing
  failures : y.failures = x.failures
  checks : y.statistics.intervals .stop ≤ x.statistics.intervals .stop + checks
  coveredHalts : y.statistics.coveredHalts + x.statistics.stops ≤
    x.statistics.coveredHalts + y.statistics.stops
  outcomes : y.statistics.stops + y.statistics.halts ≤
    x.statistics.stops + x.statistics.halts + outcomes

variable {x y z : Exploration (WithTranscript ω S P W) S P W}

namespace Handled

theorem mono {i j k l : Nat} (h : Handled i j x y) (hchecks : i ≤ k) (houtcomes : j ≤ l) :
    Handled k l x y :=
  ⟨h.ready, h.standing, h.failures, Nat.le_trans h.checks (Nat.add_le_add_left hchecks _),
    h.coveredHalts, Nat.le_trans h.outcomes (Nat.add_le_add_left houtcomes _)⟩

theorem trans {i j k l : Nat} (hxy : Handled i j x y) (hyz : Handled k l y z) :
    Handled (i + k) (j + l) x z := by
  have hchecks := hxy.checks
  have hchecks' := hyz.checks
  have hcovered := hxy.coveredHalts
  have hcovered' := hyz.coveredHalts
  have houtcomes := hxy.outcomes
  have houtcomes' := hyz.outcomes
  exact ⟨hyz.ready, hyz.standing.trans hxy.standing, hyz.failures.trans hxy.failures, by omega,
    by omega, by omega⟩

/-- Nothing is counted or timed. -/
theorem silent (hx : x.statistics.Ready) (hstatistics : y.statistics = x.statistics)
    (hfailures : y.failures = x.failures) : Handled 0 0 x y := by
  refine ⟨by rwa [hstatistics], by rw [hstatistics], hfailures, ?_, ?_, ?_⟩ <;> rw [hstatistics] <;>
    omega

theorem note (hx : x.statistics.Ready) (e : Event S P) : Handled 0 0 x (x.note e) :=
  .silent hx rfl rfl

/-- An interval is timed, during which some candidates may be merged. -/
theorem measured (p : Phase) (time merges : Nat) (hx : x.statistics.Ready) (htotal : p ≠ .total)
    (htransfer : p ≠ .transfer) (hcover : p ≠ .cover)
    (hstatistics : y.statistics = {x.statistics.measure p time with merges})
    (hfailures : y.failures = x.failures) : Handled (if .stop = p then 1 else 0) 0 x y := by
  have hready := hx.measure htotal time
  have hstanding := Statistics.standing_measure htotal htransfer hcover x.statistics time
  have hchecks := congrFun (Statistics.intervals_measure x.statistics p time) .stop
  refine ⟨?_, ?_, hfailures, ?_, ?_, ?_⟩ <;> rw [hstatistics]
  · exact ⟨hready.misuse, hready.idle, hready.running⟩
  · exact hstanding
  · exact Nat.le_of_eq hchecks
  · exact Nat.le_refl _
  · exact Nat.le_refl _

/-- An outcome is counted. -/
theorem counted (hx : x.statistics.Ready) {f : Statistics → Statistics}
    (hready : ∀ s, (f s).misuse = s.misuse ∧ (f s).timers = s.timers)
    (hstanding : ∀ s, (f s).standing = s.standing)
    (hcovered : ∀ s, (f s).coveredHalts + s.stops ≤ s.coveredHalts + (f s).stops)
    (houtcomes : ∀ s, (f s).stops + (f s).halts ≤ s.stops + s.halts + 1) :
    Handled 0 1 x (x.tally f) := by
  have hchecks : (f x.statistics).intervals .stop = x.statistics.intervals .stop := by
    rw [Statistics.intervals, Statistics.timer, (hready _).2]
    rfl
  exact ⟨hx.congr (hready _).1 (hready _).2, hstanding _, rfl, Nat.le_of_eq hchecks, hcovered _,
    houtcomes _⟩

end Handled

/-! ### Successors -/

/-- What is done as one interval of a timer that stands still, without counting anything. -/
theorem statistics_timed {x : Exploration ω S P W} {p : Phase} {time : Nat}
    (act : Exploration ω S P W → α × Exploration ω S P W)
    (hidle : (x.statistics.timer p).started = none)
    (hstatistics : (act (x.start p)).2.statistics = (x.start p).statistics)
    (hclock : (act (x.start p)).2.clock = x.clock + time) :
    (x.timed p act).2.statistics = x.statistics.measure p time := by
  show (act (x.start p)).2.statistics.stop p (act (x.start p)).2.clock = _
  rw [hstatistics, hclock]
  exact Statistics.stop_start hidle x.clock time

theorem statistics_timed_ask {x : Exploration ω S P W} {p : Phase}
    (question : Exploration ω S P W → Ask ω α) (hidle : (x.statistics.timer p).started = none) :
    ∃ time, (x.timed p fun x => x.ask (question x)).2.statistics = x.statistics.measure p time :=
  ⟨_, statistics_timed _ hidle (absorb_statistics _ _).1 (absorb_statistics _ _).2⟩

theorem failures_of_transcript {e : Exchange S P W} (h : y.transcript = x.transcript ++ [e]) :
    y.failures = x.failures + if e.coverFails then 1 else 0 := by
  rw [failures, h, List.countP_append, List.countP_singleton]
  rfl

variable (a : Analysis ω S P W)

theorem handled_isCovered (s : S) (p : P) (hx : x.statistics.Ready) :
    Handled 1 0 x (isCovered a.transcribed s p x).2 := by
  obtain ⟨time, hstatistics⟩ := statistics_timed_ask
    (fun x => a.transcribed.stop s (x.reached.statesAt s) p) (hx.idle .stop (by decide))
  exact .measured .stop time x.statistics.merges hx (by decide) (by decide) (by decide) hstatistics
    (failures_of_transcript (transcript_isCovered a s p x))

theorem handled_askAdjust (source s : S) (p : P) (hx : x.statistics.Ready) :
    Handled 0 0 x (askAdjust a.transcribed source s p x).2 := by
  obtain ⟨time, hstatistics⟩ := statistics_timed_ask (x := x.note (.successor source s))
    (fun x => a.transcribed.adjust s p x.reached) (hx.idle .adjust (by decide))
  exact .measured .adjust time x.statistics.merges hx (by decide) (by decide) (by decide) hstatistics
    (failures_of_transcript (transcript_askAdjust a source s p x))

variable [Waitlist W] [BEq S] [BEq P]

theorem handled_publish (s : S) (p : P) (hx : x.statistics.Ready) :
    Handled 0 0 x (x.publish s p) := by
  have hstatistics : (x.publish s p).statistics = x.statistics.measure .add 0 :=
    statistics_timed (fun x => ((), x.apply (.add s p))) (hx.idle .add (by decide)) rfl rfl
  exact .measured .add 0 x.statistics.merges hx (by decide) (by decide) (by decide) hstatistics rfl

theorem handled_settle (s : S) (p : P) (hx : x.statistics.Ready) :
    Handled 1 1 x (settle a.transcribed s p x).2 := by
  have hasked := handled_isCovered a s p hx
  unfold settle
  generalize isCovered a.transcribed s p x = asked at hasked ⊢
  obtain ⟨answer, y⟩ := asked
  match answer with
  | .error e => exact hasked.mono (Nat.le_refl 1) (Nat.zero_le 1)
  | .ok true =>
    dsimp only
    have hnoted := hasked.trans (.note hasked.ready .covered)
    refine hnoted.trans (.counted hnoted.ready ?_ ?_ ?_ ?_) <;> intro s
    · exact ⟨rfl, rfl⟩
    · rfl
    · exact Nat.add_le_add_left (Nat.le_succ _) _
    · exact Nat.le_of_eq (Nat.add_right_comm ..)
  | .ok false =>
    have hnoted := hasked.trans (.note hasked.ready .uncovered)
    exact (hnoted.trans (handled_publish s p hnoted.ready)).mono (Nat.le_refl 1) (Nat.zero_le 1)

theorem handled_settleHalt (s : S) (p : P) (hx : x.statistics.Ready) :
    Handled 1 1 x (settleHalt a.transcribed s p x).2 := by
  have hasked := handled_isCovered a s p hx
  unfold settleHalt
  generalize isCovered a.transcribed s p x = asked at hasked ⊢
  obtain ⟨answer, y⟩ := asked
  match answer with
  | .error e => exact hasked.mono (Nat.le_refl 1) (Nat.zero_le 1)
  | .ok true =>
    dsimp only
    have hcounted : Handled 0 1 y (y.tally fun s =>
        {s with stops := s.stops + 1, coveredHalts := s.coveredHalts + 1}) := by
      refine .counted hasked.ready ?_ ?_ ?_ ?_ <;> intro s
      · exact ⟨rfl, rfl⟩
      · rfl
      · exact Nat.le_of_eq (by simp only; omega)
      · exact Nat.le_of_eq (Nat.add_right_comm ..)
    exact (hasked.trans hcounted).trans (.note hcounted.ready .haltIgnored)
  | .ok false =>
    have hcounted : Handled 0 1 y (y.tally fun s => {s with halts := s.halts + 1}) := by
      refine .counted hasked.ready ?_ ?_ ?_ ?_ <;> intro s
      · exact ⟨rfl, rfl⟩
      · rfl
      · exact Nat.le_refl _
      · exact Nat.le_refl _
    have hnoted := (hasked.trans hcounted).trans (.note hcounted.ready .halting)
    exact hnoted.trans (handled_publish s p hnoted.ready)

omit [Waitlist W] [BEq P] in
/-- A scan takes time, and counts nothing. -/
theorem exists_time_scan (s : S) (p : P) (candidates : List Handle)
    (x : Exploration (WithTranscript ω S P W) S P W) :
    ∃ time, (scan a.transcribed s p candidates x).after.statistics = x.statistics ∧
      (scan a.transcribed s p candidates x).after.clock = x.clock + time ∧
      (scan a.transcribed s p candidates x).after.failures = x.failures := by
  induction candidates generalizing x with
  | nil => exact ⟨0, rfl, rfl, rfl⟩
  | cons h rest ih =>
    unfold scan
    split
    · exact ⟨0, rfl, rfl, rfl⟩
    · cases x.reached.state? h with
      | none => exact ih x
      | some old =>
        obtain ⟨hstatistics, hclock⟩ := absorb_statistics x (a.transcribed.merge.merge s old p x.memory)
        have hfailures : (x.absorb (a.transcribed.merge.merge s old p x.memory)).failures =
            x.failures := failures_of_transcript
          (e := .merge s old p (a.merge.merge s old p x.memory.1).result) (transcript_absorb x _)
        simp only [ask]
        generalize a.transcribed.merge.merge s old p x.memory = reply
          at hstatistics hclock hfailures ⊢
        generalize x.absorb reply = y at hstatistics hclock hfailures ⊢
        have hrest : ∀ {z : Exploration (WithTranscript ω S P W) S P W}, z.statistics = y.statistics →
            z.clock = y.clock → z.failures = y.failures →
            ∃ time, (scan a.transcribed s p rest z).after.statistics = x.statistics ∧
              (scan a.transcribed s p rest z).after.clock = x.clock + time ∧
              (scan a.transcribed s p rest z).after.failures = x.failures :=
          fun {z} hz hzclock hzfailures => by
            obtain ⟨time, hsame, htime, hnone⟩ := ih z
            exact ⟨reply.elapsed + time, hsame.trans (hz.trans hstatistics),
              by rw [htime, hzclock, hclock, Nat.add_assoc], hnone.trans (hzfailures.trans hfailures)⟩
        cases reply.result with
        | error e => exact ⟨reply.elapsed, hstatistics, hclock, hfailures⟩
        | ok new =>
          simp only
          split
          · exact hrest rfl rfl rfl
          · exact hrest rfl rfl rfl

theorem handled_mergeInto (s : S) (p : P) (hx : x.statistics.Ready) :
    Handled 0 0 x (mergeInto a.transcribed s p x).2 := by
  unfold mergeInto
  simp only
  split
  · exact .silent hx rfl rfl
  · generalize x.reached.handlesAt s = candidates
    obtain ⟨time, hsame, hclock, hfailures⟩ := exists_time_scan a s p candidates
      ((x.note (.considering candidates.length)).start .merge)
    generalize scan a.transcribed s p candidates _ = scanned at hsame hclock hfailures ⊢
    have hreplaced : ∃ merges, (replace p scanned.changed scanned.after).statistics =
        {scanned.after.statistics with merges} := by
      unfold replace
      split
      · exact ⟨scanned.after.statistics.merges, rfl⟩
      · exact ⟨_, rfl⟩
    have hkept : (replace p scanned.changed scanned.after).clock = scanned.after.clock ∧
        (replace p scanned.changed scanned.after).failures = scanned.after.failures := by
      unfold replace
      split <;> exact ⟨rfl, rfl⟩
    obtain ⟨merges, hmerges⟩ := hreplaced
    refine .measured .merge time merges hx (by decide) (by decide) (by decide) ?_
      (hkept.2.trans hfailures)
    have hinterval := Statistics.stop_start (hx.idle .merge (by decide)) x.clock time
    show (replace p scanned.changed scanned.after).statistics.stop .merge
      (replace p scanned.changed scanned.after).clock = _
    rw [hmerges, hkept.1, hclock, Statistics.stop_merges, hsame, Statistics.measure, ← hinterval]
    rfl

theorem handled_mergeAndSettle (s : S) (p : P) (hx : x.statistics.Ready) :
    Handled 1 1 x (mergeAndSettle a.transcribed s p x).2 := by
  have hmerged := handled_mergeInto a s p hx
  unfold mergeAndSettle
  split
  · exact handled_settle a s p hx
  · generalize mergeInto a.transcribed s p x = merged at hmerged ⊢
    obtain ⟨abort, y⟩ := merged
    cases abort with
    | some e => exact hmerged.mono (Nat.zero_le 1) (Nat.zero_le 1)
    | none => exact hmerged.trans (handled_settle a s p hmerged.ready)

theorem handled_handleSuccessor (source s : S) (p : P) (hx : x.statistics.Ready) :
    Handled 1 1 x (handleSuccessor a.transcribed source s p x).2 := by
  have hasked := handled_askAdjust a source s p hx
  rw [handleSuccessor_eq]
  split
  · exact (Handled.silent hx rfl rfl).mono (Nat.zero_le 1) (Nat.zero_le 1)
  · generalize askAdjust a.transcribed source s p x = asked at hasked ⊢
    obtain ⟨answer, y⟩ := asked
    match answer with
    | .error e => exact hasked.mono (Nat.zero_le 1) (Nat.zero_le 1)
    | .ok none =>
      dsimp only
      exact (hasked.trans (.note hasked.ready .pruned)).mono (Nat.zero_le 1) (Nat.zero_le 1)
    | .ok (some ⟨t, q, .halt⟩) => exact hasked.trans (handled_settleHalt a t q hasked.ready)
    | .ok (some ⟨t, q, .proceed⟩) => exact hasked.trans (handled_mergeAndSettle a t q hasked.ready)

/-- Each successor is checked once at most, and has one outcome at most. -/
theorem handled_handleSuccessors (h : Handle) (source : S) (successors : List (S × P))
    (hx : x.statistics.Ready) : Handled successors.length successors.length x
      (handleSuccessors a.transcribed h source successors x).2 := by
  induction successors generalizing x with
  | nil => exact .silent hx rfl rfl
  | cons pair rest ih =>
    have hfirst := handled_handleSuccessor a source pair.1 pair.2 hx
    have hone : 1 ≤ (pair :: rest).length := Nat.succ_le_succ (Nat.zero_le _)
    unfold handleSuccessors
    generalize handleSuccessor a.transcribed source pair.1 pair.2 x = handled at hfirst ⊢
    obtain ⟨flow, y⟩ := handled
    cases flow with
    | onward =>
      have hall := hfirst.trans (ih hfirst.ready)
      rwa [Nat.add_comm] at hall
    | halt =>
      cases rest with
      | nil => exact hfirst
      | cons next others =>
        have hagain : Handled 0 0 y (y.apply (.enqueue h)) := .silent hfirst.ready rfl rfl
        exact (hfirst.trans hagain).mono hone hone
    | abort e => exact hfirst.mono hone hone

end Exploration
end Reachability
