import Reachability.Counter.Report
import Reachability.Proofs.Run.Timing

/-! Merging that never changes anything.

A merge that keeps all states separate may say so, and then nobody scans a location for
candidates. A merge that keeps them separate without saying so is asked about every candidate,
and whatever it answers is equal to the candidate, so that nothing is replaced (`mergeInto_idle`).
All that is left of a scan is what it notes and the time it takes, unless a shutdown is
requested: a scan is a check point. -/
namespace Reachability

open Exploration

variable {ω ω' S P W α : Type}

/-- Whatever is merged, the reached state stays as it is. Nobody else sees what the merge
remembers. -/
structure Merge.Idle [BEq S] (view : ω' → ω) (m : Merge ω' S P) : Prop where
  keeps : ∀ s old p w, ∃ new, (m.merge s old p w).result = .ok new ∧ (new == old) = true
  memory : ∀ s old p w, view (m.merge s old p w).memory = view w

/-- Merging requests no shutdown. -/
def Merge.Quiet (m : Merge ω S P) : Prop :=
  ∀ s old p w, (m.merge s old p w).request = none

namespace Exploration

variable [AbstractState S]

theorem absorb_of_quiet {r : Reply ω α} (h : r.request = none) (x : Exploration ω S P W) :
    x.absorb r = {x with memory := r.memory, clock := x.clock + r.elapsed} := by
  rw [absorb, h]

/-- Only time has passed, and that on the timer for merging. -/
structure Scanned (view : ω' → ω) (y z : Exploration ω' S P W) : Prop where
  reached : z.reached = y.reached
  memory : view z.memory = view y.memory
  shutdown : z.shutdown = y.shutdown
  clock : y.clock ≤ z.clock
  statistics : z.statistics = (y.statistics.start .merge y.clock).stop .merge z.clock

variable [Waitlist W] [BEq S] [BEq P] {view : ω' → ω} {b : Analysis ω' S P W}
  {y : Exploration ω' S P W}

/-- A merge that never changes anything lets every candidate be. -/
theorem scan_idle (hidle : b.merge.Idle view) (s : S) (p : P) (candidates : List Handle)
    (hbefore : y.shutdown.requested = false)
    (hquiet : (scan b s p candidates y).after.shutdown.requested = false ∨ b.merge.Quiet) :
    ∃ memory time, view memory = view y.memory ∧
      scan b s p candidates y = { after := {y with memory, clock := y.clock + time} } := by
  induction candidates generalizing y with
  | nil => exact ⟨y.memory, 0, rfl, rfl⟩
  | cons h rest ih =>
    unfold scan at hquiet ⊢
    rw [hbefore] at hquiet ⊢
    simp only [Bool.false_eq_true, if_false] at hquiet ⊢
    cases hstate : y.reached.state? h with
    | none =>
      rw [hstate] at hquiet
      exact ih hbefore hquiet
    | some old =>
      obtain ⟨new, hresult, hnew⟩ := hidle.keeps s old p y.memory
      have hmemory := hidle.memory s old p y.memory
      have hsame : ¬ (new != old) = true := by rw [bne, hnew]; exact Bool.false_ne_true
      have hrequest := fun hmerge : b.merge.Quiet => hmerge s old p y.memory
      have hasked := requested_absorb y (b.merge.merge s old p y.memory)
      rw [hstate] at hquiet
      simp only [ask] at hquiet ⊢
      generalize b.merge.merge s old p y.memory = r at hquiet hresult hmemory hrequest hasked ⊢
      simp only [hresult, if_neg hsame] at hquiet ⊢
      have hnone : r.request = none := by
        refine hquiet.elim (fun hafter => ?_) hrequest
        have hstill := mt (lasting_persists.scan b s p rest (y.absorb r)) (Bool.eq_false_iff.1 hafter)
        rw [hasked, hbefore, Bool.false_or, Bool.not_eq_true, Option.isSome_eq_false_iff] at hstill
        exact Option.isNone_iff_eq_none.1 hstill
      have habsorbed := absorb_of_quiet hnone y
      generalize y.absorb r = z at habsorbed hquiet ⊢
      subst habsorbed
      obtain ⟨memory, time, hview, hrest⟩ :=
        ih (y := {y with memory := r.memory, clock := y.clock + r.elapsed}) hbefore hquiet
      exact ⟨memory, r.elapsed + time, hview.trans hmemory, by rw [hrest, Nat.add_assoc]⟩

/-- All that such a merge leaves of a scan is the time it takes. -/
theorem mergeInto_idle (hidle : b.merge.Idle view) (s : S) (p : P)
    (hbefore : y.shutdown.requested = false)
    (hquiet : (mergeInto b s p y).2.shutdown.requested = false ∨ b.merge.Quiet) :
    (mergeInto b s p y).1 = none ∧
      ((mergeInto b s p y).2 = y ∨ Scanned view y (mergeInto b s p y).2) := by
  unfold mergeInto at hquiet ⊢
  simp only at hquiet ⊢
  split
  · exact ⟨rfl, .inl rfl⟩
  · rename_i hcandidates
    rw [if_neg hcandidates] at hquiet
    generalize y.reached.handlesAt s = candidates at hquiet ⊢
    have hreplaced : ∀ (changed : List (Handle × S)) (z : Exploration ω' S P W),
        ((replace p changed z).stop .merge).shutdown = z.shutdown := fun changed z => by
      unfold replace
      split <;> rfl
    rw [hreplaced] at hquiet
    obtain ⟨memory, time, hview, hscan⟩ :=
      scan_idle (y := (y.note (.considering candidates.length)).start .merge) hidle s p candidates
        hbefore hquiet
    rw [hscan]
    exact ⟨rfl, .inr ⟨rfl, hview, rfl, Nat.le_add_right y.clock time, rfl⟩⟩

end Exploration

/-! ### Runs -/

variable [AbstractState S] [Waitlist W] [BEq S] [BEq P] {view : ω' → ω} {a : Analysis ω S P W}
  {b : Analysis ω' S P W} {R : Exploration ω S P W → Exploration ω' S P W → Prop}

/-- Runs go in lockstep if what goes along with them does not mind the time spent on merging. -/
theorem Overlay.lockstep_idle (hR : Overlay view R)
    (hscanned : ∀ {x y z}, R x y → Scanned view y z → R x z) (hab : a.Overlays view b)
    (hseparates : a.merge.separates = true) (hidle : b.merge.Idle view) :
    Lockstep a b (fun _ _ => True) (fun x y => y.shutdown.requested = false ∨
      (b.merge.Quiet ∧ x.shutdown.requested = false)) R := by
  have hnot : ∀ {x x' : Bool}, (x = true → x' = true) → x' = false → x = false :=
    fun h hx' => Bool.eq_false_iff.2 fun hx => Bool.eq_false_iff.1 hx' (h hx)
  refine hR.lockstep hab (fun {x y} hxy s p hend => ?_) fun hx hy hend =>
    hend.imp (hnot hy) fun h => ⟨h.1, hnot hx h.2⟩
  have hspared : mergeAndSettle a s p x = Exploration.settle a s p x := by rw [mergeAndSettle, if_pos hseparates]
  have hbefore : y.shutdown.requested = false := by
    refine hend.elim (hnot (lasting_persists.mergeAndSettle b s p y)) fun h => ?_
    rw [(hR.overlaid hxy).shutdown]
    exact hnot (lasting_persists.mergeAndSettle a s p x) h.2
  rw [hspared]
  unfold mergeAndSettle at hend ⊢
  split
  · exact hR.settle hab hxy s p
  · rename_i hscans
    rw [if_neg hscans] at hend
    have hmerged := mergeInto_idle (y := y) hidle s p hbefore
    generalize mergeInto b s p y = merged at hend hmerged ⊢
    obtain ⟨abort, z⟩ := merged
    have hquiet : z.shutdown.requested = false ∨ b.merge.Quiet := by
      refine hend.imp (hnot ?_) And.left
      cases abort with
      | some e => exact id
      | none => exact lasting_persists.settle b s p z
    obtain ⟨hnone, hsame⟩ := hmerged hquiet
    cases hnone
    obtain rfl | hscanned' := hsame
    · exact hR.settle hab hxy s p
    · exact hR.settle hab (hscanned hxy hscanned') s p

omit [Waitlist W] [BEq S] [BEq P] in
theorem Exploration.Overlaid.scanned {x : Exploration ω S P W} {y z : Exploration ω' S P W} (hxy : Overlaid view x y) (hyz : Scanned view y z) :
    Overlaid view x z := by
  refine ⟨hyz.reached.trans hxy.reached, hyz.memory.trans hxy.memory, hyz.shutdown.trans hxy.shutdown, ?_⟩
  show z.statistics.counts = x.counts
  rw [hyz.statistics, Statistics.stop, Statistics.counts_settle, Statistics.start,
    Statistics.counts_settle]
  exact hxy.counts

/-- Overlaid in the middle of two runs, the timers included. -/
structure Exploration.Timed (view : ω' → ω) (x : Exploration ω S P W) (y : Exploration ω' S P W) : Prop where
  overlaid : Overlaid view x y
  pacing : x.statistics.Pacing x.clock y.statistics y.clock

omit [Waitlist W] [BEq S] [BEq P] in
theorem Exploration.Timed.overlay (view : ω' → ω) : Overlay view (Timed (S := S) (P := P) (W := W) view) where
  overlaid h := h.overlaid
  move {x x₁ y y₁} h hmove hclock := by
    obtain ⟨time, htime, htime'⟩ := hmove.clock
    have hclock' : y₁.clock = y.clock := by omega
    refine ⟨(Overlaid.overlay view).move h.overlaid hmove hclock, ?_⟩
    rw [hmove.statistics, hmove.statistics', hclock, hclock']
    exact h.pacing
  timed {x x₁ y y₁ p} h htotal hmerge hmove := by
    refine ⟨(Overlaid.overlay view).timed h.overlaid htotal hmerge hmove, ?_⟩
    obtain ⟨time, htime, htime'⟩ := hmove.clock
    show (x₁.statistics.stop p x₁.clock).Pacing x₁.clock (y₁.statistics.stop p y₁.clock) y₁.clock
    rw [hmove.statistics, hmove.statistics', htime, htime']
    exact h.pacing.timed htotal hmerge time
  tally h hf := ⟨(Overlaid.overlay view).tally h.overlaid hf, h.pacing.tally hf⟩

omit [Waitlist W] [BEq S] [BEq P] in
theorem Exploration.Timed.scanned {x : Exploration ω S P W} {y z : Exploration ω' S P W}
    (hxy : Timed view x y) (hyz : Scanned view y z) :
    Timed view x z := by
  refine ⟨hxy.overlaid.scanned hyz, ?_⟩
  obtain ⟨time, htime⟩ := Nat.exists_eq_add_of_le hyz.clock
  rw [hyz.statistics, htime]
  exact hxy.pacing.merged time

/-- **To skip the scan is as good as to scan for nothing.** If merging never changes anything, a
run with it has the same result as a run that spares it. Both end with the same reached set and
the same counts, unless a shutdown is requested meanwhile. Given that the timers agree and stand
still at first, only those for merging and for the whole run differ, by the same time. -/
theorem run_of_idle_merge (hab : a.Overlays view b) (hseparates : a.merge.separates = true)
    (hidle : b.merge.Idle view) (limit : Nat) {x : Exploration ω S P W} {y : Exploration ω' S P W}
    (hxy : Overlaid view x y)
    (hquiet : (y.run b limit).2.shutdown.requested = false ∨
      (b.merge.Quiet ∧ (x.run a limit).2.shutdown.requested = false)) :
    (y.run b limit).1 = (x.run a limit).1 ∧ Overlaid view (x.run a limit).2 (y.run b limit).2 ∧
      (y.statistics = x.statistics → (∀ p, (x.statistics.timer p).started = none) →
        (x.run a limit).2.statistics.Paced (x.run a limit).2.clock
          (y.run b limit).2.statistics (y.run b limit).2.clock) := by
  have hmatches : Matches (Overlaid view) (x.run a limit) (y.run b limit) := by
    have hover := Overlaid.overlay (S := S) (P := P) (W := W) view
    exact (hover.lockstep_idle Overlaid.scanned hab hseparates hidle).run limit
      (hover.publishSeeds (hxy.start .total)) id (fun h => h.conclude) hquiet
  refine ⟨hmatches.result, hmatches.related, fun hstatistics hstill => ?_⟩
  have hover := Timed.overlay (S := S) (P := P) (W := W) view
  have hstarted : Timed view (x.start .total) (y.start .total) := by
    refine ⟨hxy.start .total, ?_⟩
    show (x.statistics.start .total x.clock).Pacing x.clock (y.statistics.start .total y.clock) y.clock
    rw [hstatistics]
    exact .start hstill x.clock y.clock
  have htimed : Matches (fun x y => x.statistics.Paced x.clock y.statistics y.clock)
      (x.run a limit) (y.run b limit) :=
    (hover.lockstep_idle Timed.scanned hab hseparates hidle).run limit
      (hover.publishSeeds hstarted) (fun h => h.pacing.paced)
      (fun h result => by cases result <;> exact h.pacing.stopAll) hquiet
  exact htimed.related

/-! In the demonstration, merging keeps the reached state each time, but counts how often it was
asked and takes seven nanoseconds for it. -/
namespace Counter

def attentive : Analysis Nat Interval Unit Frontier where
  transfer s _ := pure ((Program.successors ⟨2, none⟩ s).map fun t => (t, ()))
  merge := { merge := fun _ old _ asked => { result := .ok old, memory := asked + 1, elapsed := 7 } }
  stop := Stop.separate Interval.domain.lift.toComparison

theorem attentive_overlays : (analysis ⟨2, none⟩ false false).Overlays (fun _ => ()) attentive where
  transfer _ _ _ := rfl
  stop s reached p w :=
    have hstop := Stop.separate_lift_apply (ω := ℕ) Interval.domain.toComparison s reached p w
    (congrArg (Reply.seen _) hstop).trans (Stop.separate_lift_apply _ s reached p ()).symm
  adjust _ _ _ _ := rfl
  cover := .none
  status := rfl

def attentiveRun : Option (Except Abort Outcome) × Exploration Nat Interval Unit Frontier :=
  Exploration.run attentive 10 { trail := (initial { bound := 2 }).trail, memory := 0 }

def inattentiveRun : Option (Except Abort Outcome) × State :=
  Exploration.run (analysis ⟨2, none⟩ false false) 10 (initial { bound := 2 })

theorem attentiveRun_eq :
    attentiveRun.1 = inattentiveRun.1 ∧ attentiveRun.2.reached = inattentiveRun.2.reached ∧
      attentiveRun.2.memory = 3 ∧ (attentiveRun.2.statistics.timer .total).sum = 21 := by
  obtain ⟨hresult, hover, htimers⟩ := run_of_idle_merge (b := attentive) attentive_overlays rfl
    ⟨fun _ old _ _ => ⟨old, rfl, by simp⟩, fun _ _ _ _ => rfl⟩ 10
    (x := initial { bound := 2 }) (y := { trail := (initial { bound := 2 }).trail, memory := 0 })
    ⟨rfl, rfl, rfl, rfl⟩ (.inl (by decide +kernel))
  exact ⟨hresult, hover.reached, by decide +kernel, by decide +kernel⟩

end Counter
end Reachability
