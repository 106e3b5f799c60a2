import Reachability.Proofs.Run.Timing

/-! Statistics that balance.

Timers and counters are read and written on different branches of a run, and go on over all runs
of one analysis. Each iteration asks forced covering once, if there is one, and then is spent on
one use of the transfer relation, unless it was covered by force or the covering failed; so the
counters say how many intervals the timers have. In the middle of an iteration some of this is
still to come. `Debt` says what, and what each part of an iteration pays of it is said here of the
statistics alone. -/
namespace Reachability.Statistics

def intervals (s : Statistics) (p : Phase) : Nat :=
  (s.timer p).intervals

/-- All timers stand still, and none was misused. -/
structure AtRest (s : Statistics) : Prop where
  misuse : s.misuse = none
  idle : ∀ p, (s.timer p).started = none

/-- In the middle of a run: the timer for the whole run is running, and any other can be used. -/
structure Ready (s : Statistics) : Prop where
  misuse : s.misuse = none
  idle : ∀ p, p ≠ .total → (s.timer p).started = none
  running : (s.timer .total).isRunning = true

/-- What is still to come until the counts of an iteration balance. -/
structure Debt where
  covers : Nat := 0
  transfers : Nat := 0
  /-- Successors that were counted and not dealt with yet. -/
  successors : Nat := 0

/-- The counts balance with the numbers of intervals, given the debt, after as many runs and
failures of forced covering. -/
structure Balanced (installed : Prop) (runs failed : Nat) (debt : Debt) (intervals : Phase → Nat)
    (counts : Statistics) : Prop where
  runs : intervals .total = runs
  covers : installed → intervals .cover + debt.covers = counts.iterations
  transfers : intervals .transfer + counts.forced + failed + debt.transfers = counts.iterations
  checks : intervals .stop + debt.successors ≤ counts.successors
  coveredHalts : counts.coveredHalts ≤ counts.stops
  outcomes : counts.stops + counts.halts + debt.successors ≤ counts.successors
  largest : counts.maxSuccessors ≤ counts.successors
  successors : counts.successors ≤ counts.maxSuccessors * intervals .transfer
  waited : counts.iterations ≤ counts.waitlistTotal
  waitlist : counts.waitlistTotal ≤ counts.iterations * counts.maxWaitlist

/-- What can be read off the statistics between runs. -/
structure Accounts (installed : Prop) (runs failed : Nat) (s : Statistics) : Prop where
  misuse : s.misuse = none
  idle : ∀ p, (s.timer p).isRunning = false
  total : s.intervals .total = runs
  cover : installed → s.intervals .cover = s.iterations
  transfer : s.intervals .transfer + s.forced + failed = s.iterations
  stop : s.intervals .stop ≤ s.successors
  coveredHalts : s.coveredHalts ≤ s.stops
  outcomes : s.stops + s.halts ≤ s.successors
  successors : s.maxSuccessors ≤ s.successors ∧
    s.successors ≤ s.maxSuccessors * s.intervals .transfer
  waitlist : 0 < s.iterations → 1 ≤ s.averageWaitlist ∧ s.averageWaitlist ≤ s.maxWaitlist

theorem AtRest.accounts {installed : Prop} {runs failed : Nat} {s : Statistics} (hrest : s.AtRest)
    (h : Balanced installed runs failed {} s.intervals s.counts) :
    s.Accounts installed runs failed where
  misuse := hrest.misuse
  idle p := by rw [Timer.isRunning, hrest.idle]; rfl
  total := h.runs
  cover := h.covers
  transfer := h.transfers
  stop := h.checks
  coveredHalts := h.coveredHalts
  outcomes := h.outcomes
  successors := ⟨h.largest, h.successors⟩
  waitlist hpos := by
    rw [averageWaitlist, if_neg (Nat.ne_of_gt hpos)]
    exact ⟨(Nat.le_div_iff_mul_le hpos).2 (by rw [Nat.one_mul]; exact h.waited),
      Nat.div_le_of_le_mul h.waitlist⟩

/-- One more interval on a timer. -/
def measure (s : Statistics) (p : Phase) (time : Nat) : Statistics :=
  {s with timers := s.timers.set p ((s.timer p).interval time)}

/-- One more interval. -/
def bump (intervals : Phase → Nat) (p : Phase) : Phase → Nat :=
  fun q => intervals q + if q = p then 1 else 0

theorem timer_measure (s : Statistics) (p : Phase) (time : Nat) (q : Phase) :
    (s.measure p time).timer q = if q = p then (s.timer p).interval time else s.timer q :=
  timer_set ..

theorem intervals_measure (s : Statistics) (p : Phase) (time : Nat) :
    (s.measure p time).intervals = bump s.intervals p := by
  funext q
  rw [intervals, timer_measure, bump]
  split
  · rename_i hq
    rw [hq]
    rfl
  · rfl

/-- The number of merges has nothing to do with the timers. -/
theorem stop_merges (s : Statistics) (merges : Nat) (p : Phase) (now : Nat) :
    ({s with merges} : Statistics).stop p now = {s.stop p now with merges} := by
  have htimer : ({s with merges} : Statistics).timer p = s.timer p := rfl
  rw [stop, stop, htimer]
  cases (s.timer p).stop now <;> rfl

theorem Ready.congr {s s' : Statistics} (hs : s.Ready) (hmisuse : s'.misuse = s.misuse)
    (htimers : s'.timers = s.timers) : s'.Ready := by
  have htimer : ∀ p, s'.timer p = s.timer p := fun p => by rw [timer, timer, htimers]
  refine ⟨hmisuse.trans hs.misuse, fun p hp => ?_, ?_⟩
  · rw [htimer]
    exact hs.idle p hp
  · rw [htimer]
    exact hs.running

theorem Ready.measure {s : Statistics} (hs : s.Ready) {p : Phase} (hp : p ≠ .total) (time : Nat) :
    (s.measure p time).Ready where
  misuse := hs.misuse
  idle q hq := by
    rw [timer_measure]
    split
    · rfl
    · exact hs.idle q hq
  running := by
    rw [timer_measure, if_neg hp.symm]
    exact hs.running

/-- What dealing with successors leaves alone. -/
def standing (s : Statistics) : Statistics :=
  {s with
    timers := { total := s.timers.total, transfer := s.timers.transfer, cover := s.timers.cover }
    merges := 0
    stops := 0
    halts := 0
    coveredHalts := 0
    misuse := none}

theorem standing_measure {p : Phase} (htotal : p ≠ .total) (htransfer : p ≠ .transfer)
    (hcover : p ≠ .cover) (s : Statistics) (time : Nat) : (s.measure p time).standing = s.standing := by
  cases p with
  | total => exact absurd rfl htotal
  | transfer => exact absurd rfl htransfer
  | cover => exact absurd rfl hcover
  | _ => rfl

/-- The timer for the whole run is started. -/
theorem AtRest.start {s : Statistics} (hrest : s.AtRest) (now : Nat) :
    (s.start .total now).Ready ∧ (s.start .total now).intervals = s.intervals := by
  rw [start_of_idle (hrest.idle .total)]
  refine ⟨⟨hrest.misuse, fun p hp => ?_, ?_⟩, funext fun p => ?_⟩
  · rw [timer_set, if_neg hp]
    exact hrest.idle p
  · rw [timer_set, if_pos rfl]
    rfl
  · rw [intervals, timer_set]
    split
    · rename_i hp
      rw [hp]
      rfl
    · rfl

/-- All timers are stopped, and that for the whole run was running. -/
theorem Ready.stopAll {s : Statistics} (hs : s.Ready) (now : Nat) :
    ({s with timers := s.timers.stopAll now} : Statistics).AtRest ∧
      ({s with timers := s.timers.stopAll now} : Statistics).intervals = bump s.intervals .total := by
  refine ⟨⟨hs.misuse, fun p => ?_⟩, funext fun p => ?_⟩
  · rw [timer_stopAll]
    exact Timer.started_stopIfRunning ..
  · rw [intervals, timer_stopAll, bump]
    split
    · rename_i hp
      obtain ⟨began, hbegan⟩ := Option.isSome_iff_exists.1 hs.running
      rw [hp, Timer.stopIfRunning_of_running hbegan]
      rfl
    · rename_i hp
      rw [Timer.stopIfRunning_of_idle (hs.idle p hp)]
      rfl

/-! ### What is paid when -/

namespace Balanced
variable {installed : Prop} {runs failed : Nat} {debt : Debt} {intervals : Phase → Nat}
  {counts : Statistics}

theorem fresh : Balanced installed 0 0 {} ({} : Statistics).intervals ({} : Statistics).counts :=
  ⟨rfl, fun _ => rfl, rfl, Nat.le_refl 0, Nat.le_refl 0, Nat.le_refl 0, Nat.le_refl 0, Nat.le_refl 0,
    Nat.le_refl 0, Nat.le_refl 0⟩

/-- Time is measured that nobody accounts for. -/
theorem chooses (h : Balanced installed runs failed debt intervals counts) :
    Balanced installed runs failed debt (bump intervals .choose) counts :=
  {h with}

/-- An iteration is counted, with the waitlist as large as it is. -/
theorem iterates (h : Balanced installed runs failed {} intervals counts) {n : Nat} (hn : 0 < n) :
    Balanced installed runs failed { covers := 1, transfers := 1 } intervals
      {counts with
        iterations := counts.iterations + 1
        maxWaitlist := max counts.maxWaitlist n
        waitlistTotal := counts.waitlistTotal + n} :=
  {h with
    covers := fun hinstalled => congrArg (· + 1) (h.covers hinstalled)
    transfers := congrArg (· + 1) h.transfers
    waited := Nat.add_le_add h.waited hn
    waitlist := by
      show counts.waitlistTotal + n ≤ (counts.iterations + 1) * max counts.maxWaitlist n
      rw [Nat.add_mul, Nat.one_mul]
      exact Nat.add_le_add (Nat.le_trans h.waitlist (Nat.mul_le_mul_left _ (Nat.le_max_left ..)))
        (Nat.le_max_right ..)}

/-- Without forced covering, nobody has to ask it. -/
theorem unasked
    (h : Balanced installed runs failed { covers := 1, transfers := 1 } intervals counts)
    (hnone : ¬ installed) : Balanced installed runs failed { transfers := 1 } intervals counts :=
  {h with covers := fun hinstalled => absurd hinstalled hnone}

/-- Forced covering is asked. -/
theorem asks (h : Balanced installed runs failed { covers := 1, transfers := 1 } intervals counts) :
    Balanced installed runs failed { transfers := 1 } (bump intervals .cover) counts :=
  {h with}

/-- Forced covering fails, and the iteration is over. -/
theorem fails (h : Balanced installed runs failed { transfers := 1 } intervals counts) :
    Balanced installed runs (failed + 1) {} intervals counts :=
  {h with}

/-- Forced covering covers, and the iteration is over. -/
theorem forces (h : Balanced installed runs failed { transfers := 1 } intervals counts) :
    Balanced installed runs failed {} intervals {counts with forced := counts.forced + 1} :=
  {h with
    transfers := by
      have htransfers : intervals .transfer + counts.forced + failed + 1 = counts.iterations :=
        h.transfers
      show intervals .transfer + (counts.forced + 1) + failed + 0 = counts.iterations
      omega}

/-- The transfer relation is asked, and answers with so many successors, or fails and leaves
none. -/
theorem expands (h : Balanced installed runs failed { transfers := 1 } intervals counts) (n : Nat) :
    Balanced installed runs failed { successors := n } (bump intervals .transfer)
      {counts with
        successors := counts.successors + n
        maxSuccessors := max counts.maxSuccessors n} :=
  {h with
    transfers := by
      have htransfers : intervals .transfer + counts.forced + failed + 1 = counts.iterations :=
        h.transfers
      show intervals .transfer + 1 + counts.forced + failed + 0 = counts.iterations
      omega
    checks := Nat.add_le_add_right h.checks n
    outcomes := Nat.add_le_add_right h.outcomes n
    largest := by
      have hlargest := h.largest
      show max counts.maxSuccessors n ≤ counts.successors + n
      omega
    successors := by
      show counts.successors + n ≤ max counts.maxSuccessors n * (intervals .transfer + 1)
      rw [Nat.mul_add, Nat.mul_one]
      exact Nat.add_le_add (Nat.le_trans h.successors (Nat.mul_le_mul_right _ (Nat.le_max_left ..)))
        (Nat.le_max_right ..)}

/-- The successors are dealt with: each is checked once at most, and has one outcome at most. -/
theorem settles {s s' : Statistics} {n : Nat}
    (h : Balanced installed runs failed { successors := n } s.intervals s.counts)
    (hstanding : s'.standing = s.standing) (hchecks : s'.intervals .stop ≤ s.intervals .stop + n)
    (hcovered : s'.coveredHalts + s.stops ≤ s.coveredHalts + s'.stops)
    (houtcomes : s'.stops + s'.halts ≤ s.stops + s.halts + n) :
    Balanced installed runs failed {} s'.intervals s'.counts := by
  have htotal : s'.intervals .total = s.intervals .total :=
    (congrArg (fun s => s.timers.total.intervals) hstanding :)
  have hcover : s'.intervals .cover = s.intervals .cover :=
    (congrArg (fun s => s.timers.cover.intervals) hstanding :)
  have htransfer : s'.intervals .transfer = s.intervals .transfer :=
    (congrArg (fun s => s.timers.transfer.intervals) hstanding :)
  have hiterations : s'.iterations = s.iterations := (congrArg Statistics.iterations hstanding :)
  have hforced : s'.forced = s.forced := (congrArg Statistics.forced hstanding :)
  have hsuccessors : s'.successors = s.successors := (congrArg Statistics.successors hstanding :)
  have hmaxSuccessors : s'.maxSuccessors = s.maxSuccessors :=
    (congrArg Statistics.maxSuccessors hstanding :)
  have hwaitlistTotal : s'.waitlistTotal = s.waitlistTotal :=
    (congrArg Statistics.waitlistTotal hstanding :)
  have hmaxWaitlist : s'.maxWaitlist = s.maxWaitlist :=
    (congrArg Statistics.maxWaitlist hstanding :)
  have hpaid : s.coveredHalts ≤ s.stops := h.coveredHalts
  have howed : s.intervals .stop + n ≤ s.successors := h.checks
  have howed' : s.stops + s.halts + n ≤ s.successors := h.outcomes
  constructor
  · exact htotal.trans h.runs
  · exact fun hinstalled => (hcover.trans (h.covers hinstalled)).trans hiterations.symm
  · show s'.intervals .transfer + s'.forced + failed = s'.iterations
    rw [htransfer, hforced, hiterations]
    exact h.transfers
  · show s'.intervals .stop ≤ s'.successors
    omega
  · show s'.coveredHalts ≤ s'.stops
    omega
  · show s'.stops + s'.halts ≤ s'.successors
    omega
  · show s'.maxSuccessors ≤ s'.successors
    rw [hmaxSuccessors, hsuccessors]
    exact h.largest
  · show s'.successors ≤ s'.maxSuccessors * s'.intervals .transfer
    rw [hmaxSuccessors, hsuccessors, htransfer]
    exact h.successors
  · show s'.iterations ≤ s'.waitlistTotal
    rw [hiterations, hwaitlistTotal]
    exact h.waited
  · show s'.waitlistTotal ≤ s'.iterations * s'.maxWaitlist
    rw [hiterations, hwaitlistTotal, hmaxWaitlist]
    exact h.waitlist

/-- The run is over. -/
theorem concludes (h : Balanced installed runs failed debt intervals counts) :
    Balanced installed (runs + 1) failed debt (bump intervals .total) counts :=
  {h with runs := congrArg (· + 1) h.runs}

end Balanced

end Reachability.Statistics
