import Reachability.Counter.Report
import Reachability.Proofs.Run.Ending
import Reachability.Proofs.Run.Recording

/-! Cancellation takes effect after at most one more call.

Between two calls of operators there is not always a check point, but there are never two calls
without one: after an adjustment that requests a shutdown a successor may still be compared with
what is reached, after a covering that does so the transfer relation may still be asked, and
that is all. Each part of an expansion keeps this (`Prompt`): parts that begin with a call
are entered before any call was made too late, and all others begin with a check point. -/
namespace Reachability

open Exploration

variable {ω S P W α : Type}

/-! ### Calls made too late -/

/-- The calls after the first that requested a shutdown. -/
def overrun : List Called → List Called
  | [] => []
  | c :: rest => if c.requests then rest else overrun rest

theorem overrun_append_singleton (calls : List Called) (c : Called) :
    overrun (calls ++ [c]) = if calls.any Called.requests then overrun calls ++ [c] else [] := by
  induction calls with
  | nil =>
    cases hc : c.requests <;> simp [overrun, hc]
  | cons d rest ih =>
    cases hd : d.requests <;> simp [overrun, hd, ih]

theorem exists_first_request {calls : List Called} (h : calls.any Called.requests = true) :
    ∃ before c, calls = before ++ c :: overrun calls ∧ c.requests = true ∧
      ∀ d ∈ before, d.requests = false := by
  induction calls with
  | nil => cases h
  | cons d rest ih =>
    cases hd : d.requests with
    | true => exact ⟨[], d, by simp [overrun, hd], hd, fun _ h => (List.not_mem_nil h).elim⟩
    | false =>
      rw [List.any_cons, hd, Bool.false_or] at h
      obtain ⟨before, c, hrest, hc, hbefore⟩ := ih h
      refine ⟨d :: before, c, ?_, hc, List.forall_mem_cons.2 ⟨hd, hbefore⟩⟩
      have hoverrun : overrun (d :: rest) = overrun rest := by simp [overrun, hd]
      rw [hoverrun, List.cons_append, ← hrest]

/-- The reply was recorded at the end of `log`. -/
def Reply.Recorded (log : List Called) (r : Reply (ω × List Called) α) : Prop :=
  ∃ c : Called, r.memory.2 = log ++ [c] ∧ c.requests = r.request.isSome

theorem Reply.recorded_record (o : Operator) (log : List Called) (r : Reply ω α) :
    (r.record o log).Recorded log :=
  ⟨⟨o, r.request.isSome⟩, rfl, rfl⟩

variable [AbstractState S]

/-- Since no more than `base` was recorded, a shutdown was requested only during calls, and at
most `k` calls were made after the first such. -/
def Exploration.Prompt (base : List Called) (k : Nat) (x : Exploration (ω × List Called) S P W) :
    Prop :=
  ∃ calls, x.memory.2 = base ++ calls ∧ x.shutdown.requested = calls.any Called.requests ∧
    (overrun calls).length ≤ k

namespace Exploration.Prompt
variable {base : List Called} {k : Nat} {x : Exploration (ω × List Called) S P W}

theorem congr {y : Exploration (ω × List Called) S P W} (h : y.mind = x.mind)
    (hx : Prompt base k x) : Prompt base k y := by
  obtain ⟨calls, hmemory, hrequested, hlength⟩ := hx
  have hm : y.memory = x.memory := congrArg Prod.fst h
  have hs : y.shutdown = x.shutdown := congrArg Prod.snd h
  exact ⟨calls, by rw [hm, hmemory], by rw [hs, hrequested], hlength⟩

theorem mono (h : Prompt base 0 x) : Prompt base 1 x :=
  let ⟨calls, hmemory, hrequested, hlength⟩ := h
  ⟨calls, hmemory, hrequested, hlength.trans (Nat.zero_le 1)⟩

/-- As long as no shutdown is requested, no call is too late. -/
theorem of_quiet (h : Prompt base k x) (hquiet : x.shutdown.requested = false) :
    Prompt base 0 x := by
  obtain ⟨calls, hmemory, hrequested, -⟩ := h
  refine ⟨calls, hmemory, hrequested, ?_⟩
  rw [hrequested] at hquiet
  clear hmemory hrequested
  induction calls with
  | nil => exact Nat.le_refl 0
  | cons c rest ih =>
    rw [List.any_cons, Bool.or_eq_false_iff] at hquiet
    simpa [overrun, hquiet.1] using ih hquiet.2

theorem absorb (h : Prompt base k x) {r : Reply (ω × List Called) α}
    (hr : r.Recorded x.memory.2) :
    Prompt base (if x.shutdown.requested then k + 1 else 0) (x.absorb r) := by
  obtain ⟨calls, hmemory, hrequested, hlength⟩ := h
  obtain ⟨c, hlog, hc⟩ := hr
  have hm : (x.absorb r).memory = r.memory := congrArg Prod.fst (mind_absorb x r)
  refine ⟨calls ++ [c], ?_, ?_, ?_⟩
  · rw [hm, hlog, hmemory, List.append_assoc]
  · rw [requested_absorb, hrequested, List.any_append, ← hc]
    simp
  · rw [overrun_append_singleton, hrequested]
    split
    · simpa using hlength
    · exact Nat.le_refl 0

/-- A call that may be too late. -/
theorem call (h : Prompt base 0 x) {r : Reply (ω × List Called) α} (hr : r.Recorded x.memory.2) :
    Prompt base 1 (x.absorb r) := by
  have hcalled := h.absorb hr
  split at hcalled
  · exact hcalled
  · exact hcalled.mono

/-- A call that is not, since there was a check point before. -/
theorem callInTime (h : Prompt base k x) (hquiet : x.shutdown.requested = false)
    {r : Reply (ω × List Called) α} (hr : r.Recorded x.memory.2) : Prompt base 0 (x.absorb r) := by
  have hcalled := h.absorb hr
  rwa [hquiet, if_neg Bool.false_ne_true] at hcalled

variable [Waitlist W] [BEq S] [BEq P] (a : Analysis ω S P W)

/-! ### Successors -/

theorem settle (h : Prompt base 0 x) (s : S) (p : P) :
    Prompt base 1 (Exploration.settle a.recorded s p x).2 := by
  have hasked : Prompt base 1 (isCovered a.recorded s p x).2 :=
    call (x := x.start .stop) h (Reply.recorded_record ..)
  unfold Exploration.settle
  generalize isCovered a.recorded s p x = asked at hasked ⊢
  obtain ⟨answer, y⟩ := asked
  match answer with
  | .error e => exact hasked
  | .ok true => exact hasked
  | .ok false => exact hasked

theorem settleHalt (h : Prompt base 0 x) (s : S) (p : P) :
    Prompt base 1 (Exploration.settleHalt a.recorded s p x).2 := by
  have hasked : Prompt base 1 (isCovered a.recorded s p x).2 :=
    call (x := x.start .stop) h (Reply.recorded_record ..)
  unfold Exploration.settleHalt
  generalize isCovered a.recorded s p x = asked at hasked ⊢
  obtain ⟨answer, y⟩ := asked
  match answer with
  | .error e => exact hasked
  | .ok true => exact hasked
  | .ok false => exact hasked

omit [Waitlist W] [BEq P] in
theorem scan (h : Prompt base 0 x) (s : S) (p : P) (candidates : List Handle) :
    Prompt base 0 (Exploration.scan a.recorded s p candidates x).after := by
  induction candidates generalizing x with
  | nil => exact h
  | cons g rest ih =>
    unfold Exploration.scan
    split
    · exact h
    · rename_i hquiet
      cases x.reached.state? g with
      | none => exact ih h
      | some old =>
        have hasked : Prompt base 0 (x.ask (a.recorded.merge.merge s old p)).2 :=
          h.callInTime (Bool.eq_false_iff.2 hquiet) (Reply.recorded_record ..)
        simp only
        generalize x.ask (a.recorded.merge.merge s old p) = asked at hasked ⊢
        obtain ⟨answer, y⟩ := asked
        cases answer with
        | error e => exact hasked
        | ok new =>
          simp only
          split
          · exact ih (x := (y.note (.mergedWith g)).note (.merged s old new)) hasked
          · exact ih hasked

theorem mergeInto (h : Prompt base 0 x) (s : S) (p : P) :
    Prompt base 0 (Exploration.mergeInto a.recorded s p x).2 := by
  unfold Exploration.mergeInto
  simp only
  split
  · exact h
  · have hscanned := scan a (x := (x.note (.considering (x.reached.handlesAt s).length)).start .merge)
      h s p (x.reached.handlesAt s)
    have hreplaced : ∀ (changed : List (Handle × S)) (y : Exploration (ω × List Called) S P W),
        (replace p changed y).mind = y.mind := fun changed y => by
      unfold replace
      split <;> rfl
    exact congr (hreplaced _ _) hscanned

theorem mergeAndSettle (h : Prompt base 0 x) (s : S) (p : P) :
    Prompt base 1 (Exploration.mergeAndSettle a.recorded s p x).2 := by
  have hmerged := h.mergeInto a s p
  unfold Exploration.mergeAndSettle
  split
  · exact h.settle a s p
  · generalize Exploration.mergeInto a.recorded s p x = merged at hmerged ⊢
    obtain ⟨abort, y⟩ := merged
    cases abort with
    | some e => exact hmerged.mono
    | none => exact hmerged.settle a s p

theorem handleSuccessor (h : Prompt base 1 x) (source s : S) (p : P) :
    Prompt base 1 (Exploration.handleSuccessor a.recorded source s p x).2 := by
  rw [handleSuccessor_eq]
  split
  · exact h
  · rename_i hquiet
    have hasked : Prompt base 0 (askAdjust a.recorded source s p x).2 :=
      callInTime (x := (x.note (.successor source s)).start .adjust) h (Bool.eq_false_iff.2 hquiet)
        (Reply.recorded_record ..)
    generalize askAdjust a.recorded source s p x = asked at hasked ⊢
    obtain ⟨answer, y⟩ := asked
    match answer with
    | .error e => exact hasked.mono
    | .ok none => exact hasked.mono
    | .ok (some ⟨t, q, .halt⟩) => exact hasked.settleHalt a t q
    | .ok (some ⟨t, q, .proceed⟩) => exact hasked.mergeAndSettle a t q

theorem handleSuccessors (h : Prompt base 1 x) (g : Handle) (source : S)
    (successors : List (S × P)) :
    Prompt base 1 (Exploration.handleSuccessors a.recorded g source successors x).2 := by
  induction successors generalizing x with
  | nil => exact h
  | cons pair rest ih =>
    have hfirst := h.handleSuccessor a source pair.1 pair.2
    unfold Exploration.handleSuccessors
    generalize Exploration.handleSuccessor a.recorded source pair.1 pair.2 x = handled at hfirst ⊢
    obtain ⟨flow, y⟩ := handled
    cases flow with
    | onward => exact ih hfirst
    | halt => cases rest <;> exact hfirst
    | abort e => exact hfirst

/-! ### Expansions -/

theorem forceCover (h : Prompt base 0 x) (hquiet : x.shutdown.requested = false) (s : S) (p : P) :
    Prompt base 0 (Exploration.forceCover a.recorded s p x).2 := by
  unfold Exploration.forceCover
  cases hcover : a.cover with
  | none =>
    simp only [Analysis.recorded, hcover, Option.map_none]
    exact h
  | some c =>
    simp only [Analysis.recorded, hcover, Option.map_some]
    have hasked : Prompt base 0 ((x.start .cover).absorb
        ((c.attempt s p x.reached x.memory.1).reply.record .cover x.memory.2)) :=
      callInTime (x := x.start .cover) h hquiet (Reply.recorded_record ..)
    exact congr (mind_applyAll _ _) hasked

theorem expandBy (h : Prompt base 0 x) (g : Handle) (s : S) (p : P) :
    Prompt base 1 (Exploration.expandBy a.recorded g s p x).2 := by
  have hasked : Prompt base 1 (x.timed .transfer fun x => x.ask (a.recorded.transfer s p)).2 :=
    call (x := x.start .transfer) h (Reply.recorded_record ..)
  unfold Exploration.expandBy
  generalize x.timed .transfer (fun x => x.ask (a.recorded.transfer s p)) = asked at hasked ⊢
  obtain ⟨answer, y⟩ := asked
  cases answer with
  | error e => exact hasked
  | ok successors =>
    refine handleSuccessors a ?_ g s successors
    exact hasked

theorem expand (h : Prompt base 0 x) (hquiet : x.shutdown.requested = false) (g : Handle) :
    Prompt base 1 (Exploration.expand a.recorded g x).2 := by
  unfold Exploration.expand
  cases x.reached.get? g with
  | none => exact h.mono
  | some pair =>
    obtain ⟨s, p⟩ := pair
    have hcovered := forceCover a (x := x.note (.expanding s p)) h hquiet s p
    simp only
    generalize Exploration.forceCover a.recorded s p (x.note (.expanding s p)) = covered
      at hcovered ⊢
    obtain ⟨verdict, y⟩ := covered
    match verdict with
    | .error e => exact hcovered.mono
    | .ok true => exact hcovered.mono
    | .ok false => exact hcovered.expandBy a g s p

/-- Between one pop and the next, at most one call is made too late. -/
theorem step (h : Prompt base 0 x) : Prompt base 1 (Exploration.step a.recorded x).2 := by
  rw [step_eq]
  split
  · exact h.mono
  · split
    · exact h.mono
    · rename_i hquiet
      have hpopped : Prompt base 0 (popNext x).2 := h
      have hstill : (popNext x).2.shutdown.requested = false := Bool.eq_false_iff.2 hquiet
      generalize popNext x = popped at hpopped hstill ⊢
      obtain ⟨g, y⟩ := popped
      cases g with
      | none => exact hpopped.mono
      | some g =>
        have hexpanded := expand a (x := y.note (.retrieved g)) hpopped hstill g
        simp only
        generalize Exploration.expand a.recorded g (y.note (.retrieved g)) = expanded at hexpanded ⊢
        obtain ⟨flow, z⟩ := expanded
        cases flow <;> exact hexpanded

end Exploration.Prompt
/-! ### Runs -/

variable [Waitlist W] [BEq S] [BEq P]

namespace Exploration

/-- Where a shutdown is requested, there is nothing more to iterate. -/
theorem iterate_of_requested {a : Analysis ω S P W} {x : Exploration ω S P W}
    (h : x.shutdown.requested = true) (limit : Nat) :
    iterate a (limit + 1) x =
      (some (if x.reached.hasWaiting then .error .interrupted else .ok .exhausted), x) := by
  rw [iterate, step_eq, h]
  cases x.reached.hasWaiting <;> rfl

/-- An iteration during which a shutdown is requested finds a pair that waits, and does not end
the run as exhausted. -/
theorem hasWaiting_of_requests {a : Analysis ω S P W} {x y : Exploration ω S P W}
    {ended : Option (Except Abort Termination)} (hquiet : x.shutdown.requested = false)
    (hstep : step a x = (ended, y)) (hrequested : y.shutdown.requested = true) :
    x.reached.hasWaiting = true ∧ ended ≠ some (.ok .exhausted) := by
  rw [step_eq, hquiet] at hstep
  cases hwaiting : x.reached.hasWaiting with
  | false =>
    rw [hwaiting] at hstep
    cases hstep
    rw [hquiet] at hrequested
    cases hrequested
  | true =>
    refine ⟨rfl, fun hexhausted => ?_⟩
    have hstill : (popNext x).2.shutdown = x.shutdown := rfl
    rw [hwaiting] at hstep
    simp only [Bool.not_true, Bool.false_eq_true, if_false] at hstep
    generalize popNext x = popped at hstep hstill
    obtain ⟨g, z⟩ := popped
    cases g with
    | none =>
      cases hstep
      simp only at hstill
      rw [hstill, hquiet] at hrequested
      cases hrequested
    | some g =>
      simp only at hstep
      generalize expand a g (z.note (.retrieved g)) = expanded at hstep
      obtain ⟨flow, z⟩ := expanded
      subst hexhausted
      cases flow <;> cases hstep

/-- A request is made during some iteration. If the run does not end with this, it ends with the
next, at the check point. -/
theorem exists_requesting_step {a : Analysis ω S P W} {limit : Nat} {x : Exploration ω S P W}
    (hquiet : x.shutdown.requested = false)
    (hrequested : (iterate a limit x).2.shutdown.requested = true) :
    ∃ n top ended y, n < limit ∧ iterate a n x = (none, top) ∧ top.shutdown.requested = false ∧
      step a top = (ended, y) ∧ y.shutdown.requested = true ∧
      iterate a limit x =
        (ended <|> if n + 1 = limit then none
          else some (if y.reached.hasWaiting then .error .interrupted else .ok .exhausted), y) := by
  induction limit generalizing x with
  | zero =>
    rw [iterate, hquiet] at hrequested
    cases hrequested
  | succ limit ih =>
    cases hstep : step a x with
    | mk ended z =>
      have hiterate : ∀ n, iterate a (n + 1) x =
          ended.elim (iterate a n z) fun result => (some result, z) := fun n => by
        rw [iterate, hstep]
        cases ended <;> rfl
      rw [hiterate] at hrequested ⊢
      cases hz : z.shutdown.requested with
      | true =>
        refine ⟨0, x, ended, z, Nat.succ_pos limit, rfl, hquiet, hstep, hz, ?_⟩
        cases ended with
        | some result => rfl
        | none =>
          cases limit with
          | zero => rfl
          | succ limit => exact iterate_of_requested hz limit
      | false =>
        cases ended with
        | some result =>
          simp only [Option.elim_some] at hrequested
          rw [hz] at hrequested
          cases hrequested
        | none =>
          obtain ⟨n, top, ended, y, hn, hbefore, htop, hlast, hy, heq⟩ := ih hz hrequested
          refine ⟨n + 1, top, ended, y, Nat.succ_lt_succ hn, ?_, htop, hlast, hy, ?_⟩
          · rw [hiterate]
            exact hbefore
          · simp only [Option.elim_none, heq, Nat.add_right_cancel_iff]

/-- What was recorded before the request requested nothing. -/
theorem Prompt.iterate_of_quiet (a : Analysis ω S P W) {base : List Called} {n : Nat}
    {x top : Exploration (ω × List Called) S P W} (h : Prompt base 0 x)
    (hbefore : iterate a.recorded n x = (none, top)) (htop : top.shutdown.requested = false) :
    Prompt base 0 top := by
  induction n generalizing x with
  | zero =>
    cases hbefore
    exact h
  | succ n ih =>
    have hstep := h.step a
    have hlasts := fun x => lasting_persists.iterate a.recorded n x
    unfold iterate at hbefore
    generalize Exploration.step a.recorded x = stepped at hstep hbefore
    obtain ⟨ended, z⟩ := stepped
    cases ended with
    | some result => cases hbefore
    | none =>
      simp only at hbefore
      have hz : z.shutdown.requested = false := Bool.eq_false_iff.2 fun hrequested => by
        have hstill := hlasts z hrequested
        rw [hbefore, htop] at hstill
        cases hstill
      exact ih (hstep.of_quiet hz) hbefore

/-- A run of which the record is known, and in which the call `c` was the first to request a
shutdown. It was made while the pair was expanded that was popped from `top`. -/
structure CancelledBy (a : Analysis ω S P Frontier) (limit : Nat) (x : Exploration ω S P Frontier)
    (n : Nat) (top : Exploration (ω × List Called) S P Frontier) (before : List Called) (c : Called)
    (after : List Called) : Prop where
  reaches : iterate a.recorded n (x.unrecorded.start .total).publishSeeds = (none, top)
  calls : (x.unrecorded.run a.recorded limit).2.memory.2 = top.memory.2 ++ before ++ c :: after
  first : ∀ d ∈ top.memory.2 ++ before, d.requests = false
  requests : c.requests = true
  /-- At most one call is made too late. -/
  prompt : after.length ≤ 1
  /-- No other pair is popped. -/
  pops : (x.run a limit).2.iterations = top.iterations + 1
  returns : n + 1 < limit → (x.run a limit).1.isSome = true
  /-- The run is not abandoned only if it halts, or if nothing is left to be abandoned. -/
  outcome : ∀ o, (x.run a limit).1 = some (.ok o) → o.termination = .halted ∨
    (o.termination = .exhausted ∧ (x.run a limit).2.reached.waiting = [])

theorem mind_publishSeeds_start (x : Exploration ω S P W) :
    (x.start .total).publishSeeds.mind = x.mind :=
  mind_publishSeeds (x.start .total)

/-- If a shutdown is requested before the run, its seeds are published, and that is all. -/
theorem run_of_requested (a : Analysis ω S P W) (limit : Nat) {x : Exploration ω S P W}
    (h : x.shutdown.requested = true) :
    (x.run a limit).2.mind = x.mind ∧ (x.run a limit).2.iterations = x.iterations ∧
      (0 < limit → (x.run a limit).1 =
        some (if x.reached.drain.hasWaiting then .error .interrupted
          else .ok ⟨a.status, .exhausted⟩)) := by
  have hmind := mind_publishSeeds_start x
  have hstart : (x.start .total).publishSeeds.shutdown.requested = true :=
    (congrArg (fun m => m.2.requested) hmind).trans h
  have hstays : (iterate a limit (x.start .total).publishSeeds).2 = (x.start .total).publishSeeds := by
    cases limit with
    | zero => rfl
    | succ limit => rw [iterate_of_requested hstart]
  obtain ⟨hresult, hsame, -, hcounts⟩ := run_eq_iterate a limit x
  rw [hstays] at hsame hcounts
  refine ⟨hsame.trans hmind, ?_, fun hlimit => ?_⟩
  · rw [iterations, hcounts, counts_publishSeeds, counts_start]
    rfl
  · obtain ⟨limit, rfl⟩ := Nat.exists_eq_add_of_lt hlimit
    rw [hresult, iterate_of_requested hstart, reached_publishSeeds, reached_start]
    cases x.reached.drain.hasWaiting <;> rfl

/-- What the record says of the iteration during which a shutdown was requested. -/
theorem exists_calls_of_requests (a : Analysis ω S P W) {n : Nat}
    {x top y : Exploration (ω × List Called) S P W} {ended : Option (Except Abort Termination)}
    (hnone : x.memory.2 = []) (hquiet : x.shutdown.requested = false)
    (hbefore : iterate a.recorded n x = (none, top)) (htop : top.shutdown.requested = false)
    (hstep : Exploration.step a.recorded top = (ended, y)) (hy : y.shutdown.requested = true) :
    ∃ before c after, y.memory.2 = top.memory.2 ++ before ++ c :: after ∧
      (∀ d ∈ top.memory.2 ++ before, d.requests = false) ∧ c.requests = true ∧ after.length ≤ 1 := by
  obtain ⟨calls, hcalls, hnever, -⟩ : Prompt [] 0 top :=
    Prompt.iterate_of_quiet a ⟨[], hnone, hquiet, Nat.le_refl 0⟩ hbefore htop
  have hempty : Prompt top.memory.2 0 top :=
    ⟨[], (List.append_nil _).symm, htop, Nat.le_refl 0⟩
  have hlast := hempty.step a
  rw [hstep] at hlast
  obtain ⟨more, hmore, hany, hprompt⟩ := hlast
  obtain ⟨before, c, hsplit, hc, hearlier⟩ := exists_first_request (hany.symm.trans hy)
  refine ⟨before, c, overrun more, ?_, List.forall_mem_append.2 ⟨fun d hd => ?_, hearlier⟩, hc, hprompt⟩
  · rw [List.append_assoc, ← hsplit]
    exact hmore
  · rw [hcalls, List.nil_append] at hd
    exact Bool.eq_false_iff.2 (List.any_eq_false.1 (hnever.symm.trans htop) d hd)

/-- If a call is the first to request a shutdown, not much happens after it. -/
theorem exists_cancelledBy (a : Analysis ω S P Frontier) (limit : Nat)
    {x : Exploration ω S P Frontier} (hquiet : x.shutdown.requested = false)
    (hrequested : (x.run a limit).2.shutdown.requested = true) :
    ∃ n top before c after, CancelledBy a limit x n top before c after := by
  have hmatches := overlaid_recorded_run a limit x
  obtain ⟨hresult, hmind, hreached, hcounts⟩ := run_eq_iterate a.recorded limit x.unrecorded
  have hseeded := mind_publishSeeds_start x.unrecorded
  have hstart : (x.unrecorded.start .total).publishSeeds.shutdown.requested = false :=
    (congrArg (fun m => m.2.requested) hseeded).trans hquiet
  have hend : (iterate a.recorded limit (x.unrecorded.start .total).publishSeeds).2.shutdown.requested
      = true := by
    rw [← hmatches.related.shutdown] at hrequested
    exact (congrArg (fun m => m.2.requested) hmind).symm.trans hrequested
  obtain ⟨n, top, ended, y, hn, hbefore, htop, hstep, hy, hiterate⟩ :=
    exists_requesting_step hstart hend
  rw [hiterate] at hresult hmind hreached hcounts
  obtain ⟨before, c, after, hcalls, hfirst, hc, hprompt⟩ :=
    exists_calls_of_requests a (congrArg (fun m => m.1.2) hseeded) hstart hbefore htop hstep hy
  obtain ⟨hwaiting, hexhausted⟩ := hasWaiting_of_requests htop hstep hy
  refine ⟨n, top, before, c, after, hbefore, ?_, hfirst, hc, hprompt, ?_, fun hlater => ?_,
    fun o ho => ?_⟩
  · exact (congrArg (fun m => m.1.2) hmind).trans hcalls
  · have hiterations := iterations_step a.recorded top
    rw [hstep, hwaiting, htop] at hiterations
    rw [iterations, ← hmatches.related.counts, hcounts]
    exact hiterations
  · rw [← hmatches.result, hresult]
    cases ended with
    | some result => rfl
    | none =>
      have hne : n + 1 ≠ limit := Nat.ne_of_lt hlater
      simp [hne]
  · rw [← hmatches.result, hresult] at ho
    cases ended with
    | some result =>
      cases result with
      | error e => cases ho
      | ok t =>
        cases ho
        cases t with
        | halted => exact .inl rfl
        | exhausted => exact absurd rfl hexhausted
    | none =>
      simp only [HOrElse.hOrElse, OrElse.orElse, Option.orElse] at ho
      split at ho
      · cases ho
      · split at ho
        · cases ho
        · rename_i hidle
          cases ho
          rw [← hmatches.related.reached, hreached]
          exact .inr ⟨rfl, Reached.Consistent.not_hasWaiting_iff.1 (Bool.eq_false_iff.2 hidle)⟩

end Exploration

/-- **A request for a shutdown takes effect after at most one more call.** If it is made before
the run, no operator is called. If a call is the first to make it, then at most one more call is
made, no other pair is popped, and the run is abandoned unless it halts or nothing is left that
waits. -/
theorem cancellation_prompt (a : Analysis ω S P Frontier) (limit : Nat)
    (x : Exploration ω S P Frontier) :
    Matches (Overlaid Prod.fst) (x.run a limit) (x.unrecorded.run a.recorded limit) ∧
    (x.shutdown.requested = true →
      (x.unrecorded.run a.recorded limit).2.memory.2 = [] ∧
      (x.run a limit).2.iterations = x.iterations ∧
      (0 < limit → (x.run a limit).1 =
        some (if x.reached.drain.hasWaiting then .error .interrupted
          else .ok ⟨a.status, .exhausted⟩))) ∧
    (x.shutdown.requested = false → (x.run a limit).2.shutdown.requested = true →
      ∃ n top before c after, CancelledBy a limit x n top before c after) := by
  refine ⟨overlaid_recorded_run a limit x, fun hrequested => ?_, exists_cancelledBy a limit⟩
  obtain ⟨hmind, -, -⟩ := run_of_requested a.recorded limit (x := x.unrecorded) hrequested
  obtain ⟨-, hiterations, hresult⟩ := run_of_requested a limit hrequested
  exact ⟨congrArg (fun m => m.1.2) hmind, hiterations, hresult⟩

/-! In the demonstration, the adjustment of the first successor requests a shutdown. The successor
is still compared with what is reached, and published, but not expanded. -/
namespace Counter

def impatient : Analysis Unit Interval Unit Frontier :=
  {analysis ⟨3, none⟩ false false with
    adjust := fun s p _ w => ⟨.ok (some ⟨s, p, .proceed⟩), w, some "enough", 0⟩ }

theorem impatient_cancelled :
    ((initial { bound := 3 }).unrecorded.run impatient.recorded 5).2.memory.2 =
        [⟨.transfer, false⟩, ⟨.adjust, true⟩, ⟨.stop, false⟩] ∧
      ((initial { bound := 3 }).run impatient 5).1 = some (.error .interrupted) ∧
      ∃ n top before c after,
        CancelledBy impatient 5 (initial { bound := 3 }) n top before c after := by
  obtain ⟨-, -, hcancelled⟩ := cancellation_prompt impatient 5 (initial { bound := 3 })
  exact ⟨by decide +kernel, by rfl, hcancelled rfl (by decide +kernel)⟩

end Counter
end Reachability
