import Reachability.Counter.Report
import Reachability.Proofs.Reached.Intact
import Reachability.Proofs.Run.Ending
import Reachability.Proofs.Run.Transcript

/-! Requests to halt, and what becomes of them.

A request to halt is made by the adjustment of a successor, at some moment of the run
(`Exploration.Reaches`). The next call is the stop operator's, for the adjusted pair among what is
published at its location then, and its answer decides (`HaltRequest.Answered`): the request is
ignored if the pair is covered, and else the run ends there. So in the transcript of a run
all requests are ignored ones (`Told`), but for one right at the end (`Ends`). -/
namespace Reachability

open Exploration

variable {ω S P W : Type} [AbstractState S] [Waitlist W] [BEq S] [BEq P]

/-- Some moment of a run, when successors of a pair are `left` to be dealt with. -/
inductive Exploration.Reaches (a : Analysis ω S P W) (x : Exploration ω S P W) (h : Handle)
    (source : S) : List (S × P) → Exploration ω S P W → Prop
  | computed {n : Nat} {p : P} {successors : List (S × P)} {v w y z : Exploration ω S P W}
      (iterated : iterate a n x = (none, v)) (waiting : v.reached.hasWaiting = true)
      (quiet : v.shutdown.requested = false) (popped : popNext v = (some h, w))
      (pair : w.reached.get? h = some (source, p))
      (uncovered : forceCover a source p ((w.note (.retrieved h)).note (.expanding source p)) =
        (.ok false, y))
      (transfer : y.timed .transfer (fun y => y.ask (a.transfer source p)) = (.ok successors, z)) :
      Reaches a x h source successors
        ((z.note (.succeeded h successors.length)).tally fun s =>
          {s with successors := s.successors + successors.length
                  maxSuccessors := max s.maxSuccessors successors.length})
  | next {s : S} {p : P} {left : List (S × P)} {y z : Exploration ω S P W}
      (before : Reaches a x h source ((s, p) :: left) y)
      (first : handleSuccessor a source s p y = (.onward, z)) : Reaches a x h source left z

/-- A request to halt: for which successor of which pair it was made, which successors were left,
and what the successor was adjusted to. -/
structure HaltRequest (ω S P W : Type) [AbstractState S] where
  handle : Handle
  source : S
  successor : S
  precision : P
  left : List (S × P)
  moment : Exploration (WithTranscript ω S P W) S P W
  state : S
  adjusted : P

namespace HaltRequest

/-- The call that made it. -/
def call (q : HaltRequest ω S P W) : Exchange S P W :=
  .adjust q.successor q.precision q.moment.reached (.ok (some ⟨q.state, q.adjusted, .halt⟩))

/-- The call that decides about it. -/
def inquiry (q : HaltRequest ω S P W) (answer : Except Abort Bool) : Exchange S P W :=
  .stop q.state (q.moment.reached.statesAt q.state) q.adjusted answer

/-- It is made in a run whose iterations begin with `x`. -/
structure MadeIn (a : Analysis ω S P W) (x : Exploration (WithTranscript ω S P W) S P W)
    (q : HaltRequest ω S P W) : Prop where
  moment : Reaches a.transcribed x q.handle q.source ((q.successor, q.precision) :: q.left) q.moment
  quiet : q.moment.shutdown.requested = false
  asked : (askAdjust a.transcribed q.source q.successor q.precision q.moment).1 =
    .ok (some ⟨q.state, q.adjusted, .halt⟩)

/-- How the run goes on after the answer. -/
def After (q : HaltRequest ω S P W) (z : Exploration (WithTranscript ω S P W) S P W) :
    Except Abort Bool → Flow → Prop
  | .error e, flow => flow = .abort e ∧ z.reached = q.moment.reached
  | .ok true, flow => flow = .onward ∧ z.reached = q.moment.reached ∧
      z.counts = {q.moment.counts with
        stops := q.moment.counts.stops + 1, coveredHalts := q.moment.counts.coveredHalts + 1}
  | .ok false, flow => flow = .halt ∧ z.reached = (q.moment.reached.add q.state q.adjusted).2

/-- It is decided about by the next call, and nothing else is asked for the successor. -/
structure Answered (a : Analysis ω S P W) (q : HaltRequest ω S P W) (answer : Except Abort Bool)
    (flow : Flow) (z : Exploration (WithTranscript ω S P W) S P W) : Prop where
  handled : handleSuccessor a.transcribed q.source q.successor q.precision q.moment = (flow, z)
  transcript : z.transcript = q.moment.transcript ++ [q.call, q.inquiry answer]
  after : q.After z answer flow

variable {a : Analysis ω S P W} {x : Exploration (WithTranscript ω S P W) S P W}
  {q : HaltRequest ω S P W}

theorem MadeIn.exists_answered (hq : q.MadeIn a x) : ∃ answer flow z, q.Answered a answer flow z := by
  obtain ⟨h, source, s, p, left, y, t, p'⟩ := q
  obtain ⟨-, hquiet, hasked⟩ := hq
  simp only at hquiet hasked
  have hhandled := handleSuccessor_eq a.transcribed source s p y
  rw [hquiet] at hhandled
  have htranscript := transcript_askAdjust a source s p y
  have hreached := reached_askAdjust a.transcribed source s p y
  have hcounts : (askAdjust a.transcribed source s p y).2.counts = y.counts := by
    rw [askAdjust, counts_timed, counts_ask, counts_start, counts_note]
  rw [hasked] at htranscript
  generalize askAdjust a.transcribed source s p y = asked at *
  obtain ⟨answer, u⟩ := asked
  simp only at hasked htranscript hreached hcounts
  subst hasked
  have hinquiry := transcript_isCovered a t p' u
  have hreached' := reached_isCovered a.transcribed t p' u
  have hcounts' := counts_isCovered a.transcribed t p' u
  simp only [Bool.false_eq_true, if_false, settleHalt] at hhandled
  generalize isCovered a.transcribed t p' u = covered at *
  obtain ⟨answer, v⟩ := covered
  simp only at hinquiry hreached' hcounts' hhandled
  rw [htranscript, hreached, List.append_assoc] at hinquiry
  cases answer with
  | error e => exact ⟨.error e, _, _, hhandled, hinquiry, rfl, hreached'.trans hreached⟩
  | ok covered =>
    cases covered with
    | true =>
      refine ⟨.ok true, _, _, hhandled, hinquiry, rfl, hreached'.trans hreached, ?_⟩
      rw [← hcounts, ← hcounts']
      rfl
    | false =>
      refine ⟨.ok false, _, _, hhandled, hinquiry, rfl, ?_⟩
      rw [← hreached, ← hreached']
      rfl

end HaltRequest

/-! ### Where the requests are -/

section Lists
variable {e : Exchange S P W} {l before after : List (Exchange S P W)}

omit [Waitlist W] [BEq S] [BEq P] in
/-- Nothing that halts was added, so it was there before. -/
theorem exists_of_append_calm {more : List (Exchange S P W)} (he : e.halts = true)
    (hcalm : ∀ c ∈ more, c.halts = false) (h : l ++ more = before ++ e :: after) :
    ∃ rest, l = before ++ e :: rest ∧ after = rest ++ more := by
  have hnot : e ∉ more := fun hmem => by
    rw [hcalm e hmem] at he
    cases he
  rcases List.append_eq_append_iff.1 h with ⟨mid, -, hmore⟩ | ⟨mid, hl, hrest⟩
  · exact absurd (hmore ▸ List.mem_append_right mid (List.mem_cons_self ..)) hnot
  · cases mid with
    | nil =>
      rw [List.nil_append] at hrest
      exact absurd (hrest ▸ List.mem_cons_self ..) hnot
    | cons c rest =>
      obtain ⟨rfl, rfl⟩ := List.cons.inj hrest
      exact ⟨rest, hl, rfl⟩

omit [Waitlist W] [BEq S] [BEq P] in
/-- What halts was there before, or it is the first of the two that were added. -/
theorem cases_of_append_pair {c d : Exchange S P W} (he : e.halts = true) (hd : d.halts = false)
    (h : l ++ [c, d] = before ++ e :: after) :
    (∃ rest, l = before ++ e :: rest ∧ after = rest ++ [c, d]) ∨
      before = l ∧ e = c ∧ after = [d] := by
  have hsplit : (l ++ [c]) ++ [d] = before ++ e :: after := by
    rw [List.append_assoc]
    exact h
  obtain ⟨rest, hl, rfl⟩ := exists_of_append_calm he (List.forall_mem_singleton.2 hd) hsplit
  rcases List.eq_nil_or_concat' rest with rfl | ⟨mid, c', rfl⟩
  · obtain ⟨hbefore, hc⟩ := List.append_inj' hl rfl
    exact .inr ⟨hbefore.symm, (List.cons.inj hc).1.symm, rfl⟩
  · rw [← List.cons_append, ← List.append_assoc] at hl
    obtain ⟨hbefore, hc⟩ := List.append_inj' hl rfl
    exact .inl ⟨mid, hbefore, by rw [← (List.cons.inj hc).1, List.append_assoc]; rfl⟩

end Lists

variable {a : Analysis ω S P W} {x : Exploration (WithTranscript ω S P W) S P W}

/-- All requests to halt in the transcript were made in the run, and ignored. -/
def Told (a : Analysis ω S P W) (x y : Exploration (WithTranscript ω S P W) S P W) : Prop :=
  ∀ before e after, y.transcript = before ++ e :: after → e.halts = true →
    ∃ q z more, HaltRequest.MadeIn a x q ∧ q.moment.transcript = before ∧ e = q.call ∧
      q.Answered a (.ok true) .onward z ∧ after = q.inquiry (.ok true) :: more

namespace Told
variable {y z : Exploration (WithTranscript ω S P W) S P W}

theorem of_nil (h : y.transcript = []) : Told a x y := by
  intro before e after hsplit
  rw [h] at hsplit
  simp at hsplit

theorem calm (hy : Told a x y) (hyz : Calm y z) : Told a x z := by
  obtain ⟨more, htranscript, hcalm⟩ := hyz
  intro before e after hsplit he
  rw [htranscript] at hsplit
  obtain ⟨rest, hbefore, rfl⟩ := exists_of_append_calm he hcalm hsplit
  obtain ⟨q, w, others, hmade, hmoment, hcall, hanswered, rfl⟩ := hy before e rest hbefore he
  exact ⟨q, w, others ++ more, hmade, hmoment, hcall, hanswered, rfl⟩

theorem ignored {q : HaltRequest ω S P W} (hq : q.MadeIn a x) (hy : Told a x q.moment)
    (hanswered : q.Answered a (.ok true) .onward z) : Told a x z := by
  intro before e after hsplit he
  rw [hanswered.transcript] at hsplit
  rcases cases_of_append_pair he rfl hsplit with ⟨rest, hbefore, rfl⟩ | ⟨rfl, rfl, rfl⟩
  · obtain ⟨q', w, others, hmade, hmoment, hcall, hanswered', rfl⟩ := hy before e rest hbefore he
    exact ⟨q', w, others ++ [q.call, q.inquiry (.ok true)], hmade, hmoment, hcall, hanswered', rfl⟩
  · exact ⟨q, z, [], hq, rfl, rfl, hanswered, rfl⟩

end Told

/-- What is published after a halt. The pair that was expanded waits again if successors are
left. -/
def HaltRequest.reachedAfter (q : HaltRequest ω S P W) : Reached S P W :=
  if q.left.isEmpty then (q.moment.reached.add q.state q.adjusted).2
  else ((q.moment.reached.add q.state q.adjusted).2.enqueue q.handle).2

/-- What the transcript says when part of a run has come to an end: all requests to halt were
ignored, but for the last call if it ended the run. -/
inductive Ends (a : Analysis ω S P W) (x : Exploration (WithTranscript ω S P W) S P W) :
    Option (Except Abort Termination) → Exploration (WithTranscript ω S P W) S P W → Prop
  | told {ended : Option (Except Abort Termination)} {z : Exploration (WithTranscript ω S P W) S P W}
      (told : Told a x z) (unhalted : ended ≠ some (.ok .halted)) : Ends a x ended z
  | undecided {q : HaltRequest ω S P W} {e : Abort} {z : Exploration (WithTranscript ω S P W) S P W}
      (made : q.MadeIn a x) (told : Told a x q.moment)
      (last : z.transcript = q.moment.transcript ++ [q.call, q.inquiry (.error e)]) :
      Ends a x (some (.error e)) z
  | halted {q : HaltRequest ω S P W} {z : Exploration (WithTranscript ω S P W) S P W}
      (made : q.MadeIn a x) (told : Told a x q.moment)
      (last : z.transcript = q.moment.transcript ++ [q.call, q.inquiry (.ok false)])
      (reached : z.reached = q.reachedAfter) : Ends a x (some (.ok .halted)) z

namespace Exploration
variable {h : Handle} {source s : S} {p : P} {left : List (S × P)}
  {y z : Exploration (WithTranscript ω S P W) S P W} {flow : Flow}

theorem settle_ne_halt (a : Analysis ω S P W) (s : S) (p : P) (x : Exploration ω S P W) :
    (settle a s p x).1 ≠ .halt := by
  unfold settle
  generalize isCovered a s p x = asked
  obtain ⟨answer, y⟩ := asked
  match answer with
  | .error e => simp
  | .ok true => simp
  | .ok false => simp

theorem mergeAndSettle_ne_halt (a : Analysis ω S P W) (s : S) (p : P) (x : Exploration ω S P W) :
    (mergeAndSettle a s p x).1 ≠ .halt := by
  unfold mergeAndSettle
  split
  · exact settle_ne_halt a s p x
  · generalize mergeInto a s p x = merged
    obtain ⟨abort, y⟩ := merged
    cases abort with
    | some e => simp
    | none => exact settle_ne_halt a s p y

/-- Only an adjustment requests a halt, and only such a request halts the run. -/
theorem calm_or_exists_request (hmoment : Reaches a.transcribed x h source ((s, p) :: left) y)
    (hhandled : handleSuccessor a.transcribed source s p y = (flow, z)) :
    (Calm y z ∧ flow ≠ .halt) ∨
      ∃ t q, HaltRequest.MadeIn a x ⟨h, source, s, p, left, y, t, q⟩ := by
  have heq := handleSuccessor_eq a.transcribed source s p y
  rw [hhandled] at heq
  cases hrequested : y.shutdown.requested with
  | true =>
    rw [hrequested] at heq
    cases heq
    exact .inl ⟨.of_eq rfl, by simp⟩
  | false =>
    rw [hrequested] at heq
    have htranscript := transcript_askAdjust a source s p y
    generalize hasked : askAdjust a.transcribed source s p y = asked at heq htranscript
    obtain ⟨answer, u⟩ := asked
    match answer with
    | .error e =>
      cases heq
      exact .inl ⟨.call htranscript rfl, by simp⟩
    | .ok none =>
      cases heq
      exact .inl ⟨.call htranscript rfl, by simp⟩
    | .ok (some ⟨t, q, .halt⟩) =>
      exact .inr ⟨t, q, hmoment, hrequested, congrArg Prod.fst hasked⟩
    | .ok (some ⟨t, q, .proceed⟩) =>
      have hcalm := (Calm.call htranscript rfl).trans (calm_mergeAndSettle a t q u)
      have hflow := mergeAndSettle_ne_halt a.transcribed t q u
      have hsettled : (flow, z) = mergeAndSettle a.transcribed t q u := heq
      rw [← hsettled] at hcalm hflow
      exact .inl ⟨hcalm, hflow⟩

theorem ends_handleSuccessors (hmoment : Reaches a.transcribed x h source left y)
    (hy : Told a x y) :
    Ends a x (handleSuccessors a.transcribed h source left y).1.ending
      (handleSuccessors a.transcribed h source left y).2 := by
  induction left generalizing y with
  | nil => exact .told hy (by simp [handleSuccessors, Flow.ending])
  | cons pair left ih =>
    obtain ⟨s, p⟩ := pair
    unfold handleSuccessors
    generalize hhandled : handleSuccessor a.transcribed source s p y = handled
    obtain ⟨flow, z⟩ := handled
    rcases calm_or_exists_request hmoment hhandled with ⟨hcalm, hflow⟩ | ⟨t, q, hmade⟩
    · have hz := hy.calm hcalm
      cases flow with
      | onward => exact ih (.next hmoment hhandled) hz
      | halt => exact absurd rfl hflow
      | abort e => exact .told hz (by simp [Flow.ending])
    · obtain ⟨answer, flow', z', hanswered⟩ := hmade.exists_answered
      have hsame := hhandled.symm.trans hanswered.handled
      cases hsame
      have hafter := hanswered.after
      match answer with
      | .error e =>
        obtain ⟨rfl, -⟩ := hafter
        exact .undecided hmade hy hanswered.transcript
      | .ok true =>
        obtain ⟨rfl, -⟩ := hafter
        exact ih (.next hmoment hhandled) (.ignored hmade hy hanswered)
      | .ok false =>
        obtain ⟨rfl, hreached⟩ := hafter
        refine .halted hmade hy ?_ ?_
        · cases left <;> exact hanswered.transcript
        · cases left with
          | nil => exact hreached
          | cons next others => exact congrArg (fun r => (r.enqueue h).2) hreached

/-- The iterations before this one did not end the run. -/
theorem ends_expand {n : Nat} {v w : Exploration (WithTranscript ω S P W) S P W}
    (hbefore : iterate a.transcribed n x = (none, v)) (hwaiting : v.reached.hasWaiting = true)
    (hquiet : v.shutdown.requested = false) (hpopped : popNext v = (some h, w))
    (hv : Told a x v) :
    Ends a x (expand a.transcribed h (w.note (.retrieved h))).1.ending
      (expand a.transcribed h (w.note (.retrieved h))).2 := by
  have hw : Told a x w := hv.calm (.of_eq (congrArg (fun y => y.2.transcript) hpopped.symm))
  unfold expand
  have hreached : (w.note (.retrieved h)).reached = w.reached := rfl
  rw [hreached]
  cases hpair : w.reached.get? h with
  | none => exact .told hw (by simp [Flow.ending])
  | some pair =>
    obtain ⟨s, p⟩ := pair
    simp only
    have hcover := calm_forceCover a s p ((w.note (.retrieved h)).note (.expanding s p))
    generalize huncovered : forceCover a.transcribed s p
      ((w.note (.retrieved h)).note (.expanding s p)) = covered at hcover ⊢
    obtain ⟨verdict, y⟩ := covered
    have hy : Told a x y := hw.calm hcover
    match verdict with
    | .error e => exact .told hy (by simp [Flow.ending])
    | .ok true => exact .told hy (by simp [Flow.ending])
    | .ok false =>
      simp only
      unfold expandBy
      have hasked := calm_transfer a s p y
      generalize htransfer : y.timed .transfer (fun y => y.ask (a.transcribed.transfer s p)) = asked
        at hasked ⊢
      obtain ⟨answer, z⟩ := asked
      have hz : Told a x z := hy.calm hasked
      cases answer with
      | error e => exact .told hz (by simp [Flow.ending])
      | ok successors =>
        exact ends_handleSuccessors
          (.computed hbefore hwaiting hquiet hpopped hpair huncovered htransfer) hz

theorem ends_step {n : Nat} {v : Exploration (WithTranscript ω S P W) S P W}
    (hbefore : iterate a.transcribed n x = (none, v)) (hv : Told a x v) :
    Ends a x (step a.transcribed v).1 (step a.transcribed v).2 := by
  rw [step_eq]
  cases hwaiting : v.reached.hasWaiting with
  | false => exact .told hv (by simp)
  | true =>
    cases hquiet : v.shutdown.requested with
    | true => exact .told hv (by simp)
    | false =>
      have hpopped' : (popNext v).2.transcript = v.transcript := rfl
      generalize hpopped : popNext v = popped at hpopped' ⊢
      obtain ⟨h, w⟩ := popped
      cases h with
      | none => exact .told (hv.calm (.of_eq hpopped')) (by simp)
      | some h =>
        have hends := ends_expand hbefore hwaiting hquiet hpopped hv
        simp only [Bool.not_true, Bool.false_eq_true, if_false]
        generalize expand a.transcribed h (w.note (.retrieved h)) = expanded at hends ⊢
        obtain ⟨flow, z⟩ := expanded
        cases flow with
        | onward => exact hends
        | halt => exact hends
        | abort e =>
          cases hends with
          | told htold hunhalted => exact .told htold hunhalted
          | undecided hmade htold hlast => exact .undecided hmade htold hlast

theorem ends_iterate {n : Nat} {v : Exploration (WithTranscript ω S P W) S P W}
    (hbefore : iterate a.transcribed n x = (none, v)) (hv : Told a x v) (limit : Nat) :
    Ends a x (iterate a.transcribed limit v).1 (iterate a.transcribed limit v).2 := by
  induction limit generalizing n v with
  | zero => exact .told hv (by simp [iterate])
  | succ limit ih =>
    have hends := ends_step hbefore hv
    have hmore := iterate_succ_of_none hbefore
    unfold iterate
    generalize step a.transcribed v = stepped at hends hmore ⊢
    obtain ⟨ended, z⟩ := stepped
    cases ended with
    | some result => exact hends
    | none =>
      cases hends with
      | told hz _ => exact ih hmore hz

end Exploration

/-- The run was halted at the request: the latest pair is the one that it was made for, and the
pair that was expanded waits if successors of it are left. -/
structure HaltRequest.HaltedAt (q : HaltRequest ω S P W) (r : Reached S P W) : Prop where
  latest : ∃ g t p, r.last = some g ∧ r.get? g = some (t, p) ∧ (t == q.state) = true ∧
    (p == q.adjusted) = true
  waits : q.left ≠ [] → r.get? q.handle ≠ none → q.handle ∈ r.waiting

/-- What the answer to a request makes of the run, and of the calls after it. -/
def HaltRequest.Decided (a : Analysis ω S P W) (x : Exploration (WithTranscript ω S P W) S P W)
    (q : HaltRequest ω S P W) (result : Option (Except Abort Outcome)) (r : Reached S P W)
    (more : List (Exchange S P W)) : Except Abort Bool → Prop
  | .ok true => ∃ z, q.Answered a (.ok true) .onward z ∧
      Reaches a.transcribed x q.handle q.source q.left z
  | .ok false => more = [] ∧ result = some (.ok ⟨a.status, .halted⟩) ∧ q.HaltedAt r
  | .error e => more = [] ∧ result = some (.error e)

namespace Ends
variable {ended : Option (Except Abort Termination)}
  {z : Exploration (WithTranscript ω S P W) S P W}

/-- A request is ignored, or it was among the last two calls. -/
theorem exists_request (h : Ends a x ended z) {before after : List (Exchange S P W)}
    {e : Exchange S P W} (hsplit : z.transcript = before ++ e :: after) (he : e.halts = true) :
    ∃ q : HaltRequest ω S P W, q.MadeIn a x ∧ q.moment.transcript = before ∧ e = q.call ∧
      ((∃ w more, q.Answered a (.ok true) .onward w ∧ after = q.inquiry (.ok true) :: more) ∨
        (∃ error, after = [q.inquiry (.error error)] ∧ ended = some (.error error)) ∨
        after = [q.inquiry (.ok false)] ∧ ended = some (.ok .halted) ∧
          z.reached = q.reachedAfter) := by
  have hearlier : ∀ {q' : HaltRequest ω S P W} {answer : Except Abort Bool}, Told a x q'.moment →
      (∃ rest, q'.moment.transcript = before ++ e :: rest ∧
        after = rest ++ [q'.call, q'.inquiry answer]) →
      ∃ q : HaltRequest ω S P W, q.MadeIn a x ∧ q.moment.transcript = before ∧ e = q.call ∧
        ∃ w more, q.Answered a (.ok true) .onward w ∧ after = q.inquiry (.ok true) :: more := by
    intro q' answer htold hrest
    obtain ⟨rest, hbefore, rfl⟩ := hrest
    obtain ⟨q, w, more, hmade, hmoment, hcall, hanswered, rfl⟩ := htold before e rest hbefore he
    exact ⟨q, hmade, hmoment, hcall, w, _, hanswered, rfl⟩
  cases h with
  | told htold hunhalted =>
    obtain ⟨q, w, more, hmade, hmoment, hcall, hanswered, rfl⟩ := htold before e after hsplit he
    exact ⟨q, hmade, hmoment, hcall, .inl ⟨w, more, hanswered, rfl⟩⟩
  | undecided hmade htold hlast =>
    rw [hlast] at hsplit
    rcases cases_of_append_pair he rfl hsplit with hrest | ⟨rfl, rfl, rfl⟩
    · obtain ⟨q, hmade, hmoment, hcall, hignored⟩ := hearlier htold hrest
      exact ⟨q, hmade, hmoment, hcall, .inl hignored⟩
    · exact ⟨_, hmade, rfl, rfl, .inr (.inl ⟨_, rfl, rfl⟩)⟩
  | halted hmade htold hlast hreached =>
    rw [hlast] at hsplit
    rcases cases_of_append_pair he rfl hsplit with hrest | ⟨rfl, rfl, rfl⟩
    · obtain ⟨q, hmade, hmoment, hcall, hignored⟩ := hearlier htold hrest
      exact ⟨q, hmade, hmoment, hcall, .inl hignored⟩
    · exact ⟨_, hmade, rfl, rfl, .inr (.inr ⟨rfl, rfl, hreached⟩)⟩

theorem halted_iff (h : Ends a x ended z) :
    ended = some (.ok .halted) ↔ ∃ before s p r t q after, z.transcript =
      before ++ .adjust s p r (.ok (some ⟨t, q, .halt⟩)) ::
        .stop t (r.statesAt t) q (.ok false) :: after := by
  constructor
  · intro hended
    cases h with
    | told _ hunhalted => exact absurd hended hunhalted
    | undecided _ _ _ => cases hended
    | halted _ _ hlast _ => exact ⟨_, _, _, _, _, _, [], hlast⟩
  · rintro ⟨before, s, p, r, t, q, after, hsplit⟩
    obtain ⟨req, -, -, hcall, hignored | hundecided | ⟨-, hended, -⟩⟩ := h.exists_request hsplit rfl
    · obtain ⟨w, more, -, hafter⟩ := hignored
      obtain ⟨-, -, -, hanswer⟩ := Exchange.stop.inj (List.cons.inj hafter).1
      cases hanswer
    · obtain ⟨error, hafter, -⟩ := hundecided
      obtain ⟨-, -, -, hanswer⟩ := Exchange.stop.inj (List.cons.inj hafter).1
      cases hanswer
    · exact hended

end Ends

/-! ### Halted runs -/

theorem HaltRequest.haltedAt [ReflBEq S] [ReflBEq P] (q : HaltRequest ω S P Frontier)
    (hconsistent : q.reachedAfter.Consistent) : q.HaltedAt q.reachedAfter := by
  obtain ⟨hlast, t, p, hpair, ht, hp⟩ := q.moment.reached.exists_pair_add q.state q.adjusted
  unfold reachedAfter at hconsistent ⊢
  cases hleft : q.left with
  | nil =>
    exact ⟨⟨_, t, p, hlast, hpair, ht, hp⟩, fun h => absurd hleft h⟩
  | cons next others =>
    rw [hleft] at hconsistent
    simp only [List.isEmpty_cons, Bool.false_eq_true, if_false] at hconsistent ⊢
    refine ⟨⟨_, t, p, (Reached.ends_enqueue _ _).2.trans hlast, ?_, ht, hp⟩, fun _ hpublished => ?_⟩
    · rwa [Reached.pair_enqueue]
    · rw [hconsistent.mem_waiting_iff]
      rw [Reached.pair_enqueue, Reached.get?] at hpublished
      cases hentry : (q.moment.reached.add q.state q.adjusted).2.arena.get? q.handle with
      | none =>
        rw [hentry] at hpublished
        exact absurd rfl hpublished
      | some e => exact Reached.isWaiting_enqueue (Reached.state?_eq_some_iff.2 ⟨e, hentry, rfl⟩)

/-- **A run halts exactly at a request that is not covered.** The transcript of a run has a call
of the adjustment that requests a halt and, as the next call, the stop operator's answer that the
adjusted pair is not covered by what is published at its location, if and only if the run is
halted. Each request is decided by the next call. If the pair is not covered, this is the last
call of all, the latest pair published equals the adjusted one, and the pair that was expanded
waits if successors of it are left and it is still published. If it is covered, nothing changes
for that successor but the counts, and the run goes on with the others. -/
theorem halts_at_uncovered_request [ReflBEq S] [ReflBEq P] (a : Analysis ω S P Frontier)
    (limit : Nat) {o : TraversalOrder} {x : Exploration ω S P Frontier}
    (hx : Reached.Evolves (.ofOrder o) x.reached) :
    Matches (Overlaid Prod.fst) (x.run a limit) (x.untranscribed.run a.transcribed limit) ∧
    ((x.run a limit).1 = some (.ok ⟨a.status, .halted⟩) ↔
      ∃ before s p r t q after, (x.untranscribed.run a.transcribed limit).2.transcript =
        before ++ .adjust s p r (.ok (some ⟨t, q, .halt⟩)) ::
          .stop t (r.statesAt t) q (.ok false) :: after) ∧
    ∀ before s p r t q after, (x.untranscribed.run a.transcribed limit).2.transcript =
        before ++ .adjust s p r (.ok (some ⟨t, q, .halt⟩)) :: after →
      ∃ req : HaltRequest ω S P Frontier, ∃ answer more,
        req.MadeIn a (x.untranscribed.start .total).publishSeeds ∧ req.moment.transcript = before ∧
        req.call = .adjust s p r (.ok (some ⟨t, q, .halt⟩)) ∧ after = req.inquiry answer :: more ∧
        req.Decided a (x.untranscribed.start .total).publishSeeds (x.run a limit).1
          (x.run a limit).2.reached more answer := by
  have hmatches := overlaid_transcribed_run a limit x
  obtain ⟨hrun, hmind, hreached, -⟩ := run_eq_iterate a.transcribed limit x.untranscribed
  have hconsistent : (x.run a limit).2.reached.Consistent := by
    obtain ⟨ops, hops⟩ := hx
    rw [reached_run, hops]
    exact (Reached.Consistent.performAll (.ofOrder o) ops).performAll _
  have hnothing : Told a (x.untranscribed.start .total).publishSeeds
      (x.untranscribed.start .total).publishSeeds :=
    .of_nil (transcript_congr (mind_publishSeeds _))
  have hends := ends_iterate (n := 0) rfl hnothing limit
  have hhalted : (x.run a limit).1 = some (.ok ⟨a.status, .halted⟩) ↔
      (iterate a.transcribed limit (x.untranscribed.start .total).publishSeeds).1 =
        some (.ok .halted) := by
    rw [← hmatches.result, run_ok_iff]
    exact and_iff_right rfl
  refine ⟨hmatches, ?_⟩
  rw [transcript_congr hmind]
  rw [hmatches.result] at hrun
  rw [hmatches.related.reached] at hreached
  generalize iterate a.transcribed limit (x.untranscribed.start .total).publishSeeds = iterated
    at hrun hreached hends hhalted ⊢
  obtain ⟨ended, z⟩ := iterated
  simp only at hrun hreached hends hhalted
  rw [hreached] at hconsistent ⊢
  have hresult : ∀ {result}, ended = some result → (x.run a limit).1 =
      some (result.map fun t => ⟨a.status, t⟩) := fun hended => by
    rw [hrun, hended]
    rfl
  constructor
  · rw [hhalted, hends.halted_iff]
  · intro before s p r t q after hsplit
    obtain ⟨req, hmade, hmoment, hcall, hcases⟩ := hends.exists_request hsplit rfl
    rcases hcases with ⟨w, more, hanswered, rfl⟩ | ⟨e, rfl, hended⟩ | ⟨rfl, hended, hafter⟩
    · exact ⟨req, .ok true, more, hmade, hmoment, hcall.symm, rfl, w, hanswered,
        .next hmade.moment hanswered.handled⟩
    · exact ⟨req, .error e, [], hmade, hmoment, hcall.symm, rfl, rfl, hresult hended⟩
    · rw [hafter] at hconsistent ⊢
      exact ⟨req, .ok false, [], hmade, hmoment, hcall.symm, rfl, rfl, hresult hended,
        req.haltedAt hconsistent⟩

end Reachability

/-! In the demonstration, with merging: the run below is halted by the error state, with a
successor of the loop left. -/
namespace Reachability.Counter

def errorAtTwo : Options :=
  { bound := 3, error := some 2, join := true }

def errorAtTwoTranscript : List (Exchange Interval Unit Frontier) :=
  ((initial errorAtTwo).untranscribed.run (analysis ⟨3, some 2⟩ true true).transcribed
    (limit errorAtTwo)).2.transcript

theorem errorAtTwo_halts_at_request :
    errorAtTwoTranscript.map Exchange.halts =
        [false, false, false, false, false, false, false, false, true, false] ∧
      ∃ req : HaltRequest Unit Interval Unit Frontier,
        errorAtTwoTranscript = req.moment.transcript ++ [req.call, req.inquiry (.ok false)] ∧
          req.HaltedAt (explore errorAtTwo).2.reached := by
  obtain ⟨-, hiff, hdecided⟩ := halts_at_uncovered_request (analysis ⟨3, some 2⟩ true true)
    (limit errorAtTwo) (o := .breadthFirst) (x := initial errorAtTwo) ⟨[.addInitial seed ()], rfl⟩
  have hhalted : (explore errorAtTwo).1 = some (.ok ⟨.soundAndPrecise, .halted⟩) := by
    decide +kernel
  obtain ⟨before, s, p, r, t, q, after, hsplit⟩ := hiff.1 hhalted
  obtain ⟨req, answer, more, -, hmoment, hcall, hinquiry, hafter⟩ := hdecided _ _ _ _ _ _ _ hsplit
  obtain ⟨-, -, -, hanswer⟩ := Exchange.stop.inj (List.cons.inj hinquiry).1
  subst hanswer
  obtain ⟨rfl, -, hhaltedAt⟩ := hafter
  refine ⟨by decide +kernel, req, ?_, hhaltedAt⟩
  rw [hmoment, hcall, ← hinquiry]
  exact hsplit

end Reachability.Counter
