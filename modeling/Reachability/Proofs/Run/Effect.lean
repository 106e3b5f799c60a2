import Reachability.Exploration.Run

/-! What a run does to the reached set.

An exploration carries a journal, counters, timers and whatever the operators remember.
The relations here leave all of that out: each says which reached set a part of a run
can leave behind, and what the operators answered on the way, from whatever they
remembered at that moment (`w`). There is one relation for each part of a run, and one
constructor for each way the part can go. What a run keeps is proved by going through
the constructors. -/
namespace Reachability.Effect

variable {ω S P W : Type} [AbstractState S] [BEq S]

/-- A scan of candidates for merges: which of them changed into what, and the abort if
the scan was cut short. -/
inductive Scanned (a : Analysis ω S P W) (s : S) (p : P) (r : Reached S P W) :
    List Handle → List (Handle × S) → Option Abort → Prop
  | finished : Scanned a s p r [] [] none
  | interrupted {candidates : List Handle} :
      Scanned a s p r candidates [] (some .interrupted)
  | failed {h : Handle} {rest : List Handle} {old : S} {w : ω} {e : Abort}
      (state : r.state? h = some old) (merge : (a.merge.merge s old p w).result = .error e) :
      Scanned a s p r (h :: rest) [] (some e)
  | vanished {h : Handle} {rest : List Handle} {changed : List (Handle × S)}
      {abort : Option Abort} (state : r.state? h = none)
      (others : Scanned a s p r rest changed abort) : Scanned a s p r (h :: rest) changed abort
  | kept {h : Handle} {rest : List Handle} {old new : S} {w : ω} {changed : List (Handle × S)}
      {abort : Option Abort} (state : r.state? h = some old)
      (merge : (a.merge.merge s old p w).result = .ok new) (same : (new == old) = true)
      (others : Scanned a s p r rest changed abort) : Scanned a s p r (h :: rest) changed abort
  | changed {h : Handle} {rest : List Handle} {old new : S} {w : ω} {changed : List (Handle × S)}
      {abort : Option Abort} (state : r.state? h = some old)
      (merge : (a.merge.merge s old p w).result = .ok new) (differs : (new == old) = false)
      (others : Scanned a s p r rest changed abort) :
      Scanned a s p r (h :: rest) ((h, new) :: changed) abort

namespace Scanned
variable {a : Analysis ω S P W} {s : S} {p : P} {r : Reached S P W} {candidates : List Handle}
  {changed : List (Handle × S)} {abort : Option Abort}

/-- What changed is a candidate, and changed into what the merge answered. -/
theorem exists_merge (h : Scanned a s p r candidates changed abort) {c : Handle × S}
    (hc : c ∈ changed) :
    c.1 ∈ candidates ∧ ∃ old w, r.state? c.1 = some old ∧
      (a.merge.merge s old p w).result = .ok c.2 ∧ (c.2 == old) = false := by
  induction h with
  | finished => cases hc
  | interrupted => cases hc
  | failed state merge => cases hc
  | vanished state others ih => exact (ih hc).imp_left (List.mem_cons_of_mem _)
  | kept state merge same others ih => exact (ih hc).imp_left (List.mem_cons_of_mem _)
  | changed state merge differs others ih =>
    rcases List.mem_cons.1 hc with rfl | hc
    · exact ⟨List.mem_cons_self .., _, _, state, merge, differs⟩
    · exact (ih hc).imp_left (List.mem_cons_of_mem _)

/-- What was not changed by a scan that went through was merged with, to no effect. -/
theorem exists_kept (h : Scanned a s p r candidates changed none) {g : Handle}
    (hg : g ∈ candidates) (hkept : g ∉ changed.map Prod.fst) {old : S}
    (hold : r.state? g = some old) :
    ∃ w new, (a.merge.merge s old p w).result = .ok new ∧ (new == old) = true := by
  generalize habort : (none : Option Abort) = abort at h
  induction h with
  | finished => cases hg
  | interrupted => cases habort
  | failed state merge => cases habort
  | vanished state others ih =>
    rcases List.mem_cons.1 hg with rfl | hg
    · rw [hold] at state
      cases state
    · exact ih hg hkept habort
  | kept state merge same others ih =>
    rcases List.mem_cons.1 hg with rfl | hg
    · rw [hold, Option.some.injEq] at state
      subst state
      exact ⟨_, _, merge, same⟩
    · exact ih hg hkept habort
  | changed state merge differs others ih =>
    rw [List.map_cons, List.mem_cons, not_or] at hkept
    rcases List.mem_cons.1 hg with rfl | hg
    · exact absurd rfl hkept.1
    · exact ih hg hkept.2 habort

/-- Candidates change in turn. -/
theorem sublist (h : Scanned a s p r candidates changed abort) :
    (changed.map Prod.fst).Sublist candidates := by
  induction h with
  | finished => exact .slnil
  | interrupted => exact List.nil_sublist _
  | failed state merge => exact List.nil_sublist _
  | vanished state others ih => exact ih.cons _
  | kept state merge same others ih => exact ih.cons _
  | changed state merge differs others ih => exact ih.cons_cons _

end Scanned

variable [Waitlist W] [BEq P]

/-- The merges made for a successor. -/
inductive Merged (a : Analysis ω S P W) (s : S) (p : P) (r : Reached S P W) :
    Option Abort → Reached S P W → Prop
  | spared (separates : a.merge.separates = true) : Merged a s p r none r
  | scanned {changed : List (Handle × S)} {abort : Option Abort}
      (joins : a.merge.separates = false) (scan : Scanned a s p r (r.handlesAt s) changed abort) :
      Merged a s p r abort (r.update (changed.map Prod.fst) (changed.map fun c => (c.2, p)))

/-- A successor discarded because it is covered, or else published. Then the way to go
on is `after`. -/
inductive Settled (a : Analysis ω S P W) (s : S) (p : P) (after : Flow) (r : Reached S P W) :
    Flow → Reached S P W → Prop
  | undecided {w : ω} {e : Abort} (stop : (a.stop s (r.statesAt s) p w).result = .error e) :
      Settled a s p after r (.abort e) r
  | covered {w : ω} (stop : (a.stop s (r.statesAt s) p w).result = .ok true) :
      Settled a s p after r .onward r
  | published {w : ω} (stop : (a.stop s (r.statesAt s) p w).result = .ok false) :
      Settled a s p after r after (r.add s p).2

/-- One successor dealt with. -/
inductive Treated (a : Analysis ω S P W) (s : S) (p : P) (r : Reached S P W) :
    Flow → Reached S P W → Prop
  | interrupted : Treated a s p r (.abort .interrupted) r
  | unadjusted {w : ω} {e : Abort} (adjust : (a.adjust s p r w).result = .error e) :
      Treated a s p r (.abort e) r
  | pruned {w : ω} (adjust : (a.adjust s p r w).result = .ok none) : Treated a s p r .onward r
  | halting {w : ω} {t : S} {q : P} {flow : Flow} {r' : Reached S P W}
      (adjust : (a.adjust s p r w).result = .ok (some ⟨t, q, .halt⟩))
      (settle : Settled a t q .halt r flow r') : Treated a s p r flow r'
  | unmerged {w : ω} {t : S} {q : P} {e : Abort} {r' : Reached S P W}
      (adjust : (a.adjust s p r w).result = .ok (some ⟨t, q, .proceed⟩))
      (merge : Merged a t q r (some e) r') : Treated a s p r (.abort e) r'
  | proceeding {w : ω} {t : S} {q : P} {flow : Flow} {r₁ r₂ : Reached S P W}
      (adjust : (a.adjust s p r w).result = .ok (some ⟨t, q, .proceed⟩))
      (merge : Merged a t q r none r₁) (settle : Settled a t q .onward r₁ flow r₂) :
      Treated a s p r flow r₂

/-- The successors of the pair named `h` dealt with in turn. -/
inductive TreatedAll (a : Analysis ω S P W) (h : Handle) :
    List (S × P) → Reached S P W → Flow → Reached S P W → Prop
  | finished {r : Reached S P W} : TreatedAll a h [] r .onward r
  | next {s : S} {p : P} {rest : List (S × P)} {r r₁ r₂ : Reached S P W} {flow : Flow}
      (first : Treated a s p r .onward r₁) (others : TreatedAll a h rest r₁ flow r₂) :
      TreatedAll a h ((s, p) :: rest) r flow r₂
  | haltedLast {s : S} {p : P} {r r₁ : Reached S P W} (first : Treated a s p r .halt r₁) :
      TreatedAll a h [(s, p)] r .halt r₁
  | halted {s : S} {p : P} {rest : List (S × P)} {r r₁ : Reached S P W}
      (first : Treated a s p r .halt r₁) (left : rest ≠ []) :
      TreatedAll a h ((s, p) :: rest) r .halt (r₁.enqueue h).2
  | abandoned {s : S} {p : P} {rest : List (S × P)} {r r₁ : Reached S P W} {e : Abort}
      (first : Treated a s p r (.abort e) r₁) : TreatedAll a h ((s, p) :: rest) r (.abort e) r₁

/-- Forced covering asked about a pair. -/
inductive Attempted (a : Analysis ω S P W) (s : S) (p : P) (r : Reached S P W) :
    Except Abort Bool → Reached S P W → Prop
  | absent (installed : a.cover = none) : Attempted a s p r (.ok false) r
  | made {c : Covering ω S P (Reached S P W)} {w : ω} (installed : a.cover = some c) :
      Attempted a s p r (c.attempt s p r w).reply.result
        (r.performAll (c.attempt s p r w).operations)

/-- The pair named `h` expanded. -/
inductive Expanded (a : Analysis ω S P W) (h : Handle) (r : Reached S P W) :
    Flow → Reached S P W → Prop
  | nothing (pair : r.get? h = none) : Expanded a h r .onward r
  | unattempted {s : S} {p : P} {e : Abort} {r' : Reached S P W} (pair : r.get? h = some (s, p))
      (cover : Attempted a s p r (.error e) r') : Expanded a h r (.abort e) r'
  | forced {s : S} {p : P} {r' : Reached S P W} (pair : r.get? h = some (s, p))
      (cover : Attempted a s p r (.ok true) r') : Expanded a h r .onward r'
  | failed {s : S} {p : P} {w : ω} {e : Abort} {r' : Reached S P W}
      (pair : r.get? h = some (s, p)) (cover : Attempted a s p r (.ok false) r')
      (transfer : (a.transfer s p w).result = .error e) : Expanded a h r (.abort e) r'
  | expanded {s : S} {p : P} {w : ω} {successors : List (S × P)} {flow : Flow}
      {r₁ r₂ : Reached S P W} (pair : r.get? h = some (s, p))
      (cover : Attempted a s p r (.ok false) r₁)
      (transfer : (a.transfer s p w).result = .ok successors)
      (treated : TreatedAll a h successors r₁ flow r₂) : Expanded a h r flow r₂

/-- One iteration, and the result of the run if it ends with it. -/
inductive Stepped (a : Analysis ω S P W) (r : Reached S P W) :
    Option (Except Abort Termination) → Reached S P W → Prop
  | exhausted (idle : r.hasWaiting = false) : Stepped a r (some (.ok .exhausted)) r
  | interrupted : Stepped a r (some (.error .interrupted)) r
  | drained {r' : Reached S P W} (popped : r.pop = (none, r')) :
      Stepped a r (some (.ok .exhausted)) r'
  | onward {h : Handle} {r₁ r₂ : Reached S P W} (popped : r.pop = (some h, r₁))
      (expansion : Expanded a h r₁ .onward r₂) : Stepped a r none r₂
  | halted {h : Handle} {r₁ r₂ : Reached S P W} (popped : r.pop = (some h, r₁))
      (expansion : Expanded a h r₁ .halt r₂) : Stepped a r (some (.ok .halted)) r₂
  | abandoned {h : Handle} {r₁ r₂ : Reached S P W} {e : Abort} (popped : r.pop = (some h, r₁))
      (expansion : Expanded a h r₁ (.abort e) r₂) :
      Stepped a r (some (.error e)) (r₂.enqueue h).2

/-- Iterations one after the other, up to the result of the run. -/
inductive Iterated (a : Analysis ω S P W) :
    Reached S P W → Except Abort Termination → Reached S P W → Prop
  | ended {r r' : Reached S P W} {result : Except Abort Termination}
      (step : Stepped a r (some result) r') : Iterated a r result r'
  | more {r r₁ r₂ : Reached S P W} {result : Except Abort Termination}
      (step : Stepped a r none r₁) (rest : Iterated a r₁ result r₂) : Iterated a r result r₂

end Reachability.Effect
