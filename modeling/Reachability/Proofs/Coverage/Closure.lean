import Reachability.Proofs.Coverage.Expansion
import Reachability.Proofs.Counter.Interval

/-! What does not wait has been expanded.

A reached set is closed if whatever succeeds a pair at rest is covered. When a pair
leaves the frontier, it is the only one that may break this (`ClosedBut`). Its expansion
either goes through, and then its successors are covered, or it is cut short, and then
the pair waits again; merges that remove it, or bring back a pair expanded before, change
nothing about that. So every iteration keeps a reached set closed (`Stepped.closed`),
whatever failed in it, and so does every history. -/
namespace Reachability
variable {S P W α : Type} [AbstractState S]

namespace Reached

/-- What succeeds a pair at rest is covered. -/
def Closed (le : α → S → Prop) (succ : S → P → α → Prop) (r : Reached S P W) : Prop :=
  ∀ h s p, r.Rests h s p → ∀ x, succ s p x → r.Covers le x

/-- Closed, except for the pair that is being expanded. -/
def ClosedBut (h : Handle) (le : α → S → Prop) (succ : S → P → α → Prop)
    (r : Reached S P W) : Prop :=
  ∀ g s p, g ≠ h → r.Rests g s p → ∀ x, succ s p x → r.Covers le x

variable {le : α → S → Prop} {succ : S → P → α → Prop} {r r' : Reached S P W} {h : Handle}

theorem Closed.advances (hr : r.Closed le succ) (hadvance : Advances le r r') :
    r'.Closed le succ := by
  intro g s p hrests t ht
  exact hadvance.covers t (hr g s p (hadvance.rests g s p hrests) t ht)

theorem ClosedBut.advances (hr : r.ClosedBut h le succ) (hadvance : Advances le r r') :
    r'.ClosedBut h le succ := by
  intro g s p hg hrests t ht
  exact hadvance.covers t (hr g s p hg (hadvance.rests g s p hrests) t ht)

theorem ClosedBut.closed (hr : r.ClosedBut h le succ)
    (hexpanded : ∀ s p, r.Rests h s p → ∀ x, succ s p x → r.Covers le x) : r.Closed le succ := by
  intro g s p hrests t ht
  by_cases hg : g = h
  · subst hg
    exact hexpanded s p hrests t ht
  · exact hr g s p hg hrests t ht

variable [Waitlist W]

/-- A pair that waits is no exception. -/
theorem ClosedBut.enqueue (hr : r.ClosedBut h le succ) : (r.enqueue h).2.Closed le succ := by
  refine (hr.advances (advances_enqueue le r h)).closed fun s p hrests => ?_
  exact absurd rfl (rests_of_enqueue hrests).1

theorem Closed.pop (hr : r.Closed le succ) (e : r.pop = (some h, r')) :
    r'.ClosedBut h le succ := by
  intro g s p hg hrests t ht
  obtain ⟨entry, -, hview⟩ := pop_eq_some e
  unfold Rests at hrests
  rw [hview, if_neg hg] at hrests
  obtain ⟨u, hu, htu⟩ := hr g s p hrests t ht
  exact ⟨u, (mem_states_of_pop e).2 hu, htu⟩

omit [Waitlist W] in
theorem Closed.congr (hr : r.Closed le succ) (he : r'.arena = r.arena) : r'.Closed le succ := by
  intro g s p hrests t ht
  unfold Rests at hrests
  rw [he] at hrests
  obtain ⟨u, hu, htu⟩ := hr g s p hrests t ht
  refine ⟨u, ?_, htu⟩
  unfold states entries
  rw [he]
  exact hu

end Reached

variable [BEq S] [BEq P] [PartialEquivBEq S]

section Faithful
variable {le : α → S → Prop} {succ : S → P → α → Prop}

/-- Every iteration keeps a reached set closed, however it ends. -/
theorem Effect.Stepped.closed {ω : Type} {a : Analysis ω S P Frontier}
    {r r' : Reached S P Frontier} {ended : Option (Except Abort Termination)}
    (hle : Respects le) (ha : a.Faithful le) (hsucc : a.Represents le succ)
    (hr : r.Consistent) (hclosed : r.Closed le succ) (h : Stepped a r ended r') :
    r'.Closed le succ := by
  cases h with
  | exhausted idle => exact hclosed
  | interrupted => exact hclosed
  | drained popped => exact hclosed.congr (Reached.arena_of_pop_eq_none popped)
  | onward popped expansion =>
    obtain ⟨hadvance, hexpanded⟩ := expansion.advances hle ha (hr.of_pop popped) hsucc
    have hdone := hexpanded.resolve_left fun ⟨e, he⟩ => by cases he
    exact ((hclosed.pop popped).advances hadvance).closed hdone
  | halted popped expansion =>
    obtain ⟨hadvance, hexpanded⟩ := expansion.advances hle ha (hr.of_pop popped) hsucc
    have hdone := hexpanded.resolve_left fun ⟨e, he⟩ => by cases he
    exact ((hclosed.pop popped).advances hadvance).closed hdone
  | abandoned popped expansion =>
    have hadvance := (expansion.advances hle ha (hr.of_pop popped) hsucc).1
    exact ((hclosed.pop popped).advances hadvance).enqueue

/-- Whatever is done with faithful operators keeps the reached set closed. -/
theorem History.closed_of_faithful {admits : (ω : Type) → Analysis ω S P Frontier → Prop}
    {origin r : Reached S P Frontier} {seeds : List (S × P)} (hle : Respects le)
    (hadmits : ∀ ω (a : Analysis ω S P Frontier), admits ω a →
      a.Faithful le ∧ a.Represents le succ)
    (hconsistent : origin.Consistent) (hclosed : origin.Closed le succ)
    (hr : History admits origin seeds r) : r.Closed le succ := by
  have hboth : r.Consistent ∧ r.Closed le succ := by
    refine hr.induct (fun r => r.Consistent ∧ r.Closed le succ) ⟨hconsistent, hclosed⟩
      (fun r seeds hr => ?_) (fun r s p hr => ?_) ?_
    · exact ⟨hr.1.congr rfl rfl rfl, hr.2.congr rfl⟩
    · exact ⟨hr.1.add s p, hr.2.advances (Reached.advances_add le r s p)⟩
    · intro ω a ha r ended r' hr hstep
      obtain ⟨hfaithful, hrepresents⟩ := hadmits ω a ha
      exact ⟨hstep.evolves.consistent hr.1, hstep.closed hle hfaithful hrepresents hr.1 hr.2⟩
  exact hboth.2

omit [BEq S] [BEq P] [PartialEquivBEq S] in
/-- Where nothing is published, nothing is at rest. -/
theorem Reached.closed_ofOrder (o : TraversalOrder) :
    (Reached.ofOrder o : Reached S P Frontier).Closed le succ := by
  intro h s p hrests
  unfold Rests at hrests
  rw [Consistent.get?_ofOrder] at hrests
  cases hrests

end Faithful

variable {le : S → S → Prop} {succ : S → P → S → Prop}

/-- Whatever is done with conservative operators keeps the reached set closed. -/
theorem History.closed {admits : (ω : Type) → Analysis ω S P Frontier → Prop}
    {origin r : Reached S P Frontier} {seeds : List (S × P)} (hle : Subsumption le)
    (hadmits : ∀ ω (a : Analysis ω S P Frontier), admits ω a →
      a.Conservative le ∧ a.Represents le succ)
    (hconsistent : origin.Consistent) (hclosed : origin.Closed le succ)
    (hr : History admits origin seeds r) : r.Closed le succ :=
  hr.closed_of_faithful hle.respects
    (fun ω a ha => ⟨(hadmits ω a ha).1.faithful hle, (hadmits ω a ha).2⟩) hconsistent hclosed

/-- **What is published and does not wait has been expanded**: its successors are covered,
after any number of runs that were exhausted, halted or abandoned. -/
theorem exists_covering_of_not_waiting (hle : Subsumption le) {successors : S → P → List (S × P)}
    {o : TraversalOrder} {seeds : List (S × P)} {r : Reached S P Frontier}
    (hr : History (fun _ a => a.Computes successors ∧ a.Conservative le) (.ofOrder o) seeds r)
    {h : Handle} {s : S} {p : P} (published : r.get? h = some (s, p))
    (rests : r.isWaiting h = false) {x : S × P} (hx : x ∈ successors s p) :
    ∃ t ∈ r.states, le x.1 t := by
  have hclosed : r.Closed le (Succeeds successors) :=
    hr.closed hle (fun ω a ha => ⟨ha.2, ha.1.represents hle.refl⟩)
      (.ofOrder o) (Reached.closed_ofOrder o)
  obtain ⟨waiting, hentry⟩ := Reached.get?_eq_some_iff.1 published
  have hwaiting : waiting = false := by
    simpa [Reached.isWaiting, hentry] using rests
  subst hwaiting
  exact hclosed h s p hentry x.1 ⟨x.2, hx⟩

/-! In the demonstration, with merging: the run below is halted by the error state, with a
successor of the loop left. The start of the program is at rest, and its successor is
covered by what it was merged into. -/
namespace Counter

def split : Options :=
  { bound := 3, error := some 2, join := true }

theorem split_covers_entry :
    ∃ t ∈ (explore split).2.reached.states, Interval.domain.Below ⟨.loop, 0, 0⟩ t := by
  have hhistory : History
      (fun _ a => a.Computes (edges ⟨3, some 2⟩) ∧ a.Conservative Interval.domain.Below)
      (.ofOrder .breadthFirst) [(seed, ())] (explore split).2.reached :=
    .ran (.schedule .start seed ()) ⟨analysis_computes _ _ _, analysis_conservative _ _ _⟩
      (by decide +kernel)
  have hpublished : (explore split).2.reached.get? ⟨0, 0⟩ = some (seed, ()) := by decide +kernel
  have hrests : (explore split).2.reached.isWaiting ⟨0, 0⟩ = false := by decide +kernel
  have hentry : (⟨.loop, 0, 0⟩, ()) ∈ edges ⟨3, some 2⟩ seed () := List.mem_singleton_self _
  exact exists_covering_of_not_waiting Interval.subsumption hhistory hpublished hrests hentry

end Counter
end Reachability
