import Reachability.Proofs.Coverage.Advance
import Reachability.Proofs.Run.Unforced

/-! Expansions lose nothing.

The operators are conservative if none of them loses a state: a merge at one location only
replaces a state by one above it, a successor is called covered only if it is, and the
adjustment neither prunes nor lowers. All that matters of this is that they lose nothing
that a state stands for (`Faithful`), and for that a successor may as well be covered by
several states together. Then every part of an expansion advances the reached set: nothing
is uncovered and no pair comes to rest. An expansion that goes through covers all
the successors (`TreatedAll.advances`); one that is cut short leaves a pair that waits
again or is no longer published (`Expanded.advances`). -/
namespace Reachability

open AbstractState (location)

variable {ω S P W α : Type} [AbstractState S]

/-- A state is among the successors of a pair. -/
def Succeeds (successors : S → P → List (S × P)) (s : S) (p : P) (t : S) : Prop :=
  ∃ q, (t, q) ∈ successors s p

/-- The same states up to equality, in whatever order and number. -/
def SameStates [BEq S] (l m : List S) : Prop :=
  (∀ s ∈ l, ∃ t ∈ m, (s == t) = true) ∧ ∀ t ∈ m, ∃ s ∈ l, (t == s) = true

omit [AbstractState S] in
theorem SameStates.refl [BEq S] [ReflBEq S] (l : List S) : SameStates l l :=
  ⟨fun s hs => ⟨s, hs, BEq.refl s⟩, fun s hs => ⟨s, hs, BEq.refl s⟩⟩

namespace Analysis

/-- Operators that lose no state. -/
structure Conservative (le : S → S → Prop) (a : Analysis ω S P W) : Prop where
  merge : a.merge.separates = false → ∀ {s old : S} {p : P} {w : ω} {new : S},
    location s = location old → (a.merge.merge s old p w).result = .ok new → le old new
  stop : ∀ {s : S} {reached : List S} {p : P} {w : ω},
    (a.stop s reached p w).result = .ok true → ∃ t ∈ reached, le s t
  adjust : ∀ {s : S} {p : P} {r : Reached S P W} {w : ω} {adjusted : Option (Adjusted S P)},
    (a.adjust s p r w).result = .ok adjusted → ∃ x, adjusted = some x ∧ le s x.state
  cover : a.cover = none

/-- Operators that lose nothing that a state stands for. -/
structure Faithful (le : α → S → Prop) (a : Analysis ω S P W) : Prop where
  merge : a.merge.separates = false → ∀ {s old : S} {p : P} {w : ω} {new : S},
    location s = location old → (a.merge.merge s old p w).result = .ok new →
      ∀ x, le x old → le x new
  stop : ∀ {s : S} {reached : List S} {p : P} {w : ω},
    (∀ t ∈ reached, location t = location s) → (a.stop s reached p w).result = .ok true →
      ∀ x, le x s → ∃ t ∈ reached, le x t
  adjust : ∀ {s : S} {p : P} {r : Reached S P W} {w : ω} {adjusted : Option (Adjusted S P)},
    (a.adjust s p r w).result = .ok adjusted → ∃ y, adjusted = some y ∧ ∀ x, le x s → le x y.state
  cover : a.cover = none

theorem Conservative.faithful [BEq S] {le : S → S → Prop} {a : Analysis ω S P W}
    (ha : a.Conservative le) (hle : Subsumption le) : a.Faithful le where
  merge joins _ _ _ _ _ hloc hnew _ hx := hle.trans hx (ha.merge joins hloc hnew)
  stop := by
    intro s reached p w _ hstop x hx
    obtain ⟨t, ht, hst⟩ := ha.stop hstop
    exact ⟨t, ht, hle.trans hx hst⟩
  adjust := by
    intro s p r w adjusted hadjusted
    obtain ⟨y, hy, hsy⟩ := ha.adjust hadjusted
    exact ⟨y, hy, fun x hx => hle.trans hx hsy⟩
  cover := ha.cover

/-- Whenever it succeeds, the transfer relation returns the given list. -/
def Computes (successors : S → P → List (S × P)) (a : Analysis ω S P W) : Prop :=
  ∀ s p w l, (a.transfer s p w).result = .ok l → l = successors s p

/-- Whenever it succeeds, the transfer relation covers what is to succeed the pair. -/
def Represents (le : α → S → Prop) (succ : S → P → α → Prop) (a : Analysis ω S P W) : Prop :=
  ∀ s p w l, (a.transfer s p w).result = .ok l → ∀ x, succ s p x → ∃ y ∈ l, le x y.1

theorem Computes.represents {successors : S → P → List (S × P)} {a : Analysis ω S P W}
    {le : S → S → Prop} (hle : ∀ s, le s s) (ha : a.Computes successors) :
    a.Represents le (Succeeds successors) := by
  rintro s p w l hl t ⟨q, hq⟩
  rw [ha s p w l hl]
  exact ⟨(t, q), hq, hle t⟩

/-- Whenever it succeeds, the transfer relation yields the given states, whatever the
precision. -/
def Yields [BEq S] (succs : S → List S) (a : Analysis ω S P W) : Prop :=
  ∀ s p w l, (a.transfer s p w).result = .ok l → SameStates (l.map Prod.fst) (succs s)

theorem Yields.represents [BEq S] {succs : S → List S} {a : Analysis ω S P W} {le : S → S → Prop}
    (hle : ∀ {s t}, (s == t) = true → le s t) (ha : a.Yields succs) :
    a.Represents le fun s _ t => t ∈ succs s := by
  intro s p w l hl t ht
  obtain ⟨u, hu, htu⟩ := (ha s p w l hl).2 t ht
  obtain ⟨x, hx, rfl⟩ := List.mem_map.1 hu
  exact ⟨x, hx, hle htu⟩

end Analysis

namespace Effect
open Reached

variable [BEq S] [BEq P] {a : Analysis ω S P Frontier} {le : α → S → Prop}
  {succ : S → P → α → Prop} {r r' : Reached S P Frontier}

variable [PartialEquivBEq S]

theorem Merged.advances (hle : Respects le) (ha : a.Faithful le) (hr : r.Consistent) {s : S} {p : P}
    {abort : Option Abort} (h : Merged a s p r abort r') : Advances le r r' := by
  cases h with
  | spared separates => exact .refl le r
  | @scanned changed abort joins scan =>
    refine advances_update hle r fun h hmem old hold => ?_
    obtain ⟨c, hc, rfl⟩ := List.mem_map.1 hmem
    obtain ⟨hcandidate, old', w, hold', hmerge, -⟩ := scan.exists_merge hc
    rw [hold, Option.some.injEq] at hold'
    subst hold'
    have hloc := hr.location_of_mem_handlesAt hcandidate hold
    exact ⟨(c.2, p), List.mem_map.2 ⟨c, hc, rfl⟩, ha.merge joins hloc.symm hmerge⟩

theorem Settled.advances (hle : Respects le) (ha : a.Faithful le) (hr : r.Consistent) {s : S}
    {p : P} {after flow : Flow} (h : Settled a s p after r flow r') :
    Advances le r r' ∧ ((∃ e, flow = .abort e) ∨ ∀ x, le x s → r'.Covers le x) := by
  cases h with
  | undecided stop => exact ⟨.refl le r, .inl ⟨_, rfl⟩⟩
  | covered stop =>
    refine ⟨.refl le r, .inr fun x hx => ?_⟩
    have hlocated : ∀ t ∈ r.statesAt s, location t = location s := fun t ht =>
      (hr.mem_statesAt_iff.1 ht).2
    obtain ⟨t, ht, hxt⟩ := ha.stop hlocated stop x hx
    exact ⟨t, mem_states_of_mem_statesAt ht, hxt⟩
  | published stop =>
    exact ⟨advances_add le r s p, .inr fun x hx => covers_add hle r hx p⟩

/-- What a successor that was dealt with stands for is covered, unless that was cut short. -/
theorem Treated.advances (hle : Respects le) (ha : a.Faithful le) (hr : r.Consistent) {s : S}
    {p : P} {flow : Flow} (h : Treated a s p r flow r') :
    Advances le r r' ∧ ((∃ e, flow = .abort e) ∨ ∀ x, le x s → r'.Covers le x) := by
  cases h with
  | interrupted => exact ⟨.refl le r, .inl ⟨_, rfl⟩⟩
  | unadjusted adjust => exact ⟨.refl le r, .inl ⟨_, rfl⟩⟩
  | pruned adjust =>
    obtain ⟨y, hy, -⟩ := ha.adjust adjust
    cases hy
  | halting adjust settle =>
    obtain ⟨y, hy, hst⟩ := ha.adjust adjust
    cases hy
    obtain ⟨hadvance, hcovers⟩ := settle.advances hle ha hr
    exact ⟨hadvance, hcovers.imp_right fun ht x hx => ht x (hst x hx)⟩
  | unmerged adjust merge => exact ⟨merge.advances hle ha hr, .inl ⟨_, rfl⟩⟩
  | proceeding adjust merge settle =>
    obtain ⟨y, hy, hst⟩ := ha.adjust adjust
    cases hy
    obtain ⟨hadvance, hcovers⟩ := settle.advances hle ha (merge.evolves.consistent hr)
    exact ⟨(merge.advances hle ha hr).trans hadvance,
      hcovers.imp_right fun ht x hx => ht x (hst x hx)⟩

/-- All successors are covered, unless the run was abandoned or halted before the last;
in the latter case the expanded pair is not at rest. -/
theorem TreatedAll.advances (hle : Respects le) (ha : a.Faithful le) (hr : r.Consistent)
    {h : Handle} {successors : List (S × P)} {flow : Flow}
    (ht : TreatedAll a h successors r flow r') :
    Advances le r r' ∧ ((∃ e, flow = .abort e) ∨
      (∀ y ∈ successors, ∀ x, le x y.1 → r'.Covers le x) ∨ ∀ s p, ¬ r'.Rests h s p) := by
  induction ht with
  | finished => exact ⟨.refl le _, .inr (.inl fun y hy => (List.not_mem_nil hy).elim)⟩
  | next first others ih =>
    obtain ⟨hadvance, hfirst⟩ := first.advances hle ha hr
    obtain ⟨hrest, hothers⟩ := ih (first.evolves.consistent hr)
    have hcovers := hfirst.resolve_left fun ⟨e, he⟩ => by cases he
    refine ⟨hadvance.trans hrest, hothers.imp_right (Or.imp_left fun hall => ?_)⟩
    exact List.forall_mem_cons.2 ⟨fun x hx => hrest.covers x (hcovers x hx), hall⟩
  | haltedLast first =>
    obtain ⟨hadvance, hfirst⟩ := first.advances hle ha hr
    have hcovers := hfirst.resolve_left fun ⟨e, he⟩ => by cases he
    exact ⟨hadvance, .inr (.inl (List.forall_mem_singleton.2 hcovers))⟩
  | halted first left =>
    refine ⟨(first.advances hle ha hr).1.trans (advances_enqueue le _ h), .inr (.inr ?_)⟩
    intro s p hrests
    exact (rests_of_enqueue hrests).1 rfl
  | abandoned first => exact ⟨(first.advances hle ha hr).1, .inl ⟨_, rfl⟩⟩

/-- After an expansion that was not abandoned, the pair is not at rest or all that
succeeds it is covered. -/
theorem Expanded.advances (hle : Respects le) (ha : a.Faithful le) (hr : r.Consistent)
    (hsucc : a.Represents le succ) {h : Handle} {flow : Flow} (hx : Expanded a h r flow r') :
    Advances le r r' ∧ ((∃ e, flow = .abort e) ∨
      ∀ s p, r'.Rests h s p → ∀ x, succ s p x → r'.Covers le x) := by
  cases hx with
  | nothing pair =>
    refine ⟨.refl le r, .inr fun s p hrests => ?_⟩
    have hsome := get?_eq_some_iff.2 ⟨false, hrests⟩
    rw [pair] at hsome
    cases hsome
  | unattempted pair cover => cases (cover.of_absent ha.cover).1
  | forced pair cover => cases (cover.of_absent ha.cover).1
  | failed pair cover transfer =>
    obtain ⟨-, rfl⟩ := cover.of_absent ha.cover
    exact ⟨.refl le _, .inl ⟨_, rfl⟩⟩
  | expanded pair cover transfer treated =>
    obtain ⟨-, rfl⟩ := cover.of_absent ha.cover
    obtain ⟨hadvance, habandoned | hcovers | hout⟩ := treated.advances hle ha hr
    · exact ⟨hadvance, .inl habandoned⟩
    · refine ⟨hadvance, .inr fun s' p' hrests x hsuccessor => ?_⟩
      -- The pair is still the one that was expanded: what is at rest was at rest before.
      have hsame := get?_eq_some_iff.2 ⟨false, hadvance.rests h s' p' hrests⟩
      rw [pair, Option.some.injEq, Prod.mk.injEq] at hsame
      obtain ⟨rfl, rfl⟩ := hsame
      obtain ⟨y, hy, hxy⟩ := hsucc _ _ _ _ transfer x hsuccessor
      exact hcovers y hy x hxy
    · exact ⟨hadvance, .inr fun s p hrests => absurd hrests (hout s p)⟩

end Effect
end Reachability
