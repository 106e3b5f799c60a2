import Reachability.Proofs.Reached.Consistent
import Reachability.Proofs.Run.History

/-! Runs change a reached set through its operations only.

Whatever part of a run is looked at, the reached set it leaves behind is one that some
sequence of operations leads to, and dealing with successors takes only the operations that
merge and publish, besides putting back the expanded pair. So what every operation keeps,
every history keeps; consistency is the case in point. -/
namespace Reachability
variable {ω S P W : Type} [AbstractState S] [BEq S] [BEq P]

/-- Some sequence of operations leads there. -/
def Reached.Evolves [Waitlist W] (r r' : Reached S P W) : Prop :=
  ∃ ops, r' = r.performAll ops

/-- Some sequence of operations of a certain kind leads there. -/
def Reached.EvolvesBy [Waitlist W] (kind : Operation S P → Prop) (r r' : Reached S P W) : Prop :=
  ∃ ops, (∀ op ∈ ops, kind op) ∧ r' = r.performAll ops

namespace Reached.Evolves
variable [Waitlist W] {r r₁ r₂ : Reached S P W}

theorem refl (r : Reached S P W) : Evolves r r :=
  ⟨[], rfl⟩

theorem trans (h₁ : Evolves r r₁) (h₂ : Evolves r₁ r₂) : Evolves r r₂ := by
  obtain ⟨ops, rfl⟩ := h₁
  obtain ⟨ops', rfl⟩ := h₂
  exact ⟨ops ++ ops', (performAll_append ..).symm⟩

theorem perform (r : Reached S P W) (op : Operation S P) : Evolves r (r.perform op).2 :=
  ⟨[op], rfl⟩

theorem addAll (fresh : List (S × P)) (r : Reached S P W) :
    Evolves r (fresh.foldl (fun r (s, p) => (r.add s p).2) r) := by
  induction fresh generalizing r with
  | nil => exact .refl r
  | cons pair rest ih => exact (perform r (.add pair.1 pair.2)).trans (ih _)

theorem drain (r : Reached S P W) : Evolves r r.drain :=
  (perform r .takeSeeds).trans (addAll r.seeds _)

end Reached.Evolves

namespace Reached.EvolvesBy
variable [Waitlist W] {kind : Operation S P → Prop} {r r₁ r₂ : Reached S P W}

theorem refl (kind : Operation S P → Prop) (r : Reached S P W) : EvolvesBy kind r r :=
  ⟨[], fun _ hop => (List.not_mem_nil hop).elim, rfl⟩

theorem trans (h₁ : EvolvesBy kind r r₁) (h₂ : EvolvesBy kind r₁ r₂) : EvolvesBy kind r r₂ := by
  obtain ⟨ops, hops, rfl⟩ := h₁
  obtain ⟨ops', hops', rfl⟩ := h₂
  exact ⟨ops ++ ops', List.forall_mem_append.2 ⟨hops, hops'⟩, (performAll_append ..).symm⟩

theorem perform {op : Operation S P} (r : Reached S P W) (hop : kind op) :
    EvolvesBy kind r (r.perform op).2 :=
  ⟨[op], List.forall_mem_singleton.2 hop, rfl⟩

theorem mono {others : Operation S P → Prop} (h : EvolvesBy kind r r₁)
    (hkind : ∀ op, kind op → others op) : EvolvesBy others r r₁ := by
  obtain ⟨ops, hops, rfl⟩ := h
  exact ⟨ops, fun op hop => hkind op (hops op hop), rfl⟩

theorem evolves (h : EvolvesBy kind r r₁) : Evolves r r₁ := by
  obtain ⟨ops, -, rfl⟩ := h
  exact ⟨ops, rfl⟩

end Reached.EvolvesBy

/-- The operations that deal with successors. -/
inductive Operation.Settling : Operation S P → Prop
  | merge (gone : List Handle) (fresh : List (S × P)) : Settling (.update gone fresh)
  | publish (s : S) (p : P) : Settling (.add s p)

/-- These, and the one that puts back the pair named `h`. -/
inductive Operation.Expanding (h : Handle) : Operation S P → Prop
  | settle {op : Operation S P} (settling : op.Settling) : Expanding h op
  | again : Expanding h (.enqueue h)

namespace Effect
open Reached Operation

variable [Waitlist W] {a : Analysis ω S P W} {r r' : Reached S P W}

theorem Merged.settling {s : S} {p : P} {abort : Option Abort} (h : Merged a s p r abort r') :
    EvolvesBy Settling r r' := by
  cases h with
  | spared separates => exact .refl _ r
  | scanned joins scan => exact .perform r (Settling.merge _ _)

theorem Settled.settling {s : S} {p : P} {after flow : Flow} (h : Settled a s p after r flow r') :
    EvolvesBy Settling r r' := by
  cases h with
  | undecided stop => exact .refl _ r
  | covered stop => exact .refl _ r
  | published stop => exact .perform r (Settling.publish s p)

theorem Treated.settling {s : S} {p : P} {flow : Flow} (h : Treated a s p r flow r') :
    EvolvesBy Settling r r' := by
  cases h with
  | interrupted => exact .refl _ r
  | unadjusted adjust => exact .refl _ r
  | pruned adjust => exact .refl _ r
  | halting adjust settle => exact settle.settling
  | unmerged adjust merge => exact merge.settling
  | proceeding adjust merge settle => exact merge.settling.trans settle.settling

theorem TreatedAll.expanding {h : Handle} {successors : List (S × P)} {flow : Flow}
    (ht : TreatedAll a h successors r flow r') : EvolvesBy (Expanding h) r r' := by
  have hsettling : ∀ {r r' : Reached S P W}, EvolvesBy Settling r r' →
      EvolvesBy (Expanding h) r r' := fun h => h.mono fun _ => .settle
  induction ht with
  | finished => exact .refl _ _
  | next first others ih => exact (hsettling first.settling).trans ih
  | haltedLast first => exact hsettling first.settling
  | halted first left => exact (hsettling first.settling).trans (.perform _ Expanding.again)
  | abandoned first => exact hsettling first.settling

theorem Merged.evolves {s : S} {p : P} {abort : Option Abort} (h : Merged a s p r abort r') :
    Evolves r r' :=
  h.settling.evolves

theorem Treated.evolves {s : S} {p : P} {flow : Flow} (h : Treated a s p r flow r') :
    Evolves r r' :=
  h.settling.evolves

theorem Attempted.evolves {s : S} {p : P} {verdict : Except Abort Bool}
    (h : Attempted a s p r verdict r') : Evolves r r' := by
  cases h with
  | absent installed => exact .refl r
  | made installed => exact ⟨_, rfl⟩

theorem Expanded.evolves {h : Handle} {flow : Flow} (hx : Expanded a h r flow r') :
    Evolves r r' := by
  cases hx with
  | nothing pair => exact .refl r
  | unattempted pair cover => exact cover.evolves
  | forced pair cover => exact cover.evolves
  | failed pair cover transfer => exact cover.evolves
  | expanded pair cover transfer treated => exact cover.evolves.trans treated.expanding.evolves

theorem Stepped.evolves {ended : Option (Except Abort Termination)} (h : Stepped a r ended r') :
    Evolves r r' := by
  have hpop : ∀ {popped r₁}, r.pop = (popped, r₁) → Evolves r r₁ := fun e => by
    have hperform := Evolves.perform r .pop
    simp only [Reached.perform, e] at hperform
    exact hperform
  cases h with
  | exhausted idle => exact .refl r
  | interrupted => exact .refl r
  | drained popped => exact hpop popped
  | onward popped expansion => exact (hpop popped).trans expansion.evolves
  | halted popped expansion => exact (hpop popped).trans expansion.evolves
  | abandoned popped expansion =>
    exact ((hpop popped).trans expansion.evolves).trans (.perform _ (.enqueue _))

end Effect

/-- Iterations that do not end the run change the reached set by operations, too. -/
theorem Exploration.evolves_iterate [Waitlist W] {a : Analysis ω S P W} {n : Nat}
    {x y : Exploration ω S P W} (e : iterate a n x = (none, y)) :
    Reached.Evolves x.reached y.reached := by
  induction n generalizing x with
  | zero =>
    cases e
    exact .refl _
  | succ n ih =>
    have hstep := Effect.step_effect a x
    unfold iterate at e
    generalize step a x = stepped at hstep e
    obtain ⟨ended, z⟩ := stepped
    cases ended with
    | some result => cases e
    | none => exact hstep.evolves.trans (ih e)

theorem Reached.Evolves.consistent {r r' : Reached S P Frontier} (h : Evolves r r')
    (hr : r.Consistent) : r'.Consistent := by
  obtain ⟨ops, rfl⟩ := h
  exact hr.performAll ops

theorem Reached.Consistent.drain {r : Reached S P Frontier} (hr : r.Consistent) :
    r.drain.Consistent :=
  Reached.drain_preserves (hr.congr rfl rfl rfl) fun _ s p hr => hr.add s p

/-- **After every history the reached set is consistent**, whatever the operators do,
forced covering included. -/
theorem History.consistent {admits : (ω : Type) → Analysis ω S P Frontier → Prop}
    {origin r : Reached S P Frontier} {seeds : List (S × P)} (horigin : origin.Consistent)
    (h : History admits origin seeds r) : r.Consistent := by
  refine h.induct Reached.Consistent horigin (fun r seeds hr => hr.congr rfl rfl rfl)
    (fun r s p hr => hr.add s p) ?_
  intro ω a ha r ended r' hr hstep
  exact hstep.evolves.consistent hr

end Reachability
