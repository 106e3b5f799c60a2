import Reachability.Proofs.Reached.Apart
import Reachability.Proofs.Reached.Consistent

/-! No state is published twice.

Equal states share a location, so a state that equals a published one is found in the
partition of its location, and then it is not published again. -/
namespace Reachability.Reached

open AbstractState (location)

variable {S P W : Type} [AbstractState S] [BEq S]

/-- No two handles name equal states. -/
def Distinct (r : Reached S P W) : Prop :=
  r.Apart fun s t => (s == t) = true

/-- A state that is not found differs from all that are published, if these are listed at
their locations. -/
theorem differs_of_find?_eq_none [PartialEquivBEq S] {r : Reached S P W}
    (hlocation : ∀ s t : S, (s == t) = true → location s = location t) {s : S}
    (hlisted : ∀ h t, r.state? h = some t → location t = location s → h ∈ r.handlesAt s)
    (hnew : r.find? s = none) : ∀ t ∈ r.states, ¬ (s == t) = true ∧ ¬ (t == s) = true := by
  intro t ht
  have hdiffers : ¬ (t == s) = true := fun hsame => by
    obtain ⟨h, hh⟩ := mem_states_iff.1 ht
    rw [find?_eq_none hnew (hlisted h t hh (hlocation t s hsame)) hh] at hsame
    cases hsame
  exact ⟨fun hsame => hdiffers (PartialEquivBEq.symm hsame), hdiffers⟩

theorem Consistent.differs_of_find?_eq_none [PartialEquivBEq S] {r : Reached S P Frontier}
    (hlocation : ∀ s t : S, (s == t) = true → location s = location t) (hr : r.Consistent)
    {s : S} (hnew : r.find? s = none) : ∀ t ∈ r.states, ¬ (s == t) = true ∧ ¬ (t == s) = true :=
  Reached.differs_of_find?_eq_none hlocation
    (fun _ t ht hl => hr.mem_handlesAt_iff.2 ⟨t, ht, hl⟩) hnew

theorem Distinct.publish [PartialEquivBEq S] {r : Reached S P Frontier}
    (hlocation : ∀ s t : S, (s == t) = true → location s = location t) (hr : r.Consistent)
    (hdistinct : r.Distinct) {s : S} (hnew : r.find? s = none) (p : P) :
    (r.publish s p).2.Distinct :=
  Apart.publish hdistinct (hr.differs_of_find?_eq_none hlocation hnew) p

theorem Distinct.add [BEq P] [PartialEquivBEq S] {r : Reached S P Frontier}
    (hlocation : ∀ s t : S, (s == t) = true → location s = location t) (hr : r.Consistent)
    (hdistinct : r.Distinct) (s : S) (p : P) : (r.add s p).2.Distinct :=
  Apart.add hdistinct (hr.differs_of_find?_eq_none hlocation) p

end Reachability.Reached
