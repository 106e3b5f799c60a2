import Reachability.Proofs.Reached.View

/-! Coverage by a reached set, and the changes that never take it back.

States stand for things: for smaller states if they are compared by a subsumption order,
or for what they describe outside the analysis. A thing is covered if some published state
stands for it. Publishing keeps what is covered and so does replacing states by states
that stand for more; and neither brings a pair to rest, since what is published or gets
another precision waits. `Advances` says both at once, and composes along an expansion. -/
namespace Reachability
variable {S P W α : Type}

/-- An order in which equal states subsume each other. -/
structure Subsumption [BEq S] (le : S → S → Prop) : Prop where
  refl : ∀ s, le s s
  trans : ∀ {s t u}, le s t → le t u → le s u
  of_beq : ∀ {s t}, (s == t) = true → le s t

theorem Subsumption.equality [BEq S] [EquivBEq S] : Subsumption fun s t : S => (s == t) = true :=
  ⟨fun s => BEq.refl s, PartialEquivBEq.trans, id⟩

/-- Equal states stand for the same. -/
def Respects [BEq S] (le : α → S → Prop) : Prop :=
  ∀ x s t, (s == t) = true → le x s → le x t

theorem Subsumption.respects [BEq S] {le : S → S → Prop} (hle : Subsumption le) : Respects le :=
  fun _ _ _ hst hxs => hle.trans hxs (hle.of_beq hst)

namespace Reached
variable [AbstractState S]

/-- Some published state is above. -/
def Covers (r : Reached S P W) (le : α → S → Prop) (x : α) : Prop :=
  ∃ t ∈ r.states, le x t

/-- What was covered still is, and what is at rest was at rest before. -/
structure Advances (le : α → S → Prop) (r r' : Reached S P W) : Prop where
  covers : ∀ x, r.Covers le x → r'.Covers le x
  rests : ∀ h s p, r'.Rests h s p → r.Rests h s p

variable {le : α → S → Prop} {r r₁ r₂ : Reached S P W}

theorem Advances.refl (le : α → S → Prop) (r : Reached S P W) : Advances le r r :=
  ⟨fun _ h => h, fun _ _ _ h => h⟩

theorem Advances.trans (h₁ : Advances le r r₁) (h₂ : Advances le r₁ r₂) : Advances le r r₂ :=
  ⟨fun x h => h₂.covers x (h₁.covers x h), fun h s p hr => h₁.rests h s p (h₂.rests h s p hr)⟩

theorem Covers.of_le [BEq S] {le : S → S → Prop} (hle : Subsumption le) {s t : S}
    (ht : r.Covers le t) (hst : le s t) : r.Covers le s := by
  obtain ⟨u, hu, htu⟩ := ht
  exact ⟨u, hu, hle.trans hst htu⟩

variable [Waitlist W]

theorem advances_enqueue (le : α → S → Prop) (r : Reached S P W) (h : Handle) :
    Advances le r (r.enqueue h).2 := by
  refine ⟨fun s hs => ?_, fun g s p hrests => (rests_of_enqueue hrests).2⟩
  obtain ⟨t, ht, hst⟩ := hs
  exact ⟨t, mem_states_enqueue.2 ht, hst⟩

variable [BEq S] [BEq P]

theorem advances_add (le : α → S → Prop) (r : Reached S P W) (s : S) (p : P) :
    Advances le r (r.add s p).2 := by
  refine ⟨fun t ht => ?_, fun h t q hrests => rests_of_add hrests⟩
  obtain ⟨u, hu, htu⟩ := ht
  exact ⟨u, mem_states_add_of_mem hu s p, htu⟩

/-- What is published is covered, and what it stands for. -/
theorem covers_add [PartialEquivBEq S] (hle : Respects le) (r : Reached S P W) {x : α} {s : S}
    (hx : le x s) (p : P) : (r.add s p).2.Covers le x := by
  obtain ⟨t, ht, rfl | heq⟩ := exists_mem_states_add r s p
  · exact ⟨t, ht, hx⟩
  · exact ⟨t, ht, hle x s t (PartialEquivBEq.symm heq) hx⟩

theorem advances_addAll (le : α → S → Prop) (fresh : List (S × P)) (r : Reached S P W) :
    Advances le r (fresh.foldl (fun r (s, p) => (r.add s p).2) r) := by
  induction fresh generalizing r with
  | nil => exact .refl le r
  | cons pair rest ih => exact (advances_add le r pair.1 pair.2).trans (ih _)

theorem covers_addAll [PartialEquivBEq S] (hle : Respects le) {fresh : List (S × P)} {s : S}
    {p : P} (hmem : (s, p) ∈ fresh) {x : α} (hx : le x s) (r : Reached S P W) :
    (fresh.foldl (fun r (s, p) => (r.add s p).2) r).Covers le x := by
  induction fresh generalizing r with
  | nil => cases hmem
  | cons pair rest ih =>
    rcases List.mem_cons.1 hmem with rfl | hmem
    · exact (advances_addAll le rest _).covers x (covers_add hle r hx p)
    · exact ih hmem _

/-- Replacing published states by states that stand for what they did. -/
theorem advances_update [PartialEquivBEq S] (hle : Respects le) {gone : List Handle}
    {fresh : List (S × P)} (r : Reached S P W)
    (habove : ∀ h ∈ gone, ∀ old, r.state? h = some old → ∃ y ∈ fresh, ∀ x, le x old → le x y.1) :
    Advances le r (r.update gone fresh) := by
  have hadded := advances_addAll le fresh (gone.foldl removeHandle r)
  constructor
  · rintro x ⟨t, ht, hxt⟩
    obtain ⟨h, hh⟩ := mem_states_iff.1 ht
    by_cases hgone : h ∈ gone
    · obtain ⟨y, hy, hbelow⟩ := habove h hgone t hh
      exact covers_addAll hle hy (hbelow x hxt) _
    · have hkept : (gone.foldl removeHandle r).state? h = some t := by
        simpa only [state?, get?_removeHandles, if_neg hgone] using hh
      exact hadded.covers x ⟨t, mem_states_iff.2 ⟨h, hkept⟩, hxt⟩
  · intro h s p hrests
    exact (rests_of_removeHandles (hadded.rests h s p hrests)).2

end Reached
end Reachability
