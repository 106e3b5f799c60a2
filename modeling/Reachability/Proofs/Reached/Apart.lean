import Reachability.Proofs.Reached.View

/-! Reached sets that keep states apart.

States that must not be published next to each other (equal ones, or ones at the same
location) are kept apart if no two handles name such states. Popping and removing cannot
break this; publishing can, unless what is published is either there already or related
to nothing that is. -/
namespace Reachability.Reached
variable {S P W : Type} [AbstractState S]

/-- Related states are published under one handle only. -/
def Apart (R : S → S → Prop) (r : Reached S P W) : Prop :=
  ∀ g h s t, r.state? g = some s → r.state? h = some t → R s t → g = h

variable {R : S → S → Prop} {r r' : Reached S P W}

/-- What only takes states away keeps the others apart. -/
theorem Apart.of_state? (hr : r.Apart R)
    (hkept : ∀ g s, r'.state? g = some s → r.state? g = some s) : r'.Apart R := by
  intro g h s t hs ht hst
  exact hr g h s t (hkept g s hs) (hkept h t ht) hst

/-- Where nothing is published, nothing is too close. -/
theorem Apart.of_get?_eq_none (hnone : ∀ h, r.arena.get? h = none) : r.Apart R := by
  intro g h s t hs
  obtain ⟨e, he, -⟩ := state?_eq_some_iff.1 hs
  rw [hnone] at he
  cases he

/-- Related states are published only if they are the same. -/
theorem Apart.eq_of_mem (hr : r.Apart R) {s t : S} (hs : s ∈ r.states) (ht : t ∈ r.states)
    (hst : R s t) : s = t := by
  obtain ⟨g, hg⟩ := mem_states_iff.1 hs
  obtain ⟨h, hh⟩ := mem_states_iff.1 ht
  have hsame := hr g h s t hg hh hst
  subst hsame
  exact Option.some.inj (hg.symm.trans hh)

theorem Apart.pairwise (hr : r.Apart R) : r.states.Pairwise fun s t => ¬ R s t := by
  unfold states entries
  rw [List.pairwise_map]
  refine (Arena.pairwise_toList r.arena).imp_of_mem ?_
  rintro ⟨g, e⟩ ⟨h, f⟩ hg hh hlt hrelated
  have hsame := hr g h e.state f.state
    (state?_eq_some_iff.2 ⟨e, (Arena.mem_toList_iff ..).1 hg, rfl⟩)
    (state?_eq_some_iff.2 ⟨f, (Arena.mem_toList_iff ..).1 hh, rfl⟩) hrelated
  simp only at hlt hsame
  rw [hsame] at hlt
  exact Nat.lt_irrefl _ hlt

variable [Waitlist W]

theorem Apart.pop (hr : r.Apart R) {popped : Option Handle} (e : r.pop = (popped, r')) :
    r'.Apart R :=
  hr.of_state? fun g s hs => by rwa [state?_of_pop e] at hs

theorem Apart.enqueue (hr : r.Apart R) (h : Handle) : (r.enqueue h).2.Apart R :=
  hr.of_state? fun g s hs => by rwa [state?_enqueue] at hs

theorem Apart.removeHandles (hr : r.Apart R) (gone : List Handle) :
    (gone.foldl removeHandle r).Apart R :=
  hr.of_state? fun _ _ hs => (state?_of_removeHandles hs).2

theorem Apart.publish (hr : r.Apart R) {s : S} (hnew : ∀ t ∈ r.states, ¬ R s t ∧ ¬ R t s) (p : P) :
    (r.publish s p).2.Apart R := by
  have hview : ∀ g t, (r.publish s p).2.state? g = some t →
      r.state? g = some t ∨ g = r.nextHandle s p ∧ t = s := fun g t ht => by
    simp only [state?, get?_publish] at ht
    split at ht
    · rename_i hg
      exact .inr ⟨hg, (Option.some.inj ht).symm⟩
    · exact .inl ht
  intro g h t u ht hu htu
  rcases hview g t ht with ht' | ⟨hg, rfl⟩
  · rcases hview h u hu with hu' | ⟨-, rfl⟩
    · exact hr g h t u ht' hu' htu
    · exact absurd htu (hnew t (mem_states_iff.2 ⟨g, ht'⟩)).2
  · rcases hview h u hu with hu' | ⟨hh, -⟩
    · exact absurd htu (hnew u (mem_states_iff.2 ⟨h, hu'⟩)).1
    · exact hg.trans hh.symm

theorem Apart.add [BEq S] [BEq P] (hr : r.Apart R) {s : S}
    (hnew : r.find? s = none → ∀ t ∈ r.states, ¬ R s t ∧ ¬ R t s) (p : P) :
    (r.add s p).2.Apart R := by
  cases hfind : r.find? s with
  | none =>
    rw [add_of_find?_eq_none hfind]
    exact hr.publish (hnew hfind) p
  | some h =>
    refine hr.of_state? fun g t ht => (state?_of_state?_add ht).resolve_right fun hfresh => ?_
    rw [hfind] at hfresh
    cases hfresh.1

end Reachability.Reached
