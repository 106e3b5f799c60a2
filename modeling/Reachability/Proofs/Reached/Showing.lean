import Mathlib.Data.Set.Insert
import Reachability.Proofs.Reached.Distinct

/-! Reached sets seen from outside.

Where equal states are the same, no state is published twice, so a reached set is described by
two sets: the states that are published, and those of them that wait. Under which handles they
are published, and in which order they leave the frontier, is left out. Each operation is then
an insertion into these sets, or a removal from them. -/
namespace Reachability.Reached

open AbstractState (location)

variable {S P : Type} [AbstractState S] [BEq S] {r r' : Reached S P Frontier}
  {published waits : Set S} {h : Handle} {s : S}

/-- What is published, and which of it waits. -/
structure Shows (published waits : Set S) (r : Reached S P Frontier) : Prop where
  consistent : r.Consistent
  distinct : r.Distinct
  states : ∀ {s}, s ∈ r.states ↔ s ∈ published
  waits : ∀ {h s}, r.state? h = some s → (r.isWaiting h = true ↔ s ∈ waits)

namespace Shows

theorem ofOrder (o : TraversalOrder) : (ofOrder o : Reached S P Frontier).Shows ∅ ∅ where
  consistent := .ofOrder o
  distinct := .of_get?_eq_none (Consistent.get?_ofOrder o)
  states := by simp [Consistent.states_ofOrder]
  waits {h s} hs := by
    obtain ⟨e, he, -⟩ := state?_eq_some_iff.1 hs
    rw [Consistent.get?_ofOrder] at he
    cases he

/-- Seeds take no part. -/
theorem withSeeds (hr : r.Shows published waits) (seeds : List (S × P)) :
    {r with seeds}.Shows published waits where
  consistent := hr.consistent.congr rfl rfl rfl
  distinct := hr.distinct
  states := hr.states
  waits := hr.waits

theorem mem_published (hr : r.Shows published waits) (hs : r.state? h = some s) :
    s ∈ published :=
  hr.states.1 (mem_states_iff.2 ⟨h, hs⟩)

theorem exists_handle (hr : r.Shows published waits) (hs : s ∈ published) :
    ∃ h, r.state? h = some s :=
  mem_states_iff.1 (hr.states.2 hs)

theorem handle_unique [LawfulBEq S] (hr : r.Shows published waits) {g : Handle}
    (hg : r.state? g = some s) (hh : r.state? h = some s) : g = h :=
  hr.distinct g h s s hg hh BEq.rfl

theorem nodup_states [LawfulBEq S] (hr : r.Shows published waits) : r.states.Nodup :=
  hr.distinct.pairwise.imp fun hdiffers hst => hdiffers (beq_iff_eq.2 hst)

/-! ### The frontier -/

/-- Something waits unless no published state does. -/
theorem hasWaiting_iff (hr : r.Shows published waits) :
    r.hasWaiting = true ↔ ∃ s ∈ published, s ∈ waits := by
  rw [← Bool.not_eq_false, Consistent.not_hasWaiting_iff]
  constructor
  · intro hne
    obtain ⟨h, rest, hlist⟩ := List.exists_cons_of_ne_nil hne
    obtain ⟨e, he, hw⟩ := (hr.consistent.waits h).1 (by rw [hlist]; exact List.mem_cons_self ..)
    have hs : r.state? h = some e.state := state?_eq_some_iff.2 ⟨e, he, rfl⟩
    exact ⟨e.state, hr.mem_published hs, (hr.waits hs).1 (by simp [isWaiting, he, hw])⟩
  · rintro ⟨s, hs, hw⟩ hnil
    obtain ⟨h, hh⟩ := hr.exists_handle hs
    obtain ⟨e, he, -⟩ := state?_eq_some_iff.1 hh
    have hwaiting : e.waiting = true := by simpa [isWaiting, he] using (hr.waits hh).2 hw
    rw [hr.consistent.not_waiting_of_toList_eq_nil hnil he] at hwaiting
    cases hwaiting

/-- What is popped waited, and waits no longer. -/
theorem pop [LawfulBEq S] (hr : r.Shows published waits) (e : r.pop = (some h, r')) :
    ∃ s ∈ waits, r'.state? h = some s ∧ r'.Shows published (waits \ {s}) := by
  obtain ⟨entry, hentry, hview⟩ := pop_eq_some e
  have hs : r.state? h = some entry.state := state?_eq_some_iff.2 ⟨entry, hentry, rfl⟩
  have hwaited : entry.waiting = true := by
    obtain ⟨entry', hentry', hwaiting⟩ := (hr.consistent.waits h).1 (hr.consistent.mem_toList_of_pop e)
    rw [hentry, Option.some.injEq] at hentry'
    exact hentry' ▸ hwaiting
  refine ⟨entry.state, (hr.waits hs).1 (by simp [isWaiting, hentry, hwaited]),
    (state?_of_pop e h).trans hs, hr.consistent.of_pop e, Apart.pop hr.distinct e,
    (mem_states_of_pop e).trans hr.states, fun {g t} ht => ?_⟩
  rw [state?_of_pop e] at ht
  unfold isWaiting
  rw [hview]
  by_cases hg : g = h
  · subst hg
    rw [hs, Option.some.injEq] at ht
    simp [ht]
  · have hne : t ≠ entry.state := fun hts => hg (hr.handle_unique ht (hts ▸ hs))
    rw [if_neg hg]
    exact (hr.waits ht).trans (by simp [hne])

/-- Whatever is put into the frontier, nothing else is published. -/
theorem enqueue [LawfulBEq S] (hr : r.Shows published waits) (h : Handle) :
    ∃ waits, (r.enqueue h).2.Shows published waits := by
  cases hs : r.state? h with
  | none =>
    have hnone : r.arena.get? h = none := Option.map_eq_none_iff.1 hs
    exact ⟨waits, by rwa [enqueue_of_get?_eq_none hnone]⟩
  | some s =>
    refine ⟨insert s waits, hr.consistent.enqueue h, Apart.enqueue hr.distinct h,
      mem_states_enqueue.trans hr.states, fun {g t} ht => ?_⟩
    rw [state?_enqueue] at ht
    by_cases hg : g = h
    · subst hg
      rw [hs, Option.some.injEq] at ht
      exact iff_of_true (isWaiting_enqueue hs) (.inl ht.symm)
    · have hne : t ≠ s := fun hts => hg (hr.handle_unique ht (hts ▸ hs))
      rw [isWaiting_enqueue_of_ne r hg]
      exact (hr.waits ht).trans (by simp [hne])

/-! ### Publishing and removing -/

variable [BEq P]

/-- A state that is not published yet is published, and waits. -/
theorem add [LawfulBEq S] (hr : r.Shows published waits) (hnew : s ∉ published) (p : P) :
    (r.add s p).2.Shows (insert s published) (insert s waits) := by
  have hfind : r.find? s = none := by
    cases hfind : r.find? s with
    | none => rfl
    | some h =>
      obtain ⟨-, t, ht, hsame⟩ := find?_eq_some hfind
      exact absurd (eq_of_beq hsame ▸ hr.mem_published ht) hnew
  have hview := get?_publish r s p
  have hstate : ∀ g, (r.publish s p).2.state? g =
      if g = r.nextHandle s p then some s else r.state? g := fun g => by
    simp only [state?, hview]
    split <;> rfl
  have hdiffers : ∀ t ∈ r.states, ¬ (s == t) = true ∧ ¬ (t == s) = true :=
    hr.consistent.differs_of_find?_eq_none (fun _ _ h => eq_of_beq h ▸ rfl) hfind
  rw [add_of_find?_eq_none hfind]
  refine ⟨hr.consistent.publish s p, Apart.publish hr.distinct hdiffers p, fun {t} => ?_,
    fun {g t} ht => ?_⟩
  · rw [Set.mem_insert_iff, ← hr.states]
    simp only [mem_states_iff, hstate]
    constructor
    · rintro ⟨g, hg⟩
      split at hg
      · exact .inl (Option.some.inj hg).symm
      · exact .inr ⟨g, hg⟩
    · rintro (rfl | ⟨g, hg⟩)
      · exact ⟨r.nextHandle t p, if_pos rfl⟩
      · have hold : g ≠ r.nextHandle s p := fun heq => by
          rw [heq, state?, get?_nextHandle] at hg
          cases hg
        exact ⟨g, (if_neg hold).trans hg⟩
  · rw [hstate] at ht
    unfold isWaiting
    rw [hview]
    by_cases hg : g = r.nextHandle s p
    · rw [if_pos hg, Option.some.injEq] at ht
      rw [if_pos hg]
      exact iff_of_true rfl (.inl ht.symm)
    · rw [if_neg hg] at ht
      have hne : t ≠ s := fun hts => hnew (hts ▸ hr.mem_published ht)
      rw [if_neg hg]
      exact (hr.waits ht).trans (by simp [hne])

omit [BEq P] in
theorem removeHandle [LawfulBEq S] (hr : r.Shows published waits) (hs : r.state? h = some s) :
    (r.removeHandle h).Shows (published \ {s}) waits where
  consistent := hr.consistent.removeHandle h
  distinct := Apart.removeHandles hr.distinct [h]
  states {t} := by
    simp only [mem_states_iff, state?_removeHandle]
    rw [Set.mem_sdiff, Set.mem_singleton_iff, ← hr.states, mem_states_iff]
    constructor
    · rintro ⟨g, hg⟩
      split at hg
      · cases hg
      · rename_i hne
        exact ⟨⟨g, hg⟩, fun hts => hne (hr.handle_unique hg (hts ▸ hs))⟩
    · rintro ⟨⟨g, hg⟩, hne⟩
      have hgh : g ≠ h := fun heq => by
        rw [heq, hs, Option.some.injEq] at hg
        exact hne hg.symm
      exact ⟨g, (if_neg hgh).trans hg⟩
  waits {g t} ht := by
    rw [state?_removeHandle] at ht
    split at ht
    · cases ht
    · rename_i hg
      unfold isWaiting
      rw [get?_removeHandle, if_neg hg]
      exact hr.waits ht

/-- One state in place of another. -/
theorem update [LawfulBEq S] (hr : r.Shows published waits) (hs : r.state? h = some s) {t : S}
    (hnew : t ∉ published) (p : P) :
    (r.update [h] [(t, p)]).Shows (insert t (published \ {s})) (insert t waits) :=
  (hr.removeHandle hs).add (fun ht => hnew ht.1) p

end Shows
end Reachability.Reached
