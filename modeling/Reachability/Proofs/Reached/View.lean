import Reachability.Arena.Lemmas
import Reachability.Reached.Operation

/-! What the operations of a reached set do to its entries.

`arena.get?` is the view: it gives the entry a handle names. Each operation is described
by the view afterwards, so that nobody else need open an operation to learn what it does
to the pairs. -/
namespace Reachability.Reached
variable {S P W : Type} [AbstractState S]

/-! ### Published states -/

theorem state?_eq_some_iff {r : Reached S P W} {h : Handle} {s : S} :
    r.state? h = some s ↔ ∃ e, r.arena.get? h = some e ∧ e.state = s := by
  simp [state?, Option.map_eq_some_iff]

theorem get?_eq_some_iff {r : Reached S P W} {h : Handle} {s : S} {p : P} :
    r.get? h = some (s, p) ↔ ∃ waiting, r.arena.get? h = some ⟨s, p, waiting⟩ := by
  cases e : r.arena.get? h with
  | none => simp [get?, e]
  | some entry =>
    obtain ⟨t, q, waiting⟩ := entry
    simp [get?, e]

theorem state?_of_get? {r : Reached S P W} {h : Handle} {s : S} {p : P}
    (hpair : r.get? h = some (s, p)) : r.state? h = some s := by
  obtain ⟨waiting, hentry⟩ := get?_eq_some_iff.1 hpair
  exact state?_eq_some_iff.2 ⟨_, hentry, rfl⟩

/-- The states of a reached set are those its handles name. -/
theorem mem_states_iff {r : Reached S P W} {s : S} :
    s ∈ r.states ↔ ∃ h, r.state? h = some s := by
  simp only [states, entries, List.mem_map, Prod.exists, Arena.mem_toList_iff, state?_eq_some_iff]

theorem mem_states_iff_get? {r : Reached S P W} {s : S} :
    s ∈ r.states ↔ ∃ h p, r.get? h = some (s, p) := by
  rw [mem_states_iff]
  constructor
  · rintro ⟨h, hh⟩
    obtain ⟨⟨_, p, waiting⟩, he, rfl⟩ := state?_eq_some_iff.1 hh
    exact ⟨h, p, get?_eq_some_iff.2 ⟨waiting, he⟩⟩
  · rintro ⟨h, p, hh⟩
    obtain ⟨waiting, he⟩ := get?_eq_some_iff.1 hh
    exact ⟨h, state?_eq_some_iff.2 ⟨_, he, rfl⟩⟩

theorem mem_statesAt_iff {r : Reached S P W} {s t : S} :
    t ∈ r.statesAt s ↔ ∃ h ∈ r.handlesAt s, r.state? h = some t := by
  simp [statesAt, List.mem_filterMap]

theorem mem_states_of_mem_statesAt {r : Reached S P W} {s t : S} (h : t ∈ r.statesAt s) :
    t ∈ r.states := by
  obtain ⟨g, -, hg⟩ := mem_statesAt_iff.1 h
  exact mem_states_iff.2 ⟨g, hg⟩

/-- What is found is published at the location, and equal to what was looked for. -/
theorem find?_eq_some [BEq S] {r : Reached S P W} {s : S} {h : Handle} (e : r.find? s = some h) :
    h ∈ r.handlesAt s ∧ ∃ t, r.state? h = some t ∧ (t == s) = true := by
  refine ⟨List.mem_of_find?_eq_some e, ?_⟩
  have hfound := List.find?_some e
  cases ht : r.state? h with
  | none => simp [ht] at hfound
  | some t => exact ⟨t, rfl, by simpa [ht] using hfound⟩

/-- What is not found is not published at the location. -/
theorem find?_eq_none [BEq S] {r : Reached S P W} {s t : S} {h : Handle} (e : r.find? s = none)
    (hmem : h ∈ r.handlesAt s) (ht : r.state? h = some t) : (t == s) = false := by
  have hnot := List.find?_eq_none.1 e h hmem
  simpa [ht] using hnot

/-! ### The view after an operation -/

theorem get?_setPrecision (r : Reached S P W) (h : Handle) (p : P) (g : Handle) :
    (r.setPrecision h p).arena.get? g =
      if g = h then (r.arena.get? h).map fun e => {e with precision := p}
      else r.arena.get? g :=
  Arena.get?_modify ..

/-- The handle a new pair is published under. -/
def nextHandle (r : Reached S P W) (s : S) (p : P) : Handle :=
  (r.arena.add { state := s, precision := p, waiting := false }).1

theorem get?_nextHandle (r : Reached S P W) (s : S) (p : P) :
    r.arena.get? (r.nextHandle s p) = none :=
  Arena.get?_add_fresh ..

variable [Waitlist W]

theorem get?_enqueue (r : Reached S P W) (h g : Handle) :
    (r.enqueue h).2.arena.get? g =
      if g = h then (r.arena.get? h).map fun e => {e with waiting := true}
      else r.arena.get? g := by
  unfold enqueue
  cases e : r.arena.get? h with
  | none =>
    by_cases hg : g = h
    · simp [hg, e]
    · simp [hg]
  | some entry =>
    by_cases hw : entry.waiting = true
    · by_cases hg : g = h
      · obtain ⟨s, p, waiting⟩ := entry
        simp only at hw
        simp [hg, e, hw]
      · simp [hw, hg]
    · simp [hw, Arena.get?_modify, e]

theorem enqueue_of_get?_eq_none {r : Reached S P W} {h : Handle} (hnone : r.arena.get? h = none) :
    (r.enqueue h).2 = r := by
  simp only [enqueue, hnone]

theorem isWaiting_enqueue_of_ne (r : Reached S P W) {h g : Handle} (hg : g ≠ h) :
    (r.enqueue h).2.isWaiting g = r.isWaiting g := by
  simp only [isWaiting, get?_enqueue, if_neg hg]

theorem isWaiting_enqueue {r : Reached S P W} {h : Handle} {s : S} (hs : r.state? h = some s) :
    (r.enqueue h).2.isWaiting h = true := by
  obtain ⟨e, he, -⟩ := state?_eq_some_iff.1 hs
  simp [isWaiting, get?_enqueue, he]

/-- A new pair waits under a new handle. -/
theorem get?_publish (r : Reached S P W) (s : S) (p : P) (g : Handle) :
    (r.publish s p).2.arena.get? g =
      if g = r.nextHandle s p then some ⟨s, p, true⟩ else r.arena.get? g := by
  simp only [publish, nextHandle, get?_enqueue]
  by_cases hg : g = (r.arena.add { state := s, precision := p, waiting := false }).1
  · simp [hg, Arena.get?_add_self]
  · simp [hg, Arena.get?_add_eq]

theorem lastState?_publish (r : Reached S P W) (s : S) (p : P) :
    (r.publish s p).2.lastState? = some s := by
  have hlast : (r.publish s p).2.last = some (r.nextHandle s p) := rfl
  rw [lastState?, hlast, Option.bind_some, state?, get?_publish, if_pos rfl]
  rfl

theorem get?_removeHandle (r : Reached S P W) (h g : Handle) :
    (r.removeHandle h).arena.get? g = if g = h then none else r.arena.get? g := by
  unfold removeHandle removeHandle?
  cases e : r.arena.remove? h with
  | none =>
    have hnone := Arena.remove?_eq_none_iff.1 e
    by_cases hg : g = h
    · simp [hg, hnone]
    · simp [hg]
  | some removed =>
    obtain ⟨entry, arena⟩ := removed
    exact Arena.get?_remove_eq e g

theorem get?_removeHandles (gone : List Handle) (r : Reached S P W) (g : Handle) :
    (gone.foldl removeHandle r).arena.get? g = if g ∈ gone then none else r.arena.get? g := by
  induction gone generalizing r with
  | nil => simp
  | cons h rest ih =>
    rw [List.foldl_cons, ih, get?_removeHandle]
    by_cases hg : g = h
    · simp [hg]
    · simp [hg]

omit [AbstractState S] in
/-- What a search for a live handle finds is live. -/
theorem contains_of_popLive {arena : Arena (Entry S P)} {n : Nat} {w w' : W} {h : Handle}
    (e : popLive arena n w = (some h, w')) : arena.contains h = true := by
  induction n generalizing w with
  | zero => cases e
  | succ n ih =>
    unfold popLive at e
    split at e
    · cases e
    · split at e
      · rename_i hlive
        cases e
        exact hlive
      · exact ih e

/-- The handle that leaves the frontier names a published pair, which now does not wait. -/
theorem pop_eq_some {r r' : Reached S P W} {h : Handle} (e : r.pop = (some h, r')) :
    ∃ entry, r.arena.get? h = some entry ∧
      ∀ g, r'.arena.get? g = if g = h then some {entry with waiting := false}
        else r.arena.get? g := by
  unfold pop at e
  split at e
  · rename_i k w hpop
    simp only [Prod.mk.injEq, Option.some.injEq] at e
    obtain ⟨rfl, rfl⟩ := e
    have hlive := contains_of_popLive hpop
    rw [Arena.contains_eq] at hlive
    obtain ⟨entry, hentry⟩ := Option.isSome_iff_exists.1 hlive
    exact ⟨entry, hentry, fun g => by simp [Arena.get?_modify, hentry]⟩
  · cases e

theorem arena_of_pop_eq_none {r r' : Reached S P W} (e : r.pop = (none, r')) :
    r'.arena = r.arena := by
  unfold pop at e
  split at e
  · cases e
  · cases e
    rfl

/-! ### Published states after an operation -/

omit [Waitlist W] in
theorem state?_setPrecision (r : Reached S P W) (h : Handle) (p : P) (g : Handle) :
    (r.setPrecision h p).state? g = r.state? g := by
  simp only [state?, get?_setPrecision]
  by_cases hg : g = h
  · simp [hg, Function.comp_def]
  · simp [hg]

theorem state?_removeHandle (r : Reached S P W) (h g : Handle) :
    (r.removeHandle h).state? g = if g = h then none else r.state? g := by
  simp only [state?, get?_removeHandle]
  split <;> rfl

theorem state?_enqueue (r : Reached S P W) (h g : Handle) :
    (r.enqueue h).2.state? g = r.state? g := by
  simp only [state?, get?_enqueue]
  by_cases hg : g = h
  · simp [hg, Function.comp_def]
  · simp [hg]

theorem pair_enqueue (r : Reached S P W) (h g : Handle) : (r.enqueue h).2.get? g = r.get? g := by
  simp only [Reached.get?, get?_enqueue]
  by_cases hg : g = h
  · simp [hg, Function.comp_def]
  · simp [hg]

theorem mem_states_enqueue {r : Reached S P W} {h : Handle} {s : S} :
    s ∈ (r.enqueue h).2.states ↔ s ∈ r.states := by
  simp only [mem_states_iff, state?_enqueue]

theorem state?_of_pop {r r' : Reached S P W} {popped : Option Handle} (e : r.pop = (popped, r'))
    (g : Handle) : r'.state? g = r.state? g := by
  cases popped with
  | none => simp only [state?, arena_of_pop_eq_none e]
  | some h =>
    obtain ⟨entry, hentry, hview⟩ := pop_eq_some e
    simp only [state?, hview]
    by_cases hg : g = h
    · simp [hg, hentry]
    · simp [hg]

theorem mem_states_of_pop {r r' : Reached S P W} {popped : Option Handle}
    (e : r.pop = (popped, r')) {s : S} : s ∈ r'.states ↔ s ∈ r.states := by
  simp only [mem_states_iff, state?_of_pop e]

theorem state?_of_removeHandles {r : Reached S P W} {gone : List Handle} {g : Handle} {s : S}
    (hs : (gone.foldl removeHandle r).state? g = some s) : g ∉ gone ∧ r.state? g = some s := by
  unfold state? at hs ⊢
  rw [get?_removeHandles] at hs
  split at hs
  · cases hs
  · rename_i hg
    exact ⟨hg, hs⟩

/-! ### Pairs at rest -/

/-- A handle names a pair that is published and does not wait. -/
def Rests (r : Reached S P W) (h : Handle) (s : S) (p : P) : Prop :=
  r.arena.get? h = some ⟨s, p, false⟩

theorem rests_of_enqueue {r : Reached S P W} {h g : Handle} {s : S} {p : P}
    (hrests : (r.enqueue h).2.Rests g s p) : g ≠ h ∧ r.Rests g s p := by
  unfold Rests at hrests ⊢
  rw [get?_enqueue] at hrests
  by_cases hg : g = h
  · rw [if_pos hg] at hrests
    cases he : r.arena.get? h <;> simp [he] at hrests
  · rw [if_neg hg] at hrests
    exact ⟨hg, hrests⟩

theorem rests_of_removeHandles {r : Reached S P W} {gone : List Handle} {g : Handle} {s : S} {p : P}
    (hrests : (gone.foldl removeHandle r).Rests g s p) : g ∉ gone ∧ r.Rests g s p := by
  unfold Rests at hrests ⊢
  rw [get?_removeHandles] at hrests
  split at hrests
  · cases hrests
  · rename_i hg
    exact ⟨hg, hrests⟩

/-! ### Publishing -/

variable [BEq S] [BEq P]

theorem add_of_find?_eq_none {r : Reached S P W} {s : S} (e : r.find? s = none) (p : P) :
    r.add s p = r.publish s p := by
  simp only [add, e]

/-- Publishing a state that is published already touches its entry only, and only if the
precision differs; then the entry waits. -/
theorem get?_add_of_find?_eq_some {r : Reached S P W} {s t : S} {h : Handle} {q : P}
    {waiting : Bool} (e : r.find? s = some h) (he : r.arena.get? h = some ⟨t, q, waiting⟩) (p : P)
    (g : Handle) :
    (r.add s p).2.arena.get? g =
      if g = h then some (if q != p then ⟨t, p, true⟩ else ⟨t, q, waiting⟩)
      else r.arena.get? g := by
  have hq : r.precision? h = some q := by simp [precision?, he]
  simp only [add, e, hq]
  by_cases hne : (q != p) = true
  · by_cases hg : g = h
    · simp [hne, hg, get?_enqueue, get?_setPrecision, he]
    · simp [hne, hg, get?_enqueue, get?_setPrecision]
  · by_cases hg : g = h
    · simp [hne, hg, he]
    · simp [hne, hg]

/-- What is published is the latest, or what equals it. -/
theorem exists_pair_add [ReflBEq S] [ReflBEq P] (r : Reached S P W) (s : S) (p : P) :
    (r.add s p).2.last = some (r.add s p).1 ∧ ∃ t q,
      (r.add s p).2.get? (r.add s p).1 = some (t, q) ∧ (t == s) = true ∧ (q == p) = true := by
  cases hfind : r.find? s with
  | none =>
    rw [add_of_find?_eq_none hfind]
    refine ⟨rfl, s, p, ?_, BEq.refl s, BEq.refl p⟩
    have hentry : (r.publish s p).2.arena.get? (r.publish s p).1 = some ⟨s, p, true⟩ := by
      rw [get?_publish]
      exact if_pos rfl
    exact get?_eq_some_iff.2 ⟨true, hentry⟩
  | some h =>
    obtain ⟨-, t, ht, hsame⟩ := find?_eq_some hfind
    obtain ⟨⟨t, q, waiting⟩, hentry, rfl⟩ := state?_eq_some_iff.1 ht
    have hhandle : (r.add s p).1 = h := by simp only [add, hfind]
    have hlast : (r.add s p).2.last = some h := by simp only [add, hfind]
    have hview := get?_add_of_find?_eq_some hfind hentry p h
    rw [if_pos rfl] at hview
    rw [hhandle]
    refine ⟨hlast, ?_⟩
    cases hdiffers : q != p with
    | true =>
      rw [hdiffers] at hview
      exact ⟨t, p, get?_eq_some_iff.2 ⟨true, hview⟩, hsame, BEq.refl p⟩
    | false =>
      rw [hdiffers] at hview
      exact ⟨t, q, get?_eq_some_iff.2 ⟨waiting, hview⟩, hsame, by simpa [bne] using hdiffers⟩

/-- A published state stays published under its handle. -/
theorem state?_add_of_eq_some {r : Reached S P W} {h : Handle} {t : S} (ht : r.state? h = some t)
    (s : S) (p : P) : (r.add s p).2.state? h = some t := by
  obtain ⟨e, he, rfl⟩ := state?_eq_some_iff.1 ht
  rw [state?_eq_some_iff]
  cases hfind : r.find? s with
  | none =>
    have hne : h ≠ r.nextHandle s p := fun heq => by
      rw [heq, get?_nextHandle] at he
      cases he
    exact ⟨e, by rw [add_of_find?_eq_none hfind, get?_publish, if_neg hne, he], rfl⟩
  | some k =>
    obtain ⟨-, u, hu, -⟩ := find?_eq_some hfind
    obtain ⟨⟨u, q, waiting⟩, hk, rfl⟩ := state?_eq_some_iff.1 hu
    rw [get?_add_of_find?_eq_some hfind hk]
    by_cases hh : h = k
    · subst hh
      rw [he, Option.some.injEq] at hk
      subst hk
      rw [if_pos rfl]
      split <;> exact ⟨_, rfl, rfl⟩
    · rw [if_neg hh]
      exact ⟨e, he, rfl⟩

theorem mem_states_add_of_mem {r : Reached S P W} {t : S} (ht : t ∈ r.states) (s : S) (p : P) :
    t ∈ (r.add s p).2.states := by
  obtain ⟨h, hh⟩ := mem_states_iff.1 ht
  exact mem_states_iff.2 ⟨h, state?_add_of_eq_some hh s p⟩

/-- What is published afterwards was published before, unless it is the new state under a
new handle. -/
theorem state?_of_state?_add {r : Reached S P W} {s t : S} {p : P} {h : Handle}
    (ht : (r.add s p).2.state? h = some t) :
    r.state? h = some t ∨ r.find? s = none ∧ h = r.nextHandle s p ∧ t = s := by
  obtain ⟨e, he, rfl⟩ := state?_eq_some_iff.1 ht
  simp only [state?_eq_some_iff]
  cases hfind : r.find? s with
  | none =>
    rw [add_of_find?_eq_none hfind, get?_publish] at he
    split at he
    · rename_i hnew
      cases he
      exact .inr ⟨rfl, hnew, rfl⟩
    · exact .inl ⟨e, he, rfl⟩
  | some k =>
    obtain ⟨-, u, hu, -⟩ := find?_eq_some hfind
    obtain ⟨⟨u, q, waiting⟩, hk, rfl⟩ := state?_eq_some_iff.1 hu
    rw [get?_add_of_find?_eq_some hfind hk] at he
    left
    split at he
    · rename_i hh
      rw [hh]
      refine ⟨_, hk, ?_⟩
      split at he <;> cases he <;> rfl
    · exact ⟨e, he, rfl⟩

theorem mem_states_of_mem_states_add {r : Reached S P W} {s t : S} {p : P}
    (ht : t ∈ (r.add s p).2.states) : t ∈ r.states ∨ t = s := by
  obtain ⟨h, hh⟩ := mem_states_iff.1 ht
  rcases state?_of_state?_add hh with hh | ⟨-, -, rfl⟩
  · exact .inl (mem_states_iff.2 ⟨h, hh⟩)
  · exact .inr rfl

theorem mem_states_of_mem_states_addAll {fresh : List (S × P)} {r : Reached S P W} {t : S}
    (ht : t ∈ (fresh.foldl (fun r (s, p) => (r.add s p).2) r).states) :
    t ∈ r.states ∨ ∃ x ∈ fresh, t = x.1 := by
  induction fresh generalizing r with
  | nil => exact .inl ht
  | cons pair rest ih =>
    rcases ih ht with hadded | ⟨x, hx, rfl⟩
    · rcases mem_states_of_mem_states_add hadded with hbefore | rfl
      · exact .inl hbefore
      · exact .inr ⟨pair, List.mem_cons_self .., rfl⟩
    · exact .inr ⟨x, List.mem_cons_of_mem _ hx, rfl⟩

/-- Replacing states publishes nothing but the given ones. -/
theorem mem_states_of_mem_states_update {r : Reached S P W} {gone : List Handle}
    {fresh : List (S × P)} {t : S} (ht : t ∈ (r.update gone fresh).states) :
    t ∈ r.states ∨ ∃ x ∈ fresh, t = x.1 := by
  rcases mem_states_of_mem_states_addAll ht with hkept | hfresh
  · obtain ⟨h, hh⟩ := mem_states_iff.1 hkept
    exact .inl (mem_states_iff.2 ⟨h, (state?_of_removeHandles hh).2⟩)
  · exact .inr hfresh

/-- A published state is there afterwards, or one that equals it. -/
theorem exists_mem_states_add (r : Reached S P W) (s : S) (p : P) :
    ∃ t ∈ (r.add s p).2.states, t = s ∨ (t == s) = true := by
  cases hfind : r.find? s with
  | none =>
    refine ⟨s, mem_states_iff.2 ⟨r.nextHandle s p, state?_eq_some_iff.2 ⟨⟨s, p, true⟩, ?_, rfl⟩⟩,
      .inl rfl⟩
    rw [add_of_find?_eq_none hfind, get?_publish, if_pos rfl]
  | some k =>
    obtain ⟨-, t, ht, heq⟩ := find?_eq_some hfind
    exact ⟨t, mem_states_iff.2 ⟨k, state?_add_of_eq_some ht s p⟩, .inr heq⟩

/-- Publishing brings nothing to rest. -/
theorem rests_of_add {r : Reached S P W} {s t : S} {p q : P} {g : Handle}
    (hrests : (r.add s p).2.Rests g t q) : r.Rests g t q := by
  unfold Rests at hrests ⊢
  cases hfind : r.find? s with
  | none =>
    rw [add_of_find?_eq_none hfind, get?_publish] at hrests
    split at hrests
    · cases hrests
    · exact hrests
  | some k =>
    obtain ⟨-, u, hu, -⟩ := find?_eq_some hfind
    obtain ⟨⟨u, q', waiting⟩, hk, rfl⟩ := state?_eq_some_iff.1 hu
    rw [get?_add_of_find?_eq_some hfind hk] at hrests
    split at hrests
    · rename_i hg
      split at hrests
      · cases hrests
      · rw [hg, hk]
        exact hrests
    · exact hrests

/-! ### Seeds

Only `addInitial` and `takeSeeds` have to do with seeds, and `clear` with everything. -/

omit [BEq S] [BEq P] in
theorem seeds_enqueue (r : Reached S P W) (h : Handle) : (r.enqueue h).2.seeds = r.seeds := by
  unfold enqueue
  split
  · rfl
  · split <;> rfl

omit [BEq S] [BEq P] in
theorem seeds_of_pop {r r' : Reached S P W} {popped : Option Handle} (e : r.pop = (popped, r')) :
    r'.seeds = r.seeds := by
  unfold pop at e
  split at e <;> cases e <;> rfl

theorem seeds_add (r : Reached S P W) (s : S) (p : P) : (r.add s p).2.seeds = r.seeds := by
  unfold add
  split
  · exact seeds_enqueue ..
  · split
    · split
      · exact seeds_enqueue ..
      · rfl
    · rfl

theorem seeds_addAll (fresh : List (S × P)) (r : Reached S P W) :
    (fresh.foldl (fun r (s, p) => (r.add s p).2) r).seeds = r.seeds := by
  induction fresh generalizing r with
  | nil => rfl
  | cons pair rest ih => rw [List.foldl_cons, ih, seeds_add]

omit [BEq S] [BEq P] in
theorem seeds_removeHandles (gone : List Handle) (r : Reached S P W) :
    (gone.foldl removeHandle r).seeds = r.seeds := by
  induction gone generalizing r with
  | nil => rfl
  | cons h rest ih =>
    rw [List.foldl_cons, ih]
    unfold removeHandle removeHandle?
    cases r.arena.remove? h <;> rfl

theorem seeds_update (r : Reached S P W) (gone : List Handle) (fresh : List (S × P)) :
    (r.update gone fresh).seeds = r.seeds := by
  rw [update, seeds_addAll, seeds_removeHandles]

end Reachability.Reached
