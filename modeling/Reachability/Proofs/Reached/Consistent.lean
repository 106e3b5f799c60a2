import Reachability.Proofs.Partitions
import Reachability.Proofs.Reached.Elementary
import Reachability.Proofs.Waitlist.Frontier

/-! What holds a reached set together.

The same facts are kept in several places: a published pair has its entry in the arena
and its handle in the partition index, and whether it waits is known both to its entry
and to the waitlist. `Consistent` says that these agree, and every operation keeps it,
whatever handles it is given. From it come the two facts that explorations depend on:
the candidates at a location are all that is published there, and when nothing can be
popped, nothing waits. -/
namespace Reachability.Reached

open AbstractState (Location location)

variable {S P : Type} [AbstractState S]

structure Consistent (r : Reached S P Frontier) : Prop where
  /-- The index lists the published pairs by location. -/
  indexed : ∀ l h, h ∈ r.partitions.handles l ↔
    ∃ e, r.arena.get? h = some e ∧ location e.state = l
  unrepeated : ∀ l, (r.partitions.handles l).Nodup
  partitions : r.partitions.Intact
  /-- The waitlist holds the published pairs that wait. -/
  waits : ∀ h, h ∈ r.waitlist.toList ↔ ∃ e, r.arena.get? h = some e ∧ e.waiting = true
  queued : r.waitlist.toList.Nodup
  frontier : r.waitlist.Intact

namespace Consistent
variable {r : Reached S P Frontier}

theorem get?_ofOrder (o : TraversalOrder) (h : Handle) :
    (Reached.ofOrder o : Reached S P Frontier).arena.get? h = none :=
  Arena.get?_empty h

theorem states_ofOrder (o : TraversalOrder) :
    (Reached.ofOrder o : Reached S P Frontier).states = [] := rfl

theorem ofOrder (o : TraversalOrder) : (ofOrder o : Reached S P Frontier).Consistent := by
  refine ⟨fun l h => ?_, fun l => .nil, Partitions.intact_empty, fun h => ?_, ?_,
    Frontier.intact_ofOrder o⟩
  · rw [get?_ofOrder]
    simp [Reached.ofOrder]
  · rw [get?_ofOrder]
    simp [Reached.ofOrder, Frontier.toList_ofOrder]
  · simp [Reached.ofOrder, Frontier.toList_ofOrder]

/-- Seeds and the first and last handle take no part. -/
theorem congr {r' : Reached S P Frontier} (hr : r.Consistent) (ha : r'.arena = r.arena)
    (hp : r'.partitions = r.partitions) (hw : r'.waitlist = r.waitlist) : r'.Consistent := by
  obtain ⟨h₁, h₂, h₃, h₄, h₅, h₆⟩ := hr
  rw [← ha, ← hp] at h₁
  rw [← hp] at h₂ h₃
  rw [← ha, ← hw] at h₄
  rw [← hw] at h₅ h₆
  exact ⟨h₁, h₂, h₃, h₄, h₅, h₆⟩

/-! ### Consequences -/

theorem mem_handlesAt_iff (hr : r.Consistent) {s : S} {h : Handle} :
    h ∈ r.handlesAt s ↔ ∃ t, r.state? h = some t ∧ location t = location s := by
  simp only [handlesAt, hr.indexed, state?_eq_some_iff]
  constructor
  · rintro ⟨e, he, hl⟩
    exact ⟨e.state, ⟨e, he, rfl⟩, hl⟩
  · rintro ⟨t, ⟨e, he, rfl⟩, hl⟩
    exact ⟨e, he, hl⟩

theorem location_of_mem_handlesAt (hr : r.Consistent) {s old : S} {h : Handle}
    (hmem : h ∈ r.handlesAt s) (hold : r.state? h = some old) : location old = location s := by
  obtain ⟨t, ht, hloc⟩ := hr.mem_handlesAt_iff.1 hmem
  rw [hold, Option.some.injEq] at ht
  exact ht ▸ hloc

/-- The candidates for a state are all that is published at its location. -/
theorem mem_statesAt_iff (hr : r.Consistent) {s t : S} :
    t ∈ r.statesAt s ↔ t ∈ r.states ∧ location t = location s := by
  simp only [Reached.mem_statesAt_iff, mem_states_iff, hr.mem_handlesAt_iff]
  constructor
  · rintro ⟨h, ⟨u, hu, hl⟩, ht⟩
    obtain rfl : u = t := Option.some.inj (hu.symm.trans ht)
    exact ⟨⟨h, ht⟩, hl⟩
  · rintro ⟨⟨h, ht⟩, hl⟩
    exact ⟨h, ⟨t, ht, hl⟩, ht⟩

theorem not_waiting_of_toList_eq_nil (hr : r.Consistent) (hw : r.waitlist.toList = [])
    {h : Handle} {e : Entry S P} (he : r.arena.get? h = some e) : e.waiting = false := by
  cases hwait : e.waiting with
  | false => rfl
  | true =>
    have hmem := (hr.waits h).2 ⟨e, he, hwait⟩
    rw [hw] at hmem
    cases hmem

theorem not_hasWaiting_iff : r.hasWaiting = false ↔ r.waitlist.toList = [] := by
  have hsize : r.waitlist.toList.length = Waitlist.size r.waitlist := Frontier.length_toList r.waitlist
  rw [← List.length_eq_zero_iff, hsize, hasWaiting, Waitlist.isEmpty, Bool.not_eq_false', beq_iff_eq]

/-! ### The frontier -/

theorem enqueue (hr : r.Consistent) (h : Handle) : (r.enqueue h).2.Consistent := by
  unfold Reached.enqueue
  cases he : r.arena.get? h with
  | none => exact hr
  | some e =>
    by_cases hwait : e.waiting = true
    · simpa [hwait] using hr
    · have hout : h ∉ r.waitlist.toList := fun hmem => by
        obtain ⟨e', he', hw⟩ := (hr.waits h).1 hmem
        rw [he, Option.some.injEq] at he'
        exact hwait (he' ▸ hw)
      have hview := fun g => Arena.get?_modify r.arena h (fun e => {e with waiting := true}) g
      simp only [hwait, Bool.false_eq_true, if_false]
      refine ⟨fun l g => ?_, hr.unrepeated, hr.partitions, fun g => ?_, ?_, hr.frontier.push hout _⟩
      · simp only [hr.indexed, hview, he]
        by_cases hg : g = h
        · simp [hg, he]
        · simp [hg]
      · show g ∈ (r.waitlist.push h _).toList ↔ _
        simp only [Frontier.mem_toList_push, hr.waits, hview, he]
        by_cases hg : g = h
        · simp [hg]
        · simp [hg]
      · show (r.waitlist.push h _).toList.Nodup
        exact (Frontier.perm_toList_push ..).nodup_iff.2 (List.nodup_cons.2 ⟨hout, hr.queued⟩)

omit [AbstractState S] in
/-- In a consistent set the search for a live handle ends at the first. -/
theorem popLive_eq {arena : Arena (Entry S P)} {w : Frontier}
    (hlive : ∀ h ∈ w.toList, arena.contains h = true) :
    popLive arena w.size w = match w.pop? with
      | none => (none, w)
      | some (h, rest) => (some h, rest) := by
  cases hpop : w.pop? with
  | none =>
    have hsize : w.size = 0 := by
      rw [← Frontier.length_toList, (Frontier.pop?_eq_none_iff w).1 hpop]
      rfl
    rw [hsize]
    rfl
  | some popped =>
    obtain ⟨h, rest⟩ := popped
    have hlist := Frontier.pop?_eq_some hpop
    have hsize : w.size = rest.size + 1 := by
      rw [← Frontier.length_toList, ← Frontier.length_toList, hlist, List.length_cons]
    have hcontains := hlive h (by rw [hlist]; exact List.mem_cons_self ..)
    have hpop' : Waitlist.pop? w = some (h, rest) := hpop
    rw [hsize]
    simp only [popLive, hpop', hcontains, if_true]

theorem contains_of_mem_toList (hr : r.Consistent) {h : Handle} (hmem : h ∈ r.waitlist.toList) :
    r.arena.contains h = true := by
  obtain ⟨e, he, -⟩ := (hr.waits h).1 hmem
  rw [Arena.contains_eq, he]
  rfl

theorem pop_eq (hr : r.Consistent) :
    r.pop = match r.waitlist.pop? with
      | none => (none, r)
      | some (h, rest) => (some h, {r with
          arena := r.arena.modify h fun e => {e with waiting := false}
          waitlist := rest}) := by
  have hlive := popLive_eq (w := r.waitlist) fun h hmem => hr.contains_of_mem_toList hmem
  have hsearch : popLive r.arena (Waitlist.size r.waitlist) r.waitlist = _ := hlive
  unfold Reached.pop
  rw [hsearch]
  cases r.waitlist.pop? with
  | none => rfl
  | some popped => rfl

theorem pop (hr : r.Consistent) : r.pop.2.Consistent := by
  rw [hr.pop_eq]
  cases hpop : r.waitlist.pop? with
  | none => exact hr
  | some popped =>
    obtain ⟨h, rest⟩ := popped
    have hlist := Frontier.pop?_eq_some hpop
    have hqueued := hr.queued
    rw [hlist] at hqueued
    obtain ⟨hout, hnodup⟩ := List.nodup_cons.1 hqueued
    have hview := fun g => Arena.get?_modify r.arena h (fun e => {e with waiting := false}) g
    refine ⟨fun l g => ?_, hr.unrepeated, hr.partitions, fun g => ?_, hnodup, hr.frontier.pop hpop⟩
    · simp only [hr.indexed, hview]
      by_cases hg : g = h
      · simp [hg]
      · simp [hg]
    · show g ∈ rest.toList ↔ _
      have hwaits := hr.waits g
      rw [hlist, List.mem_cons] at hwaits
      simp only [hview]
      by_cases hg : g = h
      · subst hg
        simp [hout]
      · rw [if_neg hg, ← hwaits]
        simp [hg]

theorem of_pop (hr : r.Consistent) {popped : Option Handle} {r' : Reached S P Frontier}
    (e : r.pop = (popped, r')) : r'.Consistent := by
  have hpop := hr.pop
  rw [e] at hpop
  exact hpop

/-- A pop takes the head of the frontier. -/
theorem waiting_of_pop (hr : r.Consistent) {h : Handle} {r' : Reached S P Frontier}
    (e : r.pop = (some h, r')) : r.waiting = h :: r'.waiting := by
  rw [hr.pop_eq] at e
  cases hnext : r.waitlist.pop? with
  | none =>
    rw [hnext] at e
    cases e
  | some popped =>
    rw [hnext] at e
    cases e
    exact Frontier.pop?_eq_some hnext

theorem mem_toList_of_pop (hr : r.Consistent) {h : Handle} {r' : Reached S P Frontier}
    (e : r.pop = (some h, r')) : h ∈ r.waitlist.toList := by
  have hwaiting : r.waitlist.toList = h :: r'.waiting := hr.waiting_of_pop e
  rw [hwaiting]
  exact List.mem_cons_self ..

/-- Nothing can be popped only if nothing waits. -/
theorem toList_eq_nil_of_pop_eq_none (hr : r.Consistent) {r' : Reached S P Frontier}
    (e : r.pop = (none, r')) : r.waitlist.toList = [] ∧ r' = r := by
  rw [hr.pop_eq] at e
  split at e
  · rename_i hpop
    cases e
    exact ⟨(Frontier.pop?_eq_none_iff _).1 hpop, rfl⟩
  · cases e

/-! ### Publishing and removing -/

theorem setPrecision (hr : r.Consistent) (h : Handle) (p : P) :
    (r.setPrecision h p).Consistent := by
  refine ⟨fun l g => ?_, hr.unrepeated, hr.partitions, fun g => ?_, hr.queued, hr.frontier⟩
  · simp only [get?_setPrecision]
    refine (hr.indexed l g).trans ?_
    by_cases hg : g = h
    · simp [hg]
    · simp [hg]
  · simp only [get?_setPrecision]
    refine (hr.waits g).trans ?_
    by_cases hg : g = h
    · simp [hg]
    · simp [hg]

/-- A new entry in the arena and in the index, before it is put into the frontier. -/
theorem insert (hr : r.Consistent) (e : Entry S P) (he : e.waiting = false) :
    ({r with
      arena := (r.arena.add e).2
      partitions := r.partitions.enter (location e.state) (r.arena.add e).1} :
      Reached S P Frontier).Consistent := by
  have hfresh : r.arena.get? (r.arena.add e).1 = none := Arena.get?_add_fresh ..
  have hunlisted : ∀ l, (r.arena.add e).1 ∉ r.partitions.handles l := fun l hmem => by
    obtain ⟨e', he', -⟩ := (hr.indexed l _).1 hmem
    rw [hfresh] at he'
    cases he'
  refine ⟨fun l g => ?_, fun l => ?_, hr.partitions.enter _ _, fun g => ?_, hr.queued, hr.frontier⟩
  · simp only [Partitions.handles_enter, Arena.get?_add_eq]
    by_cases hg : g = (r.arena.add e).1
    · subst hg
      by_cases hl : l = location e.state
      · simp [hl]
      · simp [hl, hunlisted, Ne.symm hl]
    · by_cases hl : l = location e.state
      · simp [hl, hg, hr.indexed]
      · simp [hl, hg, hr.indexed]
  · simp only [Partitions.handles_enter]
    split
    · exact List.nodup_append.2 ⟨hr.unrepeated _, List.nodup_singleton _, fun g hg k hk => by
        rintro rfl
        rw [List.mem_singleton] at hk
        exact hunlisted _ (hk ▸ hg)⟩
    · exact hr.unrepeated l
  · refine (hr.waits g).trans ?_
    simp only [Arena.get?_add_eq]
    by_cases hg : g = (r.arena.add e).1
    · simp [hg, hfresh, he]
    · simp [hg]

theorem publish (hr : r.Consistent) (s : S) (p : P) : (r.publish s p).2.Consistent :=
  (((hr.insert { state := s, precision := p, waiting := false } rfl).enqueue _).congr rfl rfl rfl)

theorem removeHandle (hr : r.Consistent) (h : Handle) : (r.removeHandle h).Consistent := by
  have hview := get?_removeHandle r h
  unfold Reached.removeHandle removeHandle? at hview ⊢
  cases hrem : r.arena.remove? h with
  | none => exact hr
  | some removed =>
    obtain ⟨e, arena⟩ := removed
    have he := (Arena.get?_remove hrem).1
    simp only [hrem] at hview ⊢
    refine ⟨fun l g => ?_, fun l => ?_, hr.partitions.leave _ _, fun g => ?_, ?_, ?_⟩
    · simp only [Partitions.handles_leave hr.partitions, hview]
      by_cases hg : g = h
      · subst hg
        by_cases hl : l = location e.state
        · simp [hl]
        · simp [hl, hr.indexed, he, Ne.symm hl]
      · by_cases hl : l = location e.state
        · simp [hl, hg, hr.indexed]
        · simp [hl, hg, hr.indexed]
    · simp only [Partitions.handles_leave hr.partitions]
      split
      · exact (hr.unrepeated _).filter _
      · exact hr.unrepeated l
    · simp only [hview]
      by_cases hwait : e.waiting = true
      · have hlist : (Waitlist.remove r.waitlist h).2.toList = r.waitlist.toList.erase h :=
          hr.frontier.toList_remove h
        simp only [hwait, if_true, hlist, hr.queued.mem_erase_iff, hr.waits]
        by_cases hg : g = h
        · simp [hg]
        · simp [hg]
      · simp only [hwait, Bool.false_eq_true, if_false, hr.waits]
        by_cases hg : g = h
        · simp [hg, he, hwait]
        · simp [hg]
    · by_cases hwait : e.waiting = true
      · have hlist : (Waitlist.remove r.waitlist h).2.toList = r.waitlist.toList.erase h :=
          hr.frontier.toList_remove h
        simp only [hwait, if_true, hlist]
        exact hr.queued.erase h
      · simpa [hwait] using hr.queued
    · by_cases hwait : e.waiting = true
      · simp only [hwait, if_true]
        exact hr.frontier.remove h
      · simpa [hwait] using hr.frontier

theorem clear (r : Reached S P Frontier) : r.clear.Consistent := by
  have hnone : ∀ h, r.clear.arena.get? h = none := fun h => Arena.get?_clear r.arena h
  have hlist : r.clear.waitlist.toList = [] := Frontier.toList_clear r.waitlist
  refine ⟨fun l h => ?_, fun l => .nil, Partitions.intact_empty, fun h => ?_, ?_,
    Frontier.Intact.clear r.waitlist⟩
  · rw [hnone]
    simp [Reached.clear]
  · rw [hnone, hlist]
    simp
  · rw [hlist]
    exact .nil

variable [BEq S]

theorem stable : Stable (Consistent (S := S) (P := P)) where
  seeds _ hr := hr.congr rfl rfl rfl
  latest hr _ := hr.congr rfl rfl rfl
  enqueue h hr := hr.enqueue h
  pop hr e := hr.of_pop e
  setPrecision h p hr := hr.setPrecision h p
  publish p hr _ := hr.publish _ p
  removeHandle h hr := hr.removeHandle h
  clear _ := clear _

variable [BEq P]

theorem add (hr : r.Consistent) (s : S) (p : P) : (r.add s p).2.Consistent :=
  stable.add s p hr

/-- Every operation keeps a reached set consistent. -/
theorem performAll (hr : r.Consistent) (ops : List (Operation S P)) :
    (r.performAll ops).Consistent :=
  stable.performAll ops hr

end Consistent
end Reachability.Reached
