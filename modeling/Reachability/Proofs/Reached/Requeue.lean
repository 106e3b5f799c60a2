import Reachability.Proofs.Reached.Consistent
import Reachability.Proofs.Waitlist.Turns

/-! Popping a pair and putting it back.

Every operation keeps the order of traversal, and keeps each turn in the waitlist at the
rank of the state it was given out for (`InOrder`). So a pair that is put back right after
it was popped leaves everything as it was, except for its own place among those that wait:
depth-first it is the next again, breadth-first it is the last, and by rank it is the last
of its rank (`Requeued`). -/
namespace Reachability.Reached

open AbstractState (rank)

variable {S P : Type} [AbstractState S]

/-- The waitlist follows the order `o`, by the ranks of the published states. -/
structure InOrder (o : TraversalOrder) (r : Reached S P Frontier) : Prop where
  consistent : r.Consistent
  order : r.waitlist.order = o
  ranks : ∀ x ∈ r.waitlist.turns, ∃ s, r.state? x.2 = some s ∧ x.1.rank = rank s

/-- The rank of the state that a handle names. -/
def rank? (r : Reached S P Frontier) (h : Handle) : Option Nat :=
  (r.state? h).map rank

/-- What putting back the pair popped last makes of the waitlist. -/
def Requeued (o : TraversalOrder) (h : Handle) (r r' : Reached S P Frontier) : Prop :=
  match o with
  | .depthFirst => r'.waiting = r.waiting
  | .breadthFirst => ∃ others, r.waiting = h :: others ∧ r'.waiting = others ++ [h]
  | .topological => ∃ k same larger, r.rank? h = some k ∧
      r.waiting = h :: (same ++ larger) ∧ r'.waiting = same ++ h :: larger ∧
      (∀ g ∈ same, r.rank? g = some k) ∧ ∀ g ∈ larger, ∃ m, r.rank? g = some m ∧ k < m

namespace InOrder
variable {o : TraversalOrder} {r r' : Reached S P Frontier}

theorem ofOrder (o : TraversalOrder) : (Reached.ofOrder o : Reached S P Frontier).InOrder o := by
  refine ⟨.ofOrder o, Frontier.order_ofOrder o, fun x hx => ?_⟩
  have hnone : x ∈ (Frontier.ofOrder o).turns := hx
  rw [Frontier.turns_ofOrder] at hnone
  cases hnone

/-- A change that gives out no turn, and leaves the states of those that wait. -/
theorem congr (hr : r.InOrder o) (hconsistent : r'.Consistent)
    (horder : r'.waitlist.order = r.waitlist.order)
    (hturns : ∀ x ∈ r'.waitlist.turns, x ∈ r.waitlist.turns)
    (hstates : ∀ h ∈ r'.waitlist.toList, r'.state? h = r.state? h) : r'.InOrder o := by
  refine ⟨hconsistent, horder.trans hr.order, fun x hx => ?_⟩
  obtain ⟨s, hs, hrank⟩ := hr.ranks x (hturns x hx)
  exact ⟨s, (hstates x.2 (Frontier.mem_toList_of_mem_turns hx)).trans hs, hrank⟩

theorem enqueue (hr : r.InOrder o) (h : Handle) : (r.enqueue h).2.InOrder o := by
  refine ⟨hr.consistent.enqueue h, ?_, fun x hx => ?_⟩
  · unfold Reached.enqueue
    split
    · exact hr.order
    · split
      · exact hr.order
      · exact (Frontier.order_push ..).trans hr.order
  · rw [state?_enqueue]
    unfold Reached.enqueue at hx
    split at hx
    · exact hr.ranks x hx
    · rename_i e he
      split at hx
      · exact hr.ranks x hx
      · rcases Frontier.mem_turns_push hx with hx | ⟨hh, hrank⟩
        · exact hr.ranks x hx
        · exact ⟨e.state, hh ▸ state?_eq_some_iff.2 ⟨e, he, rfl⟩, hrank⟩

theorem pop (hr : r.InOrder o) {popped : Option Handle} (e : r.pop = (popped, r')) :
    r'.InOrder o := by
  have hwaitlist : r'.waitlist.order = r.waitlist.order ∧
      ∀ x ∈ r'.waitlist.turns, x ∈ r.waitlist.turns := by
    rw [hr.consistent.pop_eq] at e
    cases hpop : r.waitlist.pop? with
    | none =>
      rw [hpop] at e
      cases e
      exact ⟨rfl, fun _ hx => hx⟩
    | some found =>
      rw [hpop] at e
      cases e
      exact ⟨Frontier.order_of_pop? hpop, fun _ hx => Frontier.mem_turns_of_pop? hpop hx⟩
  exact hr.congr (hr.consistent.of_pop e) hwaitlist.1 hwaitlist.2 fun h _ => state?_of_pop e h

/-- A new pair waits under a turn of its rank, and the others keep theirs. -/
theorem publish (hr : r.InOrder o) (s : S) (p : P) : (r.publish s p).2.InOrder o := by
  have hinserted := hr.consistent.insert ⟨s, p, false⟩ rfl
  have hbefore : InOrder o ({r with
      arena := (r.arena.add ⟨s, p, false⟩).2
      partitions := r.partitions.enter (AbstractState.location s) (r.arena.add ⟨s, p, false⟩).1} :
      Reached S P Frontier) := by
    refine hr.congr hinserted rfl (fun _ hx => hx) fun h hmem => ?_
    obtain ⟨e, he, -⟩ := (hr.consistent.waits h).1 hmem
    have hne : h ≠ (r.arena.add ⟨s, p, false⟩).1 := fun hh => by
      rw [hh, Arena.get?_add_fresh] at he
      cases he
    simp only [state?, Arena.get?_add_eq, if_neg hne]
  have hafter := hbefore.enqueue (r.arena.add ⟨s, p, false⟩).1
  exact ⟨hr.consistent.publish s p, hafter.order, hafter.ranks⟩

theorem removeHandle (hr : r.InOrder o) (h : Handle) : (r.removeHandle h).InOrder o := by
  have hconsistent := hr.consistent.removeHandle h
  have hstates : ∀ g ∈ (r.removeHandle h).waitlist.toList,
      (r.removeHandle h).state? g = r.state? g := fun g hmem => by
    obtain ⟨e, he, -⟩ := (hconsistent.waits g).1 hmem
    have hne : g ≠ h := fun hg => by
      rw [get?_removeHandle, if_pos hg] at he
      cases he
    rw [state?_removeHandle, if_neg hne]
  have hwaitlist : (r.removeHandle h).waitlist.order = r.waitlist.order ∧
      ∀ x ∈ (r.removeHandle h).waitlist.turns, x ∈ r.waitlist.turns := by
    unfold Reached.removeHandle removeHandle?
    cases r.arena.remove? h with
    | none => exact ⟨rfl, fun _ hx => hx⟩
    | some removed =>
      simp only
      split
      · exact ⟨Frontier.order_remove .., fun _ hx => Frontier.mem_turns_remove hx⟩
      · exact ⟨rfl, fun _ hx => hx⟩
  exact hr.congr hconsistent hwaitlist.1 hwaitlist.2 hstates

theorem stable [BEq S] (o : TraversalOrder) : Stable (InOrder (S := S) (P := P) o) where
  seeds _ hr := hr.congr (hr.consistent.congr rfl rfl rfl) rfl (fun _ hx => hx) fun _ _ => rfl
  latest hr _ := hr.congr (hr.consistent.congr rfl rfl rfl) rfl (fun _ hx => hx) fun _ _ => rfl
  enqueue h hr := hr.enqueue h
  pop hr e := hr.pop e
  setPrecision {r} h p hr :=
    hr.congr (hr.consistent.setPrecision h p) rfl (fun _ hx => hx) fun g _ =>
      state?_setPrecision r h p g
  publish p hr _ := hr.publish _ p
  removeHandle h hr := hr.removeHandle h
  clear {r} hr := by
    refine hr.congr (.clear r) (Frontier.order_clear _) (fun x hx => ?_) fun h hmem => ?_
    · have hnone : x ∈ r.waitlist.clear.turns := hx
      rw [Frontier.turns_clear] at hnone
      cases hnone
    · have hnone : h ∈ r.waitlist.clear.toList := hmem
      rw [Frontier.toList_clear] at hnone
      cases hnone

/-- Putting back what was popped last undoes the pop, except that the pair is pushed. -/
theorem exists_enqueue_of_pop (hr : r.InOrder o) {h : Handle} (e : r.pop = (some h, r')) :
    ∃ s rest, r.state? h = some s ∧ r.waitlist.pop? = some (h, rest) ∧
      (r'.enqueue h).2 = {r with waitlist := rest.push h (rank s)} := by
  rw [hr.consistent.pop_eq] at e
  cases hpop : r.waitlist.pop? with
  | none =>
    rw [hpop] at e
    cases e
  | some popped =>
    obtain ⟨g, rest⟩ := popped
    rw [hpop] at e
    cases e
    have hmem : h ∈ r.waitlist.toList := by
      rw [Frontier.pop?_eq_some hpop]
      exact List.mem_cons_self ..
    obtain ⟨entry, hentry, hwaiting⟩ := (hr.consistent.waits h).1 hmem
    refine ⟨entry.state, rest, state?_eq_some_iff.2 ⟨entry, hentry, rfl⟩, rfl, ?_⟩
    have hpopped : (r.arena.modify h fun e => {e with waiting := false}).get? h =
        some {entry with waiting := false} := by
      rw [Arena.get?_modify, if_pos rfl, hentry]
      rfl
    -- The flag is lowered and raised again, on an entry that had it raised.
    have harena : ((r.arena.modify h fun e => {e with waiting := false}).modify h
        fun e => {e with waiting := true}) = r.arena := by
      rw [Arena.modify_modify]
      refine Arena.modify_eq_self fun v hv => ?_
      rw [hentry, Option.some.injEq] at hv
      subst hv
      rw [← hwaiting]
    simp only [Reached.enqueue, hpopped, Bool.false_eq_true, if_false, harena]
    rfl

/-- By rank, those of the same rank come before what is pushed, and no others of the rest. -/
theorem requeued_ranked (hr : r.InOrder .topological) {q q' : Ranked} (hw : r.waitlist = .ranked q)
    {h : Handle} (hq : q.pop? = some (h, q')) {s : S} (hs : r.state? h = some s) :
    Requeued .topological h r {r with waitlist := .ranked (q'.push h (rank s))} := by
  have hranks := hr.ranks
  have hfrontier := hr.consistent.frontier
  rw [hw] at hranks hfrontier
  have hrank? : ∀ x ∈ q.queue, r.rank? x.2 = some x.1.rank := fun x hx => by
    obtain ⟨t, ht, hrank⟩ := hranks x hx
    rw [rank?, ht, hrank]
    rfl
  have hown : r.rank? h = some (rank s) := by
    rw [rank?, hs]
    rfl
  obtain ⟨same, larger, hbefore, hpushed, hsame, hlarger⟩ :=
    Ranked.Intact.push_of_pop hfrontier hq fun t ht =>
      Option.some.inj ((hrank? _ ht).symm.trans hown)
  refine ⟨rank s, same.map Prod.snd, larger.map Prod.snd, hown, ?_, hpushed, fun g hg => ?_,
    fun g hg => ?_⟩
  · show r.waitlist.toList = _
    rw [hw, ← List.map_append]
    exact hbefore
  · obtain ⟨x, hx, rfl⟩ := List.mem_map.1 hg
    obtain ⟨hmem, hrank⟩ := hsame x hx
    rw [hrank? x hmem, hrank]
  · obtain ⟨x, hx, rfl⟩ := List.mem_map.1 hg
    obtain ⟨hmem, hrank⟩ := hlarger x hx
    exact ⟨x.1.rank, hrank? x hmem, hrank⟩

theorem requeued_of_pop (hr : r.InOrder o) {h : Handle} (e : r.pop = (some h, r')) :
    Requeued o h r (r'.enqueue h).2 := by
  obtain ⟨s, rest, hs, hpop, hafter⟩ := hr.exists_enqueue_of_pop e
  rw [hafter]
  have horder := hr.order
  cases hw : r.waitlist with
  | fifo q =>
    rw [hw] at hpop horder
    subst horder
    obtain ⟨⟨g, q'⟩, hq, he⟩ := Option.map_eq_some_iff.1 hpop
    cases he
    refine ⟨q'.toList, ?_, Fifo.toList_push q' h⟩
    show r.waitlist.toList = _
    rw [hw]
    exact Fifo.pop?_eq_some hq
  | lifo q =>
    rw [hw] at hpop horder
    subst horder
    obtain ⟨⟨g, q'⟩, hq, he⟩ := Option.map_eq_some_iff.1 hpop
    cases he
    show (q'.push h).toList = r.waitlist.toList
    rw [hw]
    exact (Lifo.pop?_eq_some hq).symm
  | ranked q =>
    rw [hw] at hpop horder
    subst horder
    obtain ⟨⟨g, q'⟩, hq, he⟩ := Option.map_eq_some_iff.1 hpop
    cases he
    exact hr.requeued_ranked hw hq hs

end InOrder
end Reachability.Reached
