import Reachability.Proofs.Waitlist.Turns
import Reachability.Waitlist.Docket

/-! The three orders keep one docket.

A frontier keeps a docket (`Keeps`) if it holds its handles: in their order if the oldest
leaves first, backwards if the newest does, and by turns if ranks decide, where the docket is
what the turns were given out for, in the order of their serial numbers. Pushing, removing,
clearing and popping do to both sides what they are to do, so that after any lawful sequence of
operations a frontier answers as its docket says (`follows_performAll`). -/
namespace Reachability

namespace Docket
variable {d : Docket} {o : TraversalOrder} {h : Handle}

@[simp] theorem handles_append (d e : Docket) : (d ++ e).handles = d.handles ++ e.handles :=
  List.map_append

theorem handles_without (d : Docket) (h : Handle) :
    (d.without h).handles = d.handles.filter fun g => g != h := by
  rw [handles, handles, List.filter_map]
  rfl

/-! ### Who is next -/

theorem least?_eq_none_iff : d.least? = none ↔ d = [] := by
  cases d with
  | nil => simp [least?]
  | cons x rest =>
    simp only [least?]
    split
    · split <;> simp
    · simp

theorem least?_cons_cases {x y : Handle × Nat} {rest : Docket} (e : least? (y :: rest) = some x) :
    (least? rest = some x ∧ x.2 < y.2) ∨ (x = y ∧ ∀ z, least? rest = some z → y.2 ≤ z.2) := by
  simp only [least?] at e
  split at e
  · rename_i z hz
    split at e
    · rename_i hlt
      cases e
      exact .inl ⟨hz, hlt⟩
    · rename_i hnot
      cases e
      refine .inr ⟨rfl, fun w hw => ?_⟩
      rw [hz, Option.some.injEq] at hw
      exact hw ▸ Nat.le_of_not_lt hnot
  · rename_i hnone
    cases e
    exact .inr ⟨rfl, fun w hw => by rw [hnone] at hw; cases hw⟩

theorem le_of_least? {x : Handle × Nat} (e : least? d = some x) : ∀ y ∈ d, x.2 ≤ y.2 := by
  induction d generalizing x with
  | nil => cases e
  | cons y rest ih =>
    refine List.forall_mem_cons.2 ?_
    rcases least?_cons_cases e with ⟨hrest, hlt⟩ | ⟨rfl, hle⟩
    · exact ⟨Nat.le_of_lt hlt, ih hrest⟩
    · refine ⟨Nat.le_refl _, fun z hz => ?_⟩
      cases hrest : least? rest with
      | none =>
        rw [least?_eq_none_iff.1 hrest] at hz
        cases hz
      | some w => exact Nat.le_trans (hle w hrest) (ih hrest z hz)

/-- The least entry comes before those that are as small, and after larger ones only. -/
theorem exists_split_of_least? {x : Handle × Nat} (e : least? d = some x) :
    ∃ earlier later, d = earlier ++ x :: later ∧ (∀ y ∈ earlier, x.2 < y.2) ∧
      ∀ y ∈ later, x.2 ≤ y.2 := by
  have hle := le_of_least? e
  induction d with
  | nil => cases e
  | cons y rest ih =>
    have htail := (List.forall_mem_cons.1 hle).2
    rcases least?_cons_cases e with ⟨hrest, hlt⟩ | ⟨rfl, -⟩
    · obtain ⟨earlier, later, rfl, hearlier, hlater⟩ := ih hrest htail
      exact ⟨y :: earlier, later, rfl, List.forall_mem_cons.2 ⟨hlt, hearlier⟩, hlater⟩
    · exact ⟨[], rest, rfl, by simp, htail⟩

theorem least?_append {x : Handle × Nat} {earlier later : Docket}
    (hearlier : ∀ y ∈ earlier, x.2 < y.2) (hlater : ∀ y ∈ later, x.2 ≤ y.2) :
    least? (earlier ++ x :: later) = some x := by
  induction earlier with
  | nil =>
    simp only [List.nil_append, least?]
    split
    · rename_i z hz
      obtain ⟨before, after, rfl, -⟩ := exists_split_of_least? hz
      rw [if_neg (Nat.not_lt_of_le (hlater z (by simp)))]
    · rfl
  | cons y rest ih =>
    obtain ⟨hlt, hrest⟩ := List.forall_mem_cons.1 hearlier
    simp only [List.cons_append, least?, ih hrest, if_pos hlt]

theorem least?_eq_some_iff {x : Handle × Nat} :
    least? d = some x ↔ ∃ earlier later, d = earlier ++ x :: later ∧
      (∀ y ∈ earlier, x.2 < y.2) ∧ ∀ y ∈ later, x.2 ≤ y.2 := by
  refine ⟨exists_split_of_least?, ?_⟩
  rintro ⟨earlier, later, rfl, hearlier, hlater⟩
  exact least?_append hearlier hlater

theorem next?_eq_some_iff : d.next? o = some h ↔ d.IsNext o h := by
  cases o with
  | breadthFirst =>
    cases d with
    | nil => simp [next?, IsNext]
    | cons x rest =>
      obtain ⟨g, rank⟩ := x
      simp [next?, IsNext]
  | depthFirst =>
    simp only [next?, IsNext, Option.map_eq_some_iff, Prod.exists, List.getLast?_eq_some_iff]
    constructor
    · rintro ⟨g, rank, ⟨earlier, hd⟩, rfl⟩
      exact ⟨earlier, rank, hd⟩
    · rintro ⟨earlier, rank, hd⟩
      exact ⟨h, rank, ⟨earlier, hd⟩, rfl⟩
  | topological =>
    simp only [next?, IsNext, Option.map_eq_some_iff, Prod.exists, least?_eq_some_iff]
    constructor
    · rintro ⟨g, rank, ⟨earlier, later, hd, hearlier, hlater⟩, rfl⟩
      exact ⟨earlier, rank, later, hd, hearlier, hlater⟩
    · rintro ⟨earlier, rank, later, hd, hearlier, hlater⟩
      exact ⟨h, rank, ⟨earlier, later, hd, hearlier, hlater⟩, rfl⟩

theorem IsNext.ne_nil (hnext : d.IsNext o h) : d ≠ [] := by
  rintro rfl
  cases o <;> simp [IsNext] at hnext

/-- No two handles are next. -/
theorem IsNext.unique {g : Handle} (hh : d.IsNext o h) (hg : d.IsNext o g) : g = h :=
  Option.some.inj ((next?_eq_some_iff.2 hg).symm.trans (next?_eq_some_iff.2 hh))

end Docket

namespace Frontier
variable {w : Frontier} {d : Docket} {h : Handle}

/-! ### Keeping a docket -/

/-- The turns were given out one after the other for the entries of the docket. -/
def Dated (queue : List (Turn × Handle)) (d : Docket) : Prop :=
  ∃ turns : List (Turn × Handle), turns.Pairwise (fun x y => x.1.serial < y.1.serial) ∧
    queue.Perm turns ∧ d = turns.map fun x => (x.2, x.1.rank)

def Lists : Frontier → Docket → Prop
  | fifo q, d => q.toList = d.handles
  | lifo s, d => s.toList = d.handles.reverse
  | ranked w, d => Dated w.queue d

structure Keeps (w : Frontier) (d : Docket) : Prop where
  intact : w.Intact
  once : d.handles.Nodup
  lists : w.Lists d

theorem Dated.filter {queue : List (Turn × Handle)} (hd : Dated queue d) (h : Handle) :
    Dated (queue.filter fun x => x.2 != h) (d.without h) := by
  obtain ⟨turns, hserial, hperm, rfl⟩ := hd
  refine ⟨turns.filter fun x => x.2 != h, hserial.filter _, hperm.filter _, ?_⟩
  rw [Docket.without, List.filter_map]
  rfl

/-- The head of the queue has the least rank, and comes first among its equals because it is
the oldest of them. -/
theorem Dated.isNext {entry : Turn × Handle} {behind : List (Turn × Handle)}
    (hd : Dated (entry :: behind) d) (hfirst : ∀ x ∈ behind, entry.1.before x.1 = true) :
    d.IsNext .topological entry.2 := by
  obtain ⟨turns, hserial, hperm, rfl⟩ := hd
  obtain ⟨older, younger, rfl⟩ := List.append_of_mem (hperm.mem_iff.1 (List.mem_cons_self ..))
  obtain ⟨-, hyounger, holder⟩ := List.pairwise_append.1 hserial
  have hothers : behind.Perm (older ++ younger) :=
    (hperm.trans List.perm_middle).cons_inv
  refine ⟨older.map fun x => (x.2, x.1.rank), entry.1.rank, younger.map fun x => (x.2, x.1.rank),
    by rw [List.map_append, List.map_cons], ?_, ?_⟩
  · rw [List.forall_mem_map]
    intro x hx
    have hbefore := hfirst x (hothers.mem_iff.2 (List.mem_append_left _ hx))
    have hage := holder x hx entry (List.mem_cons_self ..)
    simp only [Turn.before, Bool.or_eq_true, decide_eq_true_eq, Bool.and_eq_true, beq_iff_eq]
      at hbefore
    show entry.1.rank < x.1.rank
    omega
  · rw [List.forall_mem_map]
    intro x hx
    have hbefore := hfirst x (hothers.mem_iff.2 (List.mem_append_right _ hx))
    simp only [Turn.before, Bool.or_eq_true, decide_eq_true_eq, Bool.and_eq_true, beq_iff_eq]
      at hbefore
    show entry.1.rank ≤ x.1.rank
    omega

theorem Lists.fifo_without {q r : Fifo} (hl : (fifo q).Lists d)
    (hkept : r.toList = q.toList.filter fun g => g != h) : (fifo r).Lists (d.without h) := by
  show r.toList = (d.without h).handles
  rw [hkept, Docket.handles_without, ← show q.toList = d.handles from hl]

theorem Lists.lifo_without {s r : Lifo} (hl : (lifo s).Lists d)
    (hkept : r.toList = s.toList.filter fun g => g != h) : (lifo r).Lists (d.without h) := by
  show r.toList = (d.without h).handles.reverse
  rw [hkept, Docket.handles_without, ← List.filter_reverse, ← show s.toList = d.handles.reverse from hl]

theorem Lists.perm (hl : w.Lists d) : w.toList.Perm d.handles := by
  cases w with
  | fifo q => exact .of_eq hl
  | lifo s => exact (List.Perm.of_eq hl).trans (List.reverse_perm _)
  | ranked w =>
    obtain ⟨turns, -, hperm, rfl⟩ := hl
    refine (hperm.map Prod.snd).trans (.of_eq ?_)
    rw [Docket.handles, List.map_map]
    rfl

namespace Keeps

theorem nodup_toList (hw : w.Keeps d) : w.toList.Nodup :=
  hw.lists.perm.nodup_iff.2 hw.once

theorem ofOrder (o : TraversalOrder) : (ofOrder o).Keeps [] := by
  refine ⟨intact_ofOrder o, .nil, ?_⟩
  cases o with
  | breadthFirst => rfl
  | depthFirst => rfl
  | topological => exact ⟨[], .nil, .nil, rfl⟩

theorem clear (w : Frontier) : w.clear.Keeps [] := by
  refine ⟨.clear w, .nil, ?_⟩
  cases w with
  | fifo q => rfl
  | lifo s => rfl
  | ranked w => exact ⟨[], .nil, .nil, rfl⟩

/-- A turn that is given out has a larger serial number than those before it. -/
theorem push (hw : w.Keeps d) (hnew : h ∉ d.handles) (rank : Nat) :
    (w.push h rank).Keeps (d ++ [(h, rank)]) := by
  have hout : h ∉ w.toList := fun hmem => hnew (hw.lists.perm.mem_iff.1 hmem)
  refine ⟨hw.intact.push hout rank, ?_, ?_⟩
  · rw [Docket.handles_append]
    exact (List.perm_append_singleton h d.handles).nodup_iff.2 (List.nodup_cons.2 ⟨hnew, hw.once⟩)
  · have hlists := hw.lists
    have hintact := hw.intact
    cases w with
    | fifo q =>
      show (q.push h).toList = _
      rw [Fifo.toList_push, show q.toList = d.handles from hlists, Docket.handles_append]
      rfl
    | lifo s =>
      show (s.push h).toList = _
      rw [Lifo.toList_push, show s.toList = d.handles.reverse from hlists, Docket.handles_append,
        List.reverse_append]
      rfl
    | ranked w =>
      obtain ⟨turns, hserial, hperm, rfl⟩ := hlists
      refine ⟨turns ++ [(⟨rank, w.nextSerial⟩, h)], ?_, ?_, by rw [List.map_append]; rfl⟩
      · refine List.pairwise_append.2 ⟨hserial, List.pairwise_singleton .., fun x hx y hy => ?_⟩
        rw [List.mem_singleton.1 hy]
        exact hintact.fresh x (hperm.mem_iff.2 hx)
      · exact (Ranked.perm_enter _ h w.queue).trans
          ((hperm.cons _).trans (List.perm_append_singleton ..).symm)

theorem remove (hw : w.Keeps d) (h : Handle) : (w.remove h).2.Keeps (d.without h) := by
  have hlist := hw.intact.toList_remove h
  have hlists := hw.lists
  have hintact := hw.intact
  rw [hw.nodup_toList.erase_eq_filter] at hlist
  refine ⟨hw.intact.remove h, ?_, ?_⟩
  · rw [Docket.handles_without]
    exact hw.once.filter _
  · cases w with
    | fifo q => exact hlists.fifo_without hlist
    | lifo s => exact hlists.lifo_without hlist
    | ranked w =>
      show Dated (w.remove h).2.queue _
      rw [Ranked.Intact.queue_remove hintact]
      exact hlists.filter h

/-- Popping a handle leaves what removing it would leave. -/
theorem pop {rest : Frontier} (hw : w.Keeps d) (e : w.pop? = some (h, rest)) :
    rest.Keeps (d.without h) := by
  have hsplit := pop?_eq_some e
  have hnodup := hw.nodup_toList
  rw [hsplit] at hnodup
  have hrest : rest.toList = w.toList.filter fun g => g != h := by
    rw [hsplit, ← hnodup.erase_eq_filter, List.erase_cons_head]
  have hlists := hw.lists
  have hintact := hw.intact.pop e
  refine ⟨hintact, ?_, ?_⟩
  · rw [Docket.handles_without]
    exact hw.once.filter _
  · cases w with
    | fifo q =>
      obtain ⟨⟨g, q'⟩, -, he⟩ := Option.map_eq_some_iff.1 e
      cases he
      exact hlists.fifo_without hrest
    | lifo s =>
      obtain ⟨⟨g, s'⟩, -, he⟩ := Option.map_eq_some_iff.1 e
      cases he
      exact hlists.lifo_without hrest
    | ranked w =>
      obtain ⟨⟨g, w'⟩, hpop, he⟩ := Option.map_eq_some_iff.1 e
      cases he
      obtain ⟨queue, index, next⟩ := w
      cases queue with
      | nil => cases hpop
      | cons entry behind =>
        cases hpop
        show Dated behind _
        have hbehind : behind = (entry :: behind).filter fun x => x.2 != entry.2 := by
          have hout : entry.2 ∉ behind.map Prod.snd := (List.nodup_cons.1 hnodup).1
          rw [List.filter_cons_of_neg (by simp), List.filter_eq_self.2]
          exact fun x hx => bne_iff_ne.2 fun hsame => hout (hsame ▸ List.mem_map_of_mem hx)
        rw [hbehind]
        exact Dated.filter hlists _

/-! ### What leaves -/

theorem isNext_of_pop {rest : Frontier} (hw : w.Keeps d) (e : w.pop? = some (h, rest)) :
    d.IsNext w.order h := by
  have hsplit := pop?_eq_some e
  have hlists := hw.lists
  have hintact := hw.intact
  cases w with
  | fifo q =>
    have hhandles : d.handles = h :: rest.toList := by
      rw [← show q.toList = d.handles from hlists]
      exact hsplit
    obtain ⟨⟨g, rank⟩, later, rfl, rfl, -⟩ := List.map_eq_cons_iff.1 hhandles
    exact ⟨rank, later, rfl⟩
  | lifo s =>
    have hhandles : d.handles = rest.toList.reverse ++ [h] := by
      have hreverse : d.handles.reverse = h :: rest.toList := by
        rw [← show s.toList = d.handles.reverse from hlists]
        exact hsplit
      rw [← List.reverse_reverse d.handles, hreverse, List.reverse_cons]
    obtain ⟨earlier, last, rfl, -, hlast⟩ := List.map_eq_append_iff.1 hhandles
    obtain ⟨⟨g, rank⟩, none, rfl, rfl, hnone⟩ := List.map_eq_cons_iff.1 hlast
    obtain rfl := List.map_eq_nil_iff.1 hnone
    exact ⟨earlier, rank, rfl⟩
  | ranked w =>
    obtain ⟨⟨g, w'⟩, hpop, he⟩ := Option.map_eq_some_iff.1 e
    cases he
    obtain ⟨queue, index, next⟩ := w
    cases queue with
    | nil => cases hpop
    | cons entry behind =>
      cases hpop
      exact Dated.isNext hlists (List.pairwise_cons.1 hintact.ordered).1

theorem pop?_eq_none_iff (hw : w.Keeps d) : w.pop? = none ↔ d = [] := by
  rw [Frontier.pop?_eq_none_iff, ← List.length_eq_zero_iff, hw.lists.perm.length_eq, Docket.handles,
    List.length_map, List.length_eq_zero_iff]

theorem exists_pop_iff (hw : w.Keeps d) :
    (∃ rest, w.pop? = some (h, rest)) ↔ d.IsNext w.order h := by
  constructor
  · rintro ⟨rest, e⟩
    exact hw.isNext_of_pop e
  · intro hnext
    cases e : w.pop? with
    | none => exact absurd (hw.pop?_eq_none_iff.1 e) hnext.ne_nil
    | some popped =>
      obtain ⟨g, rest⟩ := popped
      exact ⟨rest, by rw [hnext.unique (hw.isNext_of_pop e)]⟩

/-! ### One operation after the other -/

theorem perform (hw : w.Keeps d) {op : Waitlist.Operation} (hop : d.Admits op) :
    (Waitlist.perform w op).Keeps (d.perform w.order op) := by
  cases op with
  | push h rank => exact hw.push hop rank
  | pop =>
    cases e : w.pop? with
    | none =>
      obtain rfl := hw.pop?_eq_none_iff.1 e
      have hnone : Docket.next? w.order [] = none := by cases w.order <;> rfl
      rw [Waitlist.perform_pop_of_eq_none e]
      simp only [Docket.perform, hnone]
      exact hw
    | some popped =>
      obtain ⟨h, rest⟩ := popped
      rw [Waitlist.perform_pop_of_eq_some e]
      simp only [Docket.perform, Docket.next?_eq_some_iff.2 (hw.isNext_of_pop e)]
      exact hw.pop e
  | remove h => exact hw.remove h
  | clear => exact clear w

end Keeps

theorem order_perform (w : Frontier) (op : Waitlist.Operation) :
    (Waitlist.perform w op).order = w.order := by
  cases op with
  | push h rank => exact order_push w h rank
  | pop =>
    cases e : w.pop? with
    | none => rw [Waitlist.perform_pop_of_eq_none e]
    | some popped =>
      rw [Waitlist.perform_pop_of_eq_some e]
      exact order_of_pop? e
  | remove h => exact order_remove w h
  | clear => exact order_clear w

theorem order_performAll (ops : List Waitlist.Operation) (w : Frontier) :
    (Waitlist.performAll w ops).order = w.order := by
  induction ops generalizing w with
  | nil => rfl
  | cons op rest ih => exact (ih _).trans (order_perform w op)

theorem Keeps.performAll {ops : List Waitlist.Operation} (hw : w.Keeps d)
    (hlawful : d.Lawful w.order ops) :
    (Waitlist.performAll w ops).Keeps (d.performAll w.order ops) := by
  induction ops generalizing w d with
  | nil => exact hw
  | cons op rest ih =>
    obtain ⟨hop, hrest⟩ := hlawful
    have hafter := ih (hw.perform hop) (by rwa [order_perform])
    rwa [order_perform] at hafter

/-- The pop order is what comes out when the frontier is emptied. -/
theorem drains_toList (w : Frontier) : Waitlist.Drains w w.toList := by
  generalize hhandles : w.toList = handles
  induction handles generalizing w with
  | nil => exact .done ((Frontier.pop?_eq_none_iff w).2 hhandles)
  | cons h hs ih =>
    cases e : w.pop? with
    | none =>
      rw [(Frontier.pop?_eq_none_iff w).1 e] at hhandles
      cases hhandles
    | some popped =>
      obtain ⟨g, rest⟩ := popped
      rw [pop?_eq_some e] at hhandles
      obtain ⟨rfl, hrest⟩ := List.cons.inj hhandles
      exact .next e (ih rest hrest)

/-! ### The docket decides -/

/-- A frontier answers as its docket says. -/
structure Follows (o : TraversalOrder) (w : Frontier) (d : Docket) : Prop where
  once : d.handles.Nodup
  size : w.size = d.length
  /-- A handle is found if it is there, and is taken out of the pop order, which else stays. -/
  remove : ∀ h, ((w.remove h).1 = true ↔ h ∈ d.handles) ∧
    (w.remove h).2.toList = w.toList.erase h
  pop_none : w.pop? = none ↔ d = []
  pop_some : ∀ h, (∃ rest, w.pop? = some (h, rest)) ↔ d.IsNext o h
  listed : w.toList.Perm d.handles
  drains : Waitlist.Drains w w.toList

/-- **Every order does what its docket says**, whatever is pushed, popped, removed and cleared,
as long as no handle is pushed that waits already. -/
theorem follows_performAll (o : TraversalOrder) {ops : List Waitlist.Operation}
    (hlawful : Docket.Lawful o [] ops) :
    (Waitlist.performAll (ofOrder o) ops).Follows o (Docket.performAll o [] ops) := by
  have hkeeps := (Keeps.ofOrder o).performAll (by rwa [order_ofOrder])
  have horder := order_performAll ops (ofOrder o)
  rw [order_ofOrder] at hkeeps horder
  refine ⟨hkeeps.once, ?_, fun h => ⟨?_, hkeeps.intact.toList_remove h⟩, hkeeps.pop?_eq_none_iff,
    fun h => ?_, hkeeps.lists.perm, drains_toList _⟩
  · rw [← length_toList, hkeeps.lists.perm.length_eq, Docket.handles, List.length_map]
  · rw [hkeeps.intact.remove_fst, hkeeps.lists.perm.mem_iff]
  · rw [hkeeps.exists_pop_iff, horder]

/-- Handles come and go, and come again under other ranks. -/
def errands : List Waitlist.Operation :=
  [.push ⟨0, 0⟩ 5, .push ⟨1, 0⟩ 1, .push ⟨2, 0⟩ 5, .remove ⟨0, 0⟩, .push ⟨3, 0⟩ 1, .pop,
    .push ⟨1, 0⟩ 5, .push ⟨0, 0⟩ 5]

theorem errands_followed :
    Docket.Lawful .topological [] errands ∧
      (Waitlist.performAll (ofOrder .topological) errands).Follows .topological
        [(⟨2, 0⟩, 5), (⟨3, 0⟩, 1), (⟨1, 0⟩, 5), (⟨0, 0⟩, 5)] ∧
      (Waitlist.performAll (ofOrder .topological) errands).toList =
        [⟨3, 0⟩, ⟨2, 0⟩, ⟨1, 0⟩, ⟨0, 0⟩] :=
  ⟨by decide, follows_performAll .topological (by decide), by decide⟩

end Frontier
end Reachability
