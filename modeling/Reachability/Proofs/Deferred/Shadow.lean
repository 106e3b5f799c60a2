import Reachability.Proofs.Reached.Removals
import Reachability.Waitlist.Deferred

/-! A waitlist may keep what was removed.

A reached set whose waitlist puts off removals goes along with one whose waitlist does not: both
hold the same pairs, and the queue of the first, without the handles that name nothing, is the
queue of the second (`Shadow`). A pop passes over the handles that name nothing, and a push
puts a live handle behind all others. A handle that names nothing stays that way, although its
cell may be used again, since each removal takes the cell to its next generation; only after
2^32 removals would it come back. So whatever is done to both, each operation answers the same
(`Shadows.perform`). -/
namespace Reachability

theorem Arena.contains_modify {α : Type} (a : Arena α) (h : Handle) (f : α → α) :
    (a.modify h f).contains = a.contains := by
  funext g
  rw [contains_eq, contains_eq, get?_modify]
  split
  · rename_i hg
    rw [hg, Option.isSome_map]
  · rfl

/-! ### Queues -/

/-- Waitlists that pop what they list first. -/
structure Waitlist.Ordered (W : Type) [Waitlist W] : Prop where
  size : ∀ w : W, Waitlist.size w = (Waitlist.toList w).length
  pop_some : ∀ {w rest : W} {h : Handle}, Waitlist.pop? w = some (h, rest) →
    Waitlist.toList w = h :: Waitlist.toList rest
  pop_none : ∀ {w : W}, Waitlist.pop? w = none → Waitlist.toList w = []

theorem Fifo.ordered : Waitlist.Ordered Fifo where
  size w := w.length_toList.symm
  pop_some e := pop?_eq_some e
  pop_none e := (pop?_eq_none_iff _).1 e

theorem Deferred.ordered : Waitlist.Ordered Deferred where
  size w := w.queue.length_toList.symm
  pop_some {w rest h} e := by
    obtain ⟨⟨g, queue⟩, hpop, hrest⟩ := Option.map_eq_some_iff.1 e
    cases hrest
    exact Fifo.pop?_eq_some hpop
  pop_none {w} e := (Fifo.pop?_eq_none_iff w.queue).1 (Option.map_eq_none_iff.1 e)

namespace Reached

section Queues
variable {S P W : Type} [Waitlist W] {arena : Arena (Entry S P)} {n : Nat} {w rest : W}

/-- The first live handle leaves the queue, and those before it are lost. -/
theorem filter_of_popLive (hW : Waitlist.Ordered W) {h : Handle}
    (e : popLive arena n w = (some h, rest)) :
    (Waitlist.toList w).filter arena.contains = h :: (Waitlist.toList rest).filter arena.contains ∧
      Waitlist.toList rest ⊆ Waitlist.toList w := by
  induction n generalizing w with
  | zero => cases e
  | succ n ih =>
    unfold popLive at e
    split at e
    · cases e
    · rename_i g others hpop
      rw [hW.pop_some hpop, List.filter_cons]
      split at e
      · rename_i hlive
        cases e
        rw [if_pos hlive]
        exact ⟨rfl, List.subset_cons_self ..⟩
      · rename_i hdead
        obtain ⟨hfilter, hsubset⟩ := ih e
        rw [if_neg hdead]
        exact ⟨hfilter, List.subset_cons_of_subset _ hsubset⟩

/-- Where no live handle is found, there was none, and the queue is empty afterwards. -/
theorem filter_of_popLive_eq_none (hW : Waitlist.Ordered W)
    (hn : (Waitlist.toList w).length ≤ n) (e : popLive arena n w = (none, rest)) :
    (Waitlist.toList w).filter arena.contains = [] ∧ Waitlist.toList rest = [] := by
  induction n generalizing w with
  | zero =>
    cases e
    have hnil := List.length_eq_zero_iff.1 (Nat.le_zero.1 hn)
    exact ⟨by rw [hnil]; rfl, hnil⟩
  | succ n ih =>
    unfold popLive at e
    split at e
    · rename_i hpop
      cases e
      have hnil := hW.pop_none hpop
      exact ⟨by rw [hnil]; rfl, hnil⟩
    · rename_i g others hpop
      rw [hW.pop_some hpop] at hn ⊢
      split at e
      · cases e
      · rename_i hdead
        rw [List.filter_cons, if_neg hdead]
        exact ih (Nat.le_of_succ_le_succ hn) e

variable [AbstractState S] {r : Reached S P W}

theorem hasWaiting_eq_false_iff (hW : Waitlist.Ordered W) :
    r.hasWaiting = false ↔ Waitlist.toList r.waitlist = [] := by
  rw [hasWaiting, Waitlist.isEmpty, hW.size, Bool.not_eq_false', beq_iff_eq, List.length_eq_zero_iff]

/-- Where nothing waits, a pop does nothing. -/
theorem pop_of_hasWaiting (h : r.hasWaiting = false) : r.pop = (none, r) := by
  have hsize : Waitlist.size r.waitlist = 0 := by
    rwa [hasWaiting, Waitlist.isEmpty, Bool.not_eq_false', beq_iff_eq] at h
  rw [pop, hsize]
  rfl

theorem pop_of_filter_eq_nil (hW : Waitlist.Ordered W)
    (hnil : (Waitlist.toList r.waitlist).filter r.arena.contains = []) :
    ∃ w, r.pop = (none, {r with waitlist := w}) ∧ Waitlist.toList w = [] := by
  unfold pop
  cases hsearch : popLive r.arena (Waitlist.size r.waitlist) r.waitlist with
  | mk popped rest =>
    cases popped with
    | none =>
      have hsize := Nat.le_of_eq (hW.size r.waitlist).symm
      exact ⟨rest, rfl, (filter_of_popLive_eq_none hW hsize hsearch).2⟩
    | some h =>
      rw [(filter_of_popLive hW hsearch).1] at hnil
      cases hnil

theorem pop_of_filter_eq_cons (hW : Waitlist.Ordered W) {h : Handle} {others : List Handle}
    (hcons : (Waitlist.toList r.waitlist).filter r.arena.contains = h :: others) :
    ∃ w, r.pop = (some h, {r with
        arena := r.arena.modify h fun e => {e with waiting := false}
        waitlist := w}) ∧
      (Waitlist.toList w).filter r.arena.contains = others ∧
      Waitlist.toList w ⊆ Waitlist.toList r.waitlist := by
  unfold pop
  cases hsearch : popLive r.arena (Waitlist.size r.waitlist) r.waitlist with
  | mk popped rest =>
    cases popped with
    | none =>
      have hsize := Nat.le_of_eq (hW.size r.waitlist).symm
      rw [(filter_of_popLive_eq_none hW hsize hsearch).1] at hcons
      cases hcons
    | some g =>
      obtain ⟨hfilter, hsubset⟩ := filter_of_popLive hW hsearch
      rw [hfilter] at hcons
      cases hcons
      exact ⟨rest, rfl, rfl, hsubset⟩

end Queues

/-! ### The same pairs over another waitlist -/

section Exchange
variable {S P W W' : Type} [AbstractState S]

/-- The same with another waitlist. -/
def exchange (r : Reached S P W) (w : W') : Reached S P W' :=
  { arena := r.arena, partitions := r.partitions, waitlist := w, seeds := r.seeds,
    first := r.first, last := r.last }

/-- All that can be asked is answered the same, apart from what concerns the waitlist as such. -/
structure Agrees [Waitlist W] [Waitlist W'] (r : Reached S P W) (r' : Reached S P W') : Prop where
  same : r' = r.exchange r'.waitlist
  waitingStates : r'.waitingStates = r.waitingStates

end Exchange

variable {S P : Type} [AbstractState S]

/-- A queue that keeps dead handles beside the waitlist of a reached set. After `k` removals at
most a dead handle is up to `k` generations behind its cell. -/
structure Shadow (k : Nat) (r : Reached S P Fifo) (w : Deferred) : Prop where
  live : r.waitlist.toList = w.queue.toList.filter r.arena.contains
  waits : ∀ h ∈ r.waitlist.toList, r.isWaiting h = true
  nodup : r.waitlist.toList.Nodup
  stale : ∀ h ∈ w.queue.toList, r.arena.contains h = false →
    ∃ d, 0 < d ∧ d ≤ k ∧ r.arena.generation h.index = h.generation + UInt32.ofNat d

/-- The same pairs, with a queue that keeps dead handles. -/
def Shadows (k : Nat) (r : Reached S P Fifo) (r' : Reached S P Deferred) : Prop :=
  ∃ w, r' = r.exchange w ∧ Shadow k r w

variable {k : Nat} {r : Reached S P Fifo} {r' : Reached S P Deferred}

theorem shadows_empty : Shadows 0 ({ waitlist := {} } : Reached S P Fifo) { waitlist := {} } :=
  ⟨{}, rfl, rfl, fun _ h => (List.not_mem_nil h).elim, .nil, fun _ h => (List.not_mem_nil h).elim⟩

theorem Shadow.mono {w : Deferred} (hr : Shadow k r w) {m : Nat} (hkm : k ≤ m) : Shadow m r w := by
  refine ⟨hr.live, hr.waits, hr.nodup, fun h hmem hdead => ?_⟩
  obtain ⟨d, hpos, hle, hgeneration⟩ := hr.stale h hmem hdead
  exact ⟨d, hpos, Nat.le_trans hle hkm, hgeneration⟩

/-- What matters of the entries is which handles are live, which wait, and the generations. -/
theorem Shadow.congr {w : Deferred} (hr : Shadow k r w) {r₁ : Reached S P Fifo}
    (hwaitlist : r₁.waitlist = r.waitlist) (hlive : ∀ h, r₁.arena.contains h = r.arena.contains h)
    (hwaits : ∀ h ∈ r.waitlist.toList, r₁.isWaiting h = true)
    (hgeneration : ∀ i, r₁.arena.generation i = r.arena.generation i) : Shadow k r₁ w := by
  refine ⟨?_, ?_, ?_, fun h hmem hdead => ?_⟩
  · rw [hwaitlist, hr.live]
    exact List.filter_congr fun h _ => (hlive h).symm
  · rwa [hwaitlist]
  · rw [hwaitlist]
    exact hr.nodup
  · rw [hlive] at hdead
    rw [hgeneration]
    exact hr.stale h hmem hdead

theorem Shadow.waitingStates_eq {w : Deferred} (hr : Shadow k r w) :
    (r.exchange w).waitingStates = r.waitingStates := by
  show w.queue.toList.filterMap r.state? = r.waitlist.toList.filterMap r.state?
  rw [hr.live, List.filterMap_filter]
  refine List.filterMap_congr fun h _ => ?_
  cases hlive : r.arena.contains h with
  | true => rfl
  | false =>
    rw [Arena.contains_eq, Option.isSome_eq_false_iff, Option.isNone_iff_eq_none] at hlive
    rw [state?, hlive]
    rfl

theorem Shadows.agrees (hr : Shadows k r r') : r.Agrees r' := by
  obtain ⟨w, rfl, hw⟩ := hr
  exact ⟨rfl, hw.waitingStates_eq⟩

theorem Shadows.hasWaiting (hr : Shadows k r r') (h : r.hasWaiting = true) :
    r'.hasWaiting = true := by
  obtain ⟨w, rfl, hw⟩ := hr
  cases hwaiting : (r.exchange w).hasWaiting with
  | true => rfl
  | false =>
    have hnil : w.queue.toList = [] := (hasWaiting_eq_false_iff Deferred.ordered).1 hwaiting
    have hlive := hw.live
    rw [hnil] at hlive
    rw [(hasWaiting_eq_false_iff Fifo.ordered).2 hlive] at h
    cases h

section Answers
variable {W : Type} [Waitlist W]

/-- What is removed is handed back. -/
theorem map_removeHandle? (r : Reached S P W) (h : Handle) :
    (r.removeHandle? h).map Prod.fst = r.get? h := by
  unfold removeHandle? get?
  cases hrem : r.arena.remove? h with
  | none => rw [Arena.remove?_eq_none_iff.1 hrem]; rfl
  | some removed => rw [(Arena.get?_remove hrem).1]; rfl

variable [BEq S] [BEq P]

theorem answer_removeHandle (r : Reached S P W) (h : Handle) :
    (r.perform (.removeHandle h)).1 = .pair? (r.get? h) := by
  rw [← map_removeHandle?, perform]
  cases r.removeHandle? h <;> rfl

theorem answer_remove (r : Reached S P W) (s : S) :
    (r.perform (.remove s)).1 = .flag ((r.find? s).bind r.get?).isSome := by
  have hbind : ((r.find? s).bind r.get?).isSome = ((r.find? s).bind r.removeHandle?).isSome := by
    cases r.find? s with
    | none => rfl
    | some h => rw [Option.bind_some, Option.bind_some, ← map_removeHandle?, Option.isSome_map]
  rw [hbind, perform, remove]
  cases (r.find? s).bind r.removeHandle? <;> rfl

end Answers

/-! ### Elementary changes -/

/-- A live handle that does not wait yet comes last. -/
theorem Shadow.push {w : Deferred} (hr : Shadow k r w) {h : Handle} {e : Entry S P}
    (he : r.arena.get? h = some e) (hwait : e.waiting = false) :
    Shadow k {r with
      arena := r.arena.modify h fun e => {e with waiting := true}
      waitlist := r.waitlist.push h} ⟨w.queue.push h⟩ := by
  have hlive : r.arena.contains h = true := by
    rw [Arena.contains_eq, he]
    rfl
  have hout : h ∉ r.waitlist.toList := fun hmem => by
    have hwaits := hr.waits h hmem
    simp only [isWaiting, he, Option.map_some, Option.getD_some, hwait] at hwaits
    cases hwaits
  have hcontains := Arena.contains_modify r.arena h fun e => {e with waiting := true}
  refine ⟨?_, fun g hmem => ?_, ?_, fun g hmem hdead => ?_⟩
  · simp only [Fifo.toList_push, List.filter_append, hcontains, List.filter_singleton, hlive,
      hr.live, cond_true]
  · rw [Fifo.toList_push, List.mem_append, List.mem_singleton] at hmem
    simp only [isWaiting, Arena.get?_modify]
    by_cases hg : g = h
    · rw [if_pos hg, he]
      rfl
    · rw [if_neg hg]
      exact hr.waits g (hmem.resolve_right hg)
  · simp only [Fifo.toList_push]
    exact List.nodup_append.2 ⟨hr.nodup, List.nodup_singleton h, fun g hg g' hg' he => hout (by
      rw [List.mem_singleton] at hg'
      rwa [← hg', ← he])⟩
  · simp only [hcontains] at hdead
    simp only [Fifo.toList_push, List.mem_append, List.mem_singleton] at hmem
    rcases hmem with hmem | rfl
    · simp only [Arena.generation_modify]
      exact hr.stale g hmem hdead
    · rw [hlive] at hdead
      cases hdead

namespace Shadows

theorem enqueue (hr : Shadows k r r') (h : Handle) :
    (r'.enqueue h).1 = (r.enqueue h).1 ∧ Shadows k (r.enqueue h).2 (r'.enqueue h).2 := by
  obtain ⟨w, rfl, hw⟩ := hr
  have harena : (r.exchange w).arena = r.arena := rfl
  unfold Reached.enqueue
  rw [harena]
  cases he : r.arena.get? h with
  | none => exact ⟨rfl, w, rfl, hw⟩
  | some e =>
    simp only
    cases hwait : e.waiting with
    | true => exact ⟨rfl, w, rfl, hw⟩
    | false => exact ⟨rfl, _, rfl, hw.push he hwait⟩

theorem pop (hr : Shadows k r r') : r'.pop.1 = r.pop.1 ∧ Shadows k r.pop.2 r'.pop.2 := by
  obtain ⟨w, rfl, hw⟩ := hr
  have hfilter : r.waitlist.toList.filter r.arena.contains = r.waitlist.toList := by
    rw [hw.live, List.filter_filter]
    exact List.filter_congr fun _ _ => Bool.and_self _
  cases hlist : r.waitlist.toList with
  | nil =>
    obtain ⟨w₁, hpop, hnil⟩ := pop_of_filter_eq_nil Fifo.ordered (hfilter.trans hlist)
    obtain ⟨w₂, hpop', hnil'⟩ := pop_of_filter_eq_nil (r := r.exchange w) Deferred.ordered
      (hw.live.symm.trans hlist)
    rw [hpop, hpop']
    refine ⟨rfl, w₂, rfl, ?_, fun h hmem => ?_, ?_, fun h hmem => ?_⟩
    · exact hnil.trans (by rw [show w₂.queue.toList = [] from hnil']; rfl)
    · rw [show w₁.toList = [] from hnil] at hmem
      cases hmem
    · rw [show w₁.toList = [] from hnil]
      exact .nil
    · rw [show w₂.queue.toList = [] from hnil'] at hmem
      cases hmem
  | cons h others =>
    obtain ⟨w₁, hpop, hrest, hkept⟩ := pop_of_filter_eq_cons Fifo.ordered (hfilter.trans hlist)
    obtain ⟨w₂, hpop', hrest', hsubset⟩ := pop_of_filter_eq_cons (r := r.exchange w)
      Deferred.ordered (hw.live.symm.trans hlist)
    have hcontains := Arena.contains_modify r.arena h fun e => {e with waiting := false}
    have hothers : w₁.toList = others := by
      refine Eq.trans ?_ hrest
      refine (List.filter_eq_self.2 fun g hg => ?_).symm
      have hlive := List.filter_eq_self.1 hfilter
      exact hlive g (hkept hg)
    obtain ⟨hout, hnodup⟩ := List.nodup_cons.1 (hlist ▸ hw.nodup)
    rw [hpop, hpop']
    refine ⟨rfl, w₂, rfl, ?_, fun g hmem => ?_, hothers ▸ hnodup, fun g hmem hdead => ?_⟩
    · rw [hcontains]
      exact hothers.trans hrest'.symm
    · have hg : g ∈ others := hothers ▸ hmem
      have hne : g ≠ h := fun hgh => hout (hgh ▸ hg)
      simp only [isWaiting, Arena.get?_modify, if_neg hne]
      exact hw.waits g (hlist ▸ List.mem_cons_of_mem _ hg)
    · rw [hcontains] at hdead
      simp only [Arena.generation_modify]
      exact hw.stale g (hsubset hmem) hdead

/-- A precision is nothing to the waitlist. -/
theorem setPrecision (hr : Shadows k r r') (h : Handle) (p : P) :
    Shadows k (r.setPrecision h p) (r'.setPrecision h p) := by
  obtain ⟨w, rfl, hw⟩ := hr
  refine ⟨w, rfl, hw.congr rfl (fun g => ?_) (fun g hg => ?_) (generation_setPrecision r h p)⟩
  · exact congrFun (Arena.contains_modify ..) g
  · have hwaits := hw.waits g hg
    unfold isWaiting at hwaits ⊢
    rw [get?_setPrecision]
    split
    · rename_i hgh
      rw [hgh] at hwaits
      cases he : r.arena.get? h <;> simp_all
    · exact hwaits

theorem seeds (hr : Shadows k r r') (seeds : List (S × P)) :
    Shadows k {r with seeds := seeds} {r' with seeds := seeds} := by
  obtain ⟨w, rfl, hw⟩ := hr
  exact ⟨w, rfl, hw.live, hw.waits, hw.nodup, hw.stale⟩

theorem latest (hr : Shadows k r r') (h : Handle) :
    Shadows k {r with last := some h} {r' with last := some h} := by
  obtain ⟨w, rfl, hw⟩ := hr
  exact ⟨w, rfl, hw.live, hw.waits, hw.nodup, hw.stale⟩

theorem eldest (hr : Shadows k r r') (h : Handle) :
    Shadows k {r with first := r.first <|> some h} {r' with first := r'.first <|> some h} := by
  obtain ⟨w, rfl, hw⟩ := hr
  exact ⟨w, rfl, hw.live, hw.waits, hw.nodup, hw.stale⟩

theorem clear (hr : Shadows k r r') (m : Nat) : Shadows m r.clear r'.clear := by
  obtain ⟨w, rfl, -⟩ := hr
  exact ⟨{}, rfl, rfl, fun _ h => (List.not_mem_nil h).elim, .nil,
    fun _ h => (List.not_mem_nil h).elim⟩

/-- A cell that is used again does not bring a dead handle back. -/
theorem insert (hr : Shadows k r r') (hk : k < UInt32.size) (e : Entry S P)
    (partitions : Partitions (AbstractState.Location S)) :
    Shadows k {r with arena := (r.arena.add e).2, partitions := partitions}
      {r' with arena := (r'.arena.add e).2, partitions := partitions} := by
  obtain ⟨w, rfl, hw⟩ := hr
  have hcontains : ∀ g, (r.arena.add e).2.contains g =
      (decide (g = (r.arena.add e).1) || r.arena.contains g) := fun g => by
    rw [Arena.contains_eq, Arena.contains_eq, Arena.get?_add_eq]
    by_cases hg : g = (r.arena.add e).1 <;> simp [hg]
  have hfresh : r.arena.contains (r.arena.add e).1 = false := by
    rw [Arena.contains_eq, Arena.get?_add_fresh]
    rfl
  have hout : (r.arena.add e).1 ∉ w.queue.toList := fun hmem => by
    obtain ⟨d, hpos, hle, hgeneration⟩ := hw.stale _ hmem hfresh
    rw [← Arena.generation_add r.arena e, Arena.generation_of_get? (Arena.get?_add_self ..)]
      at hgeneration
    have hzero : UInt32.ofNat d = 0 := by simpa using hgeneration
    have hmod := congrArg UInt32.toNat hzero
    rw [UInt32.toNat_ofNat_of_lt' (Nat.lt_of_le_of_lt hle hk)] at hmod
    exact Nat.ne_of_gt hpos hmod
  refine ⟨w, rfl, ?_, fun g hmem => ?_, hw.nodup, fun g hmem hdead => ?_⟩
  · refine hw.live.trans (List.filter_congr fun g hg => ?_)
    have hne : g ≠ (r.arena.add e).1 := fun hge => hout (hge ▸ hg)
    rw [hcontains, decide_eq_false hne, Bool.false_or]
  · have hne : g ≠ (r.arena.add e).1 := fun hge => by
      have hmem' := hw.live ▸ hmem
      exact hout (hge ▸ List.mem_of_mem_filter hmem')
    simp only [isWaiting, Arena.get?_add_eq, if_neg hne]
    exact hw.waits g hmem
  · simp only [Arena.generation_add]
    simp only [hcontains, Bool.or_eq_false_iff] at hdead
    exact hw.stale g hmem hdead.2

theorem publish (hr : Shadows k r r') (hk : k < UInt32.size) (s : S) (p : P) :
    (r'.publish s p).1 = (r.publish s p).1 ∧ Shadows k (r.publish s p).2 (r'.publish s p).2 := by
  have hinserted := hr.insert hk ⟨s, p, false⟩
    (r.partitions.enter (AbstractState.location s) (r.arena.add ⟨s, p, false⟩).1)
  have hqueued := (hinserted.enqueue (r.arena.add ⟨s, p, false⟩).1).2
  obtain ⟨w, rfl, -⟩ := hr
  exact ⟨rfl, (hqueued.eldest _).latest _⟩

/-- Removing takes a live handle out of one waitlist, and makes a dead one of it in the other. -/
theorem removeHandle (hr : Shadows k r r') (h : Handle) :
    Shadows (k + (r.dropped [h]).length) (r.removeHandle h) (r'.removeHandle h) := by
  obtain ⟨w, rfl, hw⟩ := hr
  have harena : (r.exchange w).arena = r.arena := rfl
  unfold Reached.removeHandle removeHandle?
  rw [harena]
  cases hrem : r.arena.remove? h with
  | none => exact ⟨w, rfl, hw.mono (Nat.le_add_right ..)⟩
  | some removed =>
    obtain ⟨e, arena⟩ := removed
    have he := (Arena.get?_remove hrem).1
    have hlive : r.arena.contains h = true := by
      rw [Arena.contains_eq, he]
      rfl
    have hdropped : (r.dropped [h]).length = 1 := by simp [dropped, hlive]
    have hcontains : ∀ g, arena.contains g = (g != h && r.arena.contains g) := fun g => by
      rw [Arena.contains_eq, Arena.contains_eq, Arena.get?_remove_eq hrem]
      by_cases hg : g = h <;> simp [hg]
    have hview : ∀ g ∈ r.waitlist.toList, g ≠ h → arena.get? g = r.arena.get? g := fun g _ hg => by
      rw [Arena.get?_remove_eq hrem, if_neg hg]
    have hlist : (if e.waiting then (Waitlist.remove r.waitlist h).2 else r.waitlist).toList =
        r.waitlist.toList.filter (· != h) := by
      by_cases hwait : e.waiting = true
      · rw [if_pos hwait, ← hw.nodup.erase_eq_filter]
        exact Fifo.toList_remove ..
      · rw [if_neg hwait]
        refine (List.filter_eq_self.2 fun g hg => bne_iff_ne.2 fun hgh => hwait ?_).symm
        have hwaits := hw.waits g hg
        rwa [isWaiting, hgh, he] at hwaits
    have hqueue : (if e.waiting then (Waitlist.remove w h).2 else w) = w := by
      cases e.waiting <;> rfl
    rw [hdropped]
    refine ⟨if e.waiting then (Waitlist.remove w h).2 else w, rfl, ?_⟩
    rw [hqueue]
    refine ⟨?_, fun g hmem => ?_, ?_, fun g hmem hdead => ?_⟩
    · refine hlist.trans ?_
      rw [hw.live, List.filter_filter]
      exact List.filter_congr fun g _ => (hcontains g).symm
    · rw [hlist, List.mem_filter, bne_iff_ne] at hmem
      simp only [isWaiting, hview g hmem.1 hmem.2]
      exact hw.waits g hmem.1
    · rw [hlist]
      exact hw.nodup.filter _
    · simp only [hcontains, Bool.and_eq_false_iff, bne_eq_false_iff_eq] at hdead
      simp only [Arena.generation_remove hrem]
      by_cases hgh : g = h
      · subst hgh
        exact ⟨1, Nat.one_pos, Nat.le_add_left 1 k, by rw [Arena.generation_of_get? he]; simp⟩
      · obtain ⟨d, hpos, hle, hgeneration⟩ := hw.stale g hmem (hdead.resolve_left hgh)
        rw [hgeneration]
        by_cases hi : h.index = g.index
        · refine ⟨d + 1, Nat.succ_pos d, Nat.succ_le_succ hle, ?_⟩
          rw [if_pos hi, UInt32.ofNat_add, ← UInt32.add_assoc]
          rfl
        · exact ⟨d, hpos, Nat.le_succ_of_le hle, by rw [if_neg hi, UInt32.add_zero]⟩

/-! ### Operations -/

theorem removeHandles (gone : List Handle) {k : Nat} {r : Reached S P Fifo}
    {r' : Reached S P Deferred} (hr : Shadows k r r') :
    Shadows (k + (r.dropped gone).length) (gone.foldl Reached.removeHandle r)
      (gone.foldl Reached.removeHandle r') := by
  induction gone generalizing k r r' with
  | nil => exact hr
  | cons h rest ih =>
    have hrest := ih (hr.removeHandle h)
    rw [Nat.add_assoc, ← List.length_append] at hrest
    rwa [dropped, ← List.append_nil (if r.arena.contains h then [h] else [])]

theorem get?_eq (hr : Shadows k r r') : r'.get? = r.get? := by
  obtain ⟨w, rfl, -⟩ := hr
  rfl

variable [BEq S]

theorem find?_eq (hr : Shadows k r r') (s : S) : r'.find? s = r.find? s := by
  obtain ⟨w, rfl, -⟩ := hr
  rfl

variable [BEq P]

theorem add (hr : Shadows k r r') (hk : k < UInt32.size) (s : S) (p : P) :
    (r'.add s p).1 = (r.add s p).1 ∧ Shadows k (r.add s p).2 (r'.add s p).2 := by
  have hfind := hr.find?_eq s
  have hprecision : ∀ h, r'.precision? h = r.precision? h := by
    obtain ⟨w, rfl, -⟩ := hr
    exact fun _ => rfl
  unfold Reached.add
  rw [hfind]
  cases r.find? s with
  | none => exact hr.publish hk s p
  | some h =>
    simp only [hprecision]
    refine ⟨trivial, latest ?_ h⟩
    split
    · split
      · exact ((hr.setPrecision h p).enqueue h).2
      · exact hr
    · exact hr

theorem addAll (fresh : List (S × P)) {r : Reached S P Fifo} {r' : Reached S P Deferred}
    (hr : Shadows k r r') (hk : k < UInt32.size) :
    Shadows k (fresh.foldl (fun r (s, p) => (r.add s p).2) r)
      (fresh.foldl (fun r (s, p) => (r.add s p).2) r') := by
  induction fresh generalizing r r' with
  | nil => exact hr
  | cons pair rest ih => exact ih (hr.add hk pair.1 pair.2).2

/-- Every operation answers the same on both, and keeps the one the shadow of the other. -/
theorem perform (hr : Shadows k r r') (op : Operation S P)
    (hk : k + (r.removed op).length < UInt32.size) :
    (r'.perform op).1 = (r.perform op).1 ∧
      Shadows (k + (r.removed op).length) (r.perform op).2 (r'.perform op).2 := by
  have hagrees := hr.agrees
  cases op with
  | addInitial s p =>
    have hseeds : r'.seeds = r.seeds := by rw [hagrees.same]; rfl
    have hafter := hr.seeds (r.seeds ++ [(s, p)])
    simp only [Reached.perform, addInitial, hseeds]
    exact ⟨rfl, hafter⟩
  | takeSeeds =>
    have hseeds : r'.seeds = r.seeds := by rw [hagrees.same]; rfl
    exact ⟨congrArg Answer.pairs hseeds, hr.seeds []⟩
  | add s p =>
    obtain ⟨hanswer, hafter⟩ := hr.add hk s p
    exact ⟨congrArg Answer.handle hanswer, hafter⟩
  | removeHandle h =>
    rw [perform_removeHandle, perform_removeHandle, answer_removeHandle, answer_removeHandle]
    exact ⟨congrArg Answer.pair? (congrFun hr.get?_eq h), hr.removeHandles [h]⟩
  | remove s =>
    rw [perform_remove, perform_remove, answer_remove, answer_remove, hr.find?_eq, hr.get?_eq]
    exact ⟨rfl, hr.removeHandles (r.find? s).toList⟩
  | update gone fresh => exact ⟨rfl, (hr.removeHandles gone).addAll fresh hk⟩
  | updatePrecision h p =>
    have hcontains : r'.arena.contains h = r.arena.contains h := by rw [hagrees.same]; rfl
    simp only [Reached.perform, updatePrecision, hcontains]
    split
    · exact ⟨rfl, ((hr.setPrecision h p).enqueue h).2⟩
    · exact ⟨rfl, hr⟩
  | clear => exact ⟨rfl, hr.clear _⟩
  | pop =>
    obtain ⟨hanswer, hafter⟩ := hr.pop
    exact ⟨congrArg Answer.handle? hanswer, hafter⟩
  | enqueue h =>
    obtain ⟨hanswer, hafter⟩ := hr.enqueue h
    exact ⟨congrArg Answer.flag hanswer, hafter⟩
  | isWaiting h =>
    obtain ⟨w, rfl, hw⟩ := hr
    exact ⟨rfl, w, rfl, hw⟩
  | get h =>
    obtain ⟨w, rfl, hw⟩ := hr
    exact ⟨rfl, w, rfl, hw⟩
  | lookUp s =>
    obtain ⟨w, rfl, hw⟩ := hr
    exact ⟨rfl, w, rfl, hw⟩
  | states =>
    obtain ⟨w, rfl, hw⟩ := hr
    exact ⟨rfl, w, rfl, hw⟩
  | waitingStates => exact ⟨congrArg Answer.states hagrees.waitingStates, hr⟩

end Shadows

section Sequences
variable [BEq S] [BEq P]

/-- The answers to a sequence of operations, in turn. -/
def answers {W : Type} [Waitlist W] (r : Reached S P W) : List (Operation S P) → List (Answer S P)
  | [] => []
  | op :: ops => (r.perform op).1 :: (r.perform op).2.answers ops

theorem Shadows.performAll (ops : List (Operation S P)) {k : Nat} {r : Reached S P Fifo}
    {r' : Reached S P Deferred} (hr : Shadows k r r')
    (hk : k + (r.removals ops).length < UInt32.size) :
    r'.answers ops = r.answers ops ∧
      Shadows (k + (r.removals ops).length) (r.performAll ops) (r'.performAll ops) := by
  induction ops generalizing k r r' with
  | nil => exact ⟨rfl, hr⟩
  | cons op rest ih =>
    rw [removals, List.length_append, ← Nat.add_assoc] at hk ⊢
    obtain ⟨hanswer, hafter⟩ := hr.perform op (Nat.lt_of_le_of_lt (Nat.le_add_right ..) hk)
    obtain ⟨hanswers, hlast⟩ := ih hafter hk
    exact ⟨by rw [answers, answers, hanswer, hanswers], hlast⟩

/-- Nothing reached yet, first in, first out. -/
def prompt : Reached S P Fifo :=
  { waitlist := {} }

/-- Nothing reached yet, first in, first out, with removal put off. -/
def deferring : Reached S P Deferred :=
  { waitlist := {} }

/-- These operations remove fewer pairs than a cell has generations. -/
def Few (ops : List (Operation S P)) : Prop :=
  ((prompt : Reached S P Fifo).removals ops).length < UInt32.size

theorem Few.of_append {ops rest : List (Operation S P)} (h : Few (ops ++ rest)) : Few ops := by
  unfold Few at h ⊢
  rw [removals_append, List.length_append] at h
  exact Nat.lt_of_le_of_lt (Nat.le_add_right ..) h

/-- Putting off removals changes no answer, as long as fewer pairs are removed than a cell has
generations. -/
theorem Few.shadows {ops : List (Operation S P)} (h : Few ops) :
    (deferring : Reached S P Deferred).answers ops = (prompt : Reached S P Fifo).answers ops ∧
      ∃ k, Shadows k ((prompt : Reached S P Fifo).performAll ops) (deferring.performAll ops) := by
  obtain ⟨hanswers, hlast⟩ := shadows_empty.performAll ops (by rwa [Nat.zero_add])
  exact ⟨hanswers, _, hlast⟩

end Sequences
end Reached
end Reachability
