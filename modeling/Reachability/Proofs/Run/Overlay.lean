import Reachability.Proofs.Run.Lockstep

/-! Analyses that remember more.

One analysis lies over another if its operators give the same replies to whoever sees a part of
what they remember only. Merging is left open here: whatever the two do about it, their runs go
in lockstep if merging and settling do (`Overlay.lockstep`). What goes along with the runs may be
any relation of explorations that is kept where both move alike; the least of them says that
they have the same reached set, the same shutdown switch and the same counts
(`Exploration.Overlaid`). If the replies to merges are the same, too, the one analysis mirrors the
other, and their runs are the same to whoever sees no more, down to the timers
(`Mirrored.run`). -/
namespace Reachability

open Exploration

variable {ω ω' S P W α : Type}

/-- A reply as it looks to whoever sees part of what is remembered. -/
def Reply.seen (view : ω' → ω) (r : Reply ω' α) : Reply ω α :=
  ⟨r.result, view r.memory, r.request, r.elapsed⟩

/-- Counts, whatever the timers show. -/
def Statistics.Counting (f : Statistics → Statistics) : Prop :=
  ∀ s, f s = {f s.counts with timers := s.timers, misuse := s.misuse}

variable [AbstractState S]

/-- The operators of `b` reply as those of `a` do, merging apart. -/
structure Analysis.Overlays (view : ω' → ω) (a : Analysis ω S P W) (b : Analysis ω' S P W) :
    Prop where
  transfer : ∀ s p w, (b.transfer s p w).seen view = a.transfer s p (view w)
  stop : ∀ s reached p w, (b.stop s reached p w).seen view = a.stop s reached p (view w)
  adjust : ∀ s p r w, (b.adjust s p r w).seen view = a.adjust s p r (view w)
  cover : Option.Rel (fun c c' => ∀ s p r w,
    (c'.attempt s p r w).reply.seen view = (c.attempt s p r (view w)).reply ∧
      (c'.attempt s p r w).operations = (c.attempt s p r (view w)).operations) a.cover b.cover
  status : b.status = a.status

namespace Exploration

/-- From `x` and `y` on, both do the same to the reached set and take in the same replies, in the
same time. -/
structure Alike (view : ω' → ω) (x x₁ : Exploration ω S P W) (y y₁ : Exploration ω' S P W) :
    Prop where
  reached : y₁.reached = x₁.reached
  memory : view y₁.memory = x₁.memory
  shutdown : y₁.shutdown = x₁.shutdown
  statistics : x₁.statistics = x.statistics
  statistics' : y₁.statistics = y.statistics
  clock : ∃ time, x₁.clock = x.clock + time ∧ y₁.clock = y.clock + time

/-- Nothing that the runs go by differs, and nothing that they count. -/
structure Overlaid (view : ω' → ω) (x : Exploration ω S P W) (y : Exploration ω' S P W) :
    Prop where
  reached : y.reached = x.reached
  memory : view y.memory = x.memory
  shutdown : y.shutdown = x.shutdown
  counts : y.counts = x.counts

/-- Overlaid, and the timers and the clock agree as well. -/
structure Mirrored (view : ω' → ω) (x : Exploration ω S P W) (y : Exploration ω' S P W) :
    Prop where
  reached : y.reached = x.reached
  memory : view y.memory = x.memory
  shutdown : y.shutdown = x.shutdown
  statistics : y.statistics = x.statistics
  clock : y.clock = x.clock

variable {view : ω' → ω} {x x₁ x₂ : Exploration ω S P W} {y y₁ y₂ : Exploration ω' S P W}

theorem absorb_statistics (x : Exploration ω S P W) (r : Reply ω α) :
    (x.absorb r).statistics = x.statistics ∧ (x.absorb r).clock = x.clock + r.elapsed := by
  unfold Exploration.absorb
  cases r.request with
  | none => exact ⟨rfl, rfl⟩
  | some reason =>
    simp only [requestShutdown]
    generalize x.shutdown.request reason = requested
    obtain ⟨won, shutdown⟩ := requested
    cases won <;> exact ⟨rfl, rfl⟩

theorem Alike.absorb (h : Alike view x x₁ y y₁) {r : Reply ω α} {r' : Reply ω' α}
    (hr : r'.seen view = r) : Alike view x (x₁.absorb r) y (y₁.absorb r') := by
  obtain ⟨hstatistics, hclock⟩ := absorb_statistics x₁ r
  obtain ⟨hstatistics', hclock'⟩ := absorb_statistics y₁ r'
  have hmind := mind_absorb x₁ r
  have hmind' := mind_absorb y₁ r'
  have hmemory : (x₁.absorb r).memory = r.memory := congrArg Prod.fst hmind
  have hmemory' : (y₁.absorb r').memory = r'.memory := congrArg Prod.fst hmind'
  have hshutdown : (x₁.absorb r).shutdown = (heed x₁.mind r).2 := congrArg Prod.snd hmind
  have hshutdown' : (y₁.absorb r').shutdown = (heed y₁.mind r').2 := congrArg Prod.snd hmind'
  obtain ⟨time, htime, htime'⟩ := h.clock
  subst hr
  exact {
    reached := by rw [reached_absorb, reached_absorb, h.reached]
    memory := by rw [hmemory, hmemory']; rfl
    shutdown := by rw [hshutdown, hshutdown', heed, heed, mind, mind, h.shutdown]; rfl
    statistics := hstatistics.trans h.statistics
    statistics' := hstatistics'.trans h.statistics'
    clock := ⟨time + r'.elapsed, by rw [hclock, htime, Nat.add_assoc]; rfl,
      by rw [hclock', htime', Nat.add_assoc]⟩ }

theorem Alike.applyAll [Waitlist W] [BEq S] [BEq P] (h : Alike view x x₁ y y₁)
    (ops : List (Operation S P)) :
    Alike view x (ops.foldl Exploration.apply x₁) y (ops.foldl Exploration.apply y₁) := by
  induction ops generalizing x₁ y₁ with
  | nil => exact h
  | cons op rest ih =>
    refine ih ⟨?_, h.memory, h.shutdown, h.statistics, h.statistics', h.clock⟩
    rw [reached_apply, reached_apply, h.reached]

end Exploration

variable [Waitlist W] [BEq S] [BEq P]

/-- A relation that is kept where both explorations move alike. Timers other than those for
merging and for the whole run measure such moves. -/
structure Overlay (view : ω' → ω) (R : Exploration ω S P W → Exploration ω' S P W → Prop) :
    Prop where
  overlaid : ∀ {x y}, R x y → Overlaid view x y
  move : ∀ {x x₁ y y₁}, R x y → Alike view x x₁ y y₁ → x₁.clock = x.clock → R x₁ y₁
  timed : ∀ {x x₁ y y₁ p}, R x y → p ≠ .total → p ≠ .merge →
    Alike view (x.start p) x₁ (y.start p) y₁ → R (x₁.stop p) (y₁.stop p)
  tally : ∀ {x y f}, R x y → Statistics.Counting f → R (x.tally f) (y.tally f)

omit [Waitlist W] [BEq S] [BEq P] in
theorem Exploration.Overlaid.overlay (view : ω' → ω) :
    Overlay view (Overlaid (S := S) (P := P) (W := W) view) where
  overlaid h := h
  move h hmove _ := ⟨hmove.reached, hmove.memory, hmove.shutdown,
    (congrArg Statistics.counts hmove.statistics').trans
      (h.counts.trans (congrArg Statistics.counts hmove.statistics).symm)⟩
  timed {x x₁ y y₁ p} h _ _ hmove := by
    refine ⟨hmove.reached, hmove.memory, hmove.shutdown, ?_⟩
    have hx : x₁.counts = x.counts :=
      (congrArg Statistics.counts hmove.statistics).trans (counts_start x p)
    have hy : y₁.counts = y.counts :=
      (congrArg Statistics.counts hmove.statistics').trans (counts_start y p)
    rw [counts_stop, counts_stop, hx, hy, h.counts]
  tally {x y f} h hf := by
    refine ⟨h.reached, h.memory, h.shutdown, ?_⟩
    have hcounts : y.statistics.counts = x.statistics.counts := h.counts
    show (f y.statistics).counts = (f x.statistics).counts
    rw [hf, hf x.statistics, hcounts]
    rfl

omit [Waitlist W] [BEq S] [BEq P] in
theorem Exploration.Overlaid.start {view : ω' → ω} {x : Exploration ω S P W}
    {y : Exploration ω' S P W} (h : Overlaid view x y) (p : Phase) :
    Overlaid view (x.start p) (y.start p) :=
  ⟨h.reached, h.memory, h.shutdown, by rw [counts_start, counts_start, h.counts]⟩

omit [BEq S] [BEq P] in
theorem Exploration.Overlaid.conclude {view : ω' → ω} {x : Exploration ω S P W}
    {y : Exploration ω' S P W} (h : Overlaid view x y) (result : Except Abort Outcome) :
    Overlaid view (conclude result x) (conclude result y) := by
  cases result <;> exact ⟨h.reached, h.memory, h.shutdown, h.counts⟩

namespace Exploration.Mirrored

variable {view : ω' → ω} {x x₁ : Exploration ω S P W} {y y₁ : Exploration ω' S P W}

omit [Waitlist W] [BEq S] [BEq P] in
theorem overlaid (h : Mirrored view x y) : Overlaid view x y :=
  ⟨h.reached, h.memory, h.shutdown, congrArg Statistics.counts h.statistics⟩

omit [Waitlist W] [BEq S] [BEq P] in
theorem of_alike (h : Mirrored view x y) (hmove : Alike view x x₁ y y₁) : Mirrored view x₁ y₁ := by
  obtain ⟨time, htime, htime'⟩ := hmove.clock
  exact ⟨hmove.reached, hmove.memory, hmove.shutdown,
    hmove.statistics'.trans (h.statistics.trans hmove.statistics.symm), by
      rw [htime, htime', h.clock]⟩

omit [Waitlist W] [BEq S] [BEq P] in
theorem tally (h : Mirrored view x y) (f : Statistics → Statistics) :
    Mirrored view (x.tally f) (y.tally f) :=
  ⟨h.reached, h.memory, h.shutdown, congrArg f h.statistics, h.clock⟩

omit [Waitlist W] [BEq S] [BEq P] in
theorem start (h : Mirrored view x y) (p : Phase) : Mirrored view (x.start p) (y.start p) := by
  unfold Exploration.start
  rw [h.clock]
  exact h.tally _

omit [Waitlist W] [BEq S] [BEq P] in
theorem stop (h : Mirrored view x y) (p : Phase) : Mirrored view (x.stop p) (y.stop p) := by
  unfold Exploration.stop
  rw [h.clock]
  exact h.tally _

omit [BEq S] [BEq P] in
theorem conclude (h : Mirrored view x y) (result : Except Abort Outcome) :
    Mirrored view (conclude result x) (conclude result y) := by
  have hstopped : ({y.statistics with timers := y.statistics.timers.stopAll y.clock} : Statistics) =
      {x.statistics with timers := x.statistics.timers.stopAll x.clock} := by
    rw [h.statistics, h.clock]
  cases result <;> exact ⟨h.reached, h.memory, h.shutdown, hstopped, h.clock⟩

omit [Waitlist W] [BEq S] [BEq P] in
theorem overlay (view : ω' → ω) : Overlay view (Mirrored (S := S) (P := P) (W := W) view) where
  overlaid h := h.overlaid
  move h hmove _ := h.of_alike hmove
  timed h _ _ hmove := ((h.start _).of_alike hmove).stop _
  tally h _ := h.tally _

end Exploration.Mirrored

namespace Overlay

variable {view : ω' → ω} {R : Exploration ω S P W → Exploration ω' S P W → Prop}
  (hR : Overlay view R) {x : Exploration ω S P W} {y : Exploration ω' S P W}
include hR

omit [Waitlist W] [BEq S] [BEq P] in
theorem alike_refl (hxy : R x y) : Alike view x x y y :=
  ⟨(hR.overlaid hxy).reached, (hR.overlaid hxy).memory, (hR.overlaid hxy).shutdown, rfl, rfl,
    0, rfl, rfl⟩

omit [Waitlist W] [BEq S] [BEq P] in
theorem alike_start (hxy : R x y) (p : Phase) :
    Alike view (x.start p) (x.start p) (y.start p) (y.start p) :=
  ⟨(hR.overlaid hxy).reached, (hR.overlaid hxy).memory, (hR.overlaid hxy).shutdown, rfl, rfl,
    0, rfl, rfl⟩

omit [Waitlist W] [BEq S] [BEq P] in
theorem note (hxy : R x y) (e e' : Event S P) : R (x.note e) (y.note e') :=
  have hsame := hR.alike_refl hxy
  hR.move hxy ⟨hsame.reached, hsame.memory, hsame.shutdown, rfl, rfl, 0, rfl, rfl⟩ rfl

theorem applyAll (hxy : R x y) (ops : List (Operation S P)) :
    R (ops.foldl Exploration.apply x) (ops.foldl Exploration.apply y) := by
  have hclock : ∀ (ops : List (Operation S P)) (x : Exploration ω S P W),
      (ops.foldl Exploration.apply x).clock = x.clock := fun ops => by
    induction ops with
    | nil => exact fun _ => rfl
    | cons op rest ih => exact fun x => ih (x.apply op)
  exact hR.move hxy ((hR.alike_refl hxy).applyAll ops) (hclock ops x)

theorem publish (hxy : R x y) (s : S) (p : P) : R (x.publish s p) (y.publish s p) :=
  hR.timed hxy (fun h => by cases h) (fun h => by cases h)
    ((hR.alike_start hxy .add).applyAll [.add s p])

omit [Waitlist W] [BEq S] [BEq P] in
theorem timed_ask {p : Phase} (htotal : p ≠ .total) (hmerge : p ≠ .merge) (hxy : R x y)
    {f : Exploration ω S P W → Ask ω α} {g : Exploration ω' S P W → Ask ω' α}
    (hasked : (g (y.start p) y.memory).seen view = f (x.start p) x.memory) :
    Matches R (x.timed p fun x => x.ask (f x)) (y.timed p fun y => y.ask (g y)) :=
  ⟨congrArg Reply.result hasked,
    hR.timed hxy htotal hmerge ((hR.alike_start hxy p).absorb hasked)⟩

omit [BEq S] [BEq P] in
theorem popNext (hxy : R x y) : Matches R x.popNext y.popNext := by
  have hreached := (hR.overlaid hxy).reached
  have hcounted : R x.countIteration y.countIteration := by
    unfold countIteration
    rw [hreached]
    exact hR.tally hxy fun _ => rfl
  have hpop : Matches R (x.countIteration.timed .choose pop) (y.countIteration.timed .choose pop) := by
    have hstarted := hR.alike_start hcounted .choose
    refine ⟨congrArg (fun r => r.pop.1) hreached,
      hR.timed hcounted (fun h => by cases h) (fun h => by cases h)
        ⟨?_, hstarted.memory, hstarted.shutdown, rfl, rfl, 0, rfl, rfl⟩⟩
    exact congrArg (fun r => r.pop.2) hreached
  exact hpop

theorem publishSeeds (hxy : R x y) : R x.publishSeeds y.publishSeeds := by
  rw [publishSeeds_eq, publishSeeds_eq, (hR.overlaid hxy).reached]
  exact hR.applyAll hxy _

variable {a : Analysis ω S P W} {b : Analysis ω' S P W} (hab : a.Overlays view b)
include hab

/-! ### Successors -/

omit [Waitlist W] [BEq S] [BEq P] in
theorem isCovered (hxy : R x y) (s : S) (p : P) :
    Matches R (Exploration.isCovered a s p x) (Exploration.isCovered b s p y) := by
  refine hR.timed_ask (fun h => by cases h) (fun h => by cases h) hxy ?_
  have hsame := hR.overlaid hxy
  rw [hab.stop, hsame.memory, reached_start, reached_start, hsame.reached]

theorem settle (hxy : R x y) (s : S) (p : P) :
    Matches R (Exploration.settle a s p x) (Exploration.settle b s p y) := by
  obtain ⟨answer, u, v, hu, hv, huv⟩ := (hR.isCovered hab hxy s p).exists_eq
  unfold Exploration.settle
  rw [hu, hv]
  match answer with
  | .error e => exact ⟨rfl, huv⟩
  | .ok true =>
    refine ⟨rfl, ?_⟩
    dsimp only
    exact hR.tally (hR.note huv _ _) fun _ => rfl
  | .ok false => exact ⟨rfl, hR.publish (hR.note huv _ _) s p⟩

theorem settleHalt (hxy : R x y) (s : S) (p : P) :
    Matches R (Exploration.settleHalt a s p x) (Exploration.settleHalt b s p y) := by
  obtain ⟨answer, u, v, hu, hv, huv⟩ := (hR.isCovered hab hxy s p).exists_eq
  unfold Exploration.settleHalt
  rw [hu, hv]
  match answer with
  | .error e => exact ⟨rfl, huv⟩
  | .ok true =>
    refine ⟨rfl, ?_⟩
    dsimp only
    exact hR.note (hR.tally huv fun _ => rfl) _ _
  | .ok false =>
    refine ⟨rfl, ?_⟩
    dsimp only
    exact hR.publish (hR.note (hR.tally huv fun _ => rfl) _ _) s p

theorem handleSuccessor {E : Exploration ω S P W → Exploration ω' S P W → Prop}
    (hmerge : ∀ {x y}, R x y → ∀ s p, E (mergeAndSettle a s p x).2 (mergeAndSettle b s p y).2 →
      Matches R (mergeAndSettle a s p x) (mergeAndSettle b s p y))
    (hxy : R x y) (source s : S) (p : P)
    (hend : E (Exploration.handleSuccessor a source s p x).2
      (Exploration.handleSuccessor b source s p y).2) :
    Matches R (Exploration.handleSuccessor a source s p x)
      (Exploration.handleSuccessor b source s p y) := by
  have hsame := hR.overlaid hxy
  have hasked : Matches R (askAdjust a source s p x) (askAdjust b source s p y) := by
    refine hR.timed_ask (f := fun x => a.adjust s p x.reached)
      (g := fun y => b.adjust s p y.reached) (fun h => by cases h) (fun h => by cases h)
      (hR.note hxy _ _) ?_
    have hadjust := hab.adjust s p y.reached y.memory
    rw [hsame.memory, hsame.reached] at hadjust
    simp only [reached_start, reached_note, hsame.reached]
    exact hadjust
  rw [handleSuccessor_eq, handleSuccessor_eq, hsame.shutdown] at hend ⊢
  split
  · exact ⟨rfl, hxy⟩
  · rename_i hquiet
    rw [if_neg hquiet, if_neg hquiet] at hend
    obtain ⟨answer, u, v, hu, hv, huv⟩ := hasked.exists_eq
    rw [hu, hv] at hend ⊢
    match answer with
    | .error e => exact ⟨rfl, huv⟩
    | .ok none => exact ⟨rfl, hR.note huv _ _⟩
    | .ok (some ⟨t, q, .halt⟩) => exact hR.settleHalt hab huv t q
    | .ok (some ⟨t, q, .proceed⟩) => exact hmerge huv t q hend

/-! ### Expansions -/

theorem forceCover (hxy : R x y) (s : S) (p : P) :
    Matches R (Exploration.forceCover a s p x) (Exploration.forceCover b s p y) := by
  have hsame := hR.overlaid hxy
  have hcover := hab.cover
  unfold Exploration.forceCover
  generalize a.cover = cover at hcover ⊢
  generalize b.cover = cover' at hcover ⊢
  cases hcover with
  | none => exact ⟨rfl, hxy⟩
  | @some c c' hattempt =>
    obtain ⟨hreply, hoperations⟩ := hattempt s p y.reached y.memory
    have hmoves := ((hR.alike_start hxy .cover).absorb hreply).applyAll
      (c.attempt s p y.reached (view y.memory)).operations
    rw [hsame.memory, hsame.reached] at hreply hoperations hmoves
    have htimed := hR.timed hxy (fun h => by cases h) (fun h => by cases h) hmoves
    have hmine : (x.start .cover).memory = x.memory := rfl
    have htheirs : (y.start .cover).memory = y.memory := rfl
    simp only [Exploration.timed, reached_start, hmine, htheirs, hsame.reached]
    rw [hoperations]
    exact ⟨congrArg Reply.result hreply, htimed⟩

/-- Runs go in lockstep if merging and settling do. -/
theorem lockstep {E : Exploration ω S P W → Exploration ω' S P W → Prop}
    (hmerge : ∀ {x y}, R x y → ∀ s p, E (mergeAndSettle a s p x).2 (mergeAndSettle b s p y).2 →
      Matches R (mergeAndSettle a s p x) (mergeAndSettle b s p y))
    (hbefore : ∀ {x x' y y'}, Persists x x' → Persists y y' → E x' y' → E x y) :
    Lockstep a b (fun _ _ => True) E R where
  status := hab.status
  hasWaiting h := by rw [(hR.overlaid h).reached]
  requested h := by rw [(hR.overlaid h).shutdown]
  get? h g := by rw [(hR.overlaid h).reached]
  published _ _ _ _ _ := trivial
  popNext h := hR.popNext h
  note h e := hR.note h e e
  enqueue h g := hR.applyAll h [.enqueue g]
  forceCover h s p := hR.forceCover hab h s p
  forced h := hR.tally h fun _ => rfl
  transfer {x y} h s p := by
    refine hR.timed_ask (f := fun _ => a.transfer s p) (g := fun _ => b.transfer s p)
      (fun h => by cases h) (fun h => by cases h) h ?_
    rw [hab.transfer, (hR.overlaid h).memory]
  successors _ _ _ _ := trivial
  succeeded h n := hR.tally h fun _ => rfl
  successor h source s p _ := hR.handleSuccessor hab hmerge h source s p
  before := hbefore

end Overlay

/-! ### The same merges -/

/-- All operators of `b` reply as those of `a` do. -/
structure Analysis.Mirrors (view : ω' → ω) (a : Analysis ω S P W) (b : Analysis ω' S P W) : Prop
    extends Analysis.Overlays view a b where
  separates : b.merge.separates = a.merge.separates
  merge : ∀ s old p w, (b.merge.merge s old p w).seen view = a.merge.merge s old p (view w)

namespace Exploration.Mirrored
variable {view : ω' → ω} {x : Exploration ω S P W} {y : Exploration ω' S P W}

omit [Waitlist W] [BEq S] [BEq P] in
theorem absorb (hxy : Mirrored view x y) {r : Reply ω α} {r' : Reply ω' α}
    (hr : r'.seen view = r) : Mirrored view (x.absorb r) (y.absorb r') :=
  hxy.of_alike (((overlay view).alike_refl hxy).absorb hr)

variable {a : Analysis ω S P W} {b : Analysis ω' S P W} (hab : a.Mirrors view b)
include hab

omit [Waitlist W] [BEq P] in
theorem scan (hxy : Mirrored view x y) (s : S) (p : P) (candidates : List Handle) :
    (Exploration.scan b s p candidates y).changed = (Exploration.scan a s p candidates x).changed ∧
      (Exploration.scan b s p candidates y).abort = (Exploration.scan a s p candidates x).abort ∧
      Mirrored view (Exploration.scan a s p candidates x).after
        (Exploration.scan b s p candidates y).after := by
  induction candidates generalizing x y with
  | nil => exact ⟨rfl, rfl, hxy⟩
  | cons h rest ih =>
    unfold Exploration.scan
    rw [hxy.shutdown, hxy.reached]
    split
    · exact ⟨rfl, rfl, hxy⟩
    · cases x.reached.state? h with
      | none => exact ih hxy
      | some old =>
        have hseen := hab.merge s old p y.memory
        rw [hxy.memory] at hseen
        have hresult := congrArg Reply.result hseen
        have habsorbed := hxy.absorb hseen
        simp only [ask]
        generalize b.merge.merge s old p y.memory = r' at hresult habsorbed ⊢
        generalize a.merge.merge s old p x.memory = r at hresult habsorbed ⊢
        simp only [Reply.seen] at hresult
        rw [hresult]
        cases r.result with
        | error e => exact ⟨rfl, rfl, habsorbed⟩
        | ok new =>
          simp only
          split
          · have hnoted : Mirrored view
                (((x.absorb r).note (.mergedWith h)).note (.merged s old new))
                (((y.absorb r').note (.mergedWith h)).note (.merged s old new)) :=
              ⟨habsorbed.reached, habsorbed.memory, habsorbed.shutdown, habsorbed.statistics,
                habsorbed.clock⟩
            obtain ⟨hchanged, habort, hafter⟩ := ih hnoted
            exact ⟨congrArg _ hchanged, habort, hafter⟩
          · exact ih habsorbed

theorem mergeInto (hxy : Mirrored view x y) (s : S) (p : P) :
    Matches (Mirrored view) (Exploration.mergeInto a s p x) (Exploration.mergeInto b s p y) := by
  have hover := Mirrored.overlay (S := S) (P := P) (W := W) view
  unfold Exploration.mergeInto
  rw [hxy.reached]
  simp only
  split
  · exact ⟨rfl, hxy⟩
  · have hstarted := (hover.note hxy (.considering (x.reached.handlesAt s).length)
      (.considering (x.reached.handlesAt s).length)).start .merge
    obtain ⟨hchanged, habort, hafter⟩ := hstarted.scan hab s p (x.reached.handlesAt s)
    refine ⟨habort, ?_⟩
    simp only [hchanged]
    generalize (Exploration.scan a s p (x.reached.handlesAt s) _).after = u at hafter ⊢
    generalize (Exploration.scan b s p (x.reached.handlesAt s) _).after = v at hafter ⊢
    generalize (Exploration.scan a s p (x.reached.handlesAt s) _).changed = changed
    have hreplaced : Mirrored view (replace p changed u) (replace p changed v) := by
      unfold replace
      split
      · exact hafter
      · exact hover.applyAll (hover.tally hafter fun _ => rfl) [.update _ _]
    exact hreplaced.stop .merge

theorem mergeAndSettle (hxy : Mirrored view x y) (s : S) (p : P) :
    Matches (Mirrored view) (Exploration.mergeAndSettle a s p x)
      (Exploration.mergeAndSettle b s p y) := by
  have hover := Mirrored.overlay (S := S) (P := P) (W := W) view
  unfold Exploration.mergeAndSettle
  rw [hab.separates]
  split
  · exact hover.settle hab.toOverlays hxy s p
  · obtain ⟨abort, u, v, hu, hv, huv⟩ := (hxy.mergeInto hab s p).exists_eq
    rw [hu, hv]
    cases abort with
    | some e => exact ⟨rfl, huv⟩
    | none => exact hover.settle hab.toOverlays huv s p

/-- The run of an analysis that mirrors another is the run of the other. -/
theorem run (hxy : Mirrored view x y) (limit : Nat) :
    Matches (Mirrored view) (x.run a limit) (y.run b limit) := by
  have hover := Mirrored.overlay (S := S) (P := P) (W := W) view
  have hlockstep := hover.lockstep (E := fun _ _ => True) hab.toOverlays
    (fun hxy s p _ => hxy.mergeAndSettle hab s p) fun _ _ _ => trivial
  exact hlockstep.run limit (hover.publishSeeds (hxy.start .total)) id
    (fun h => h.conclude) trivial

end Exploration.Mirrored
end Reachability
