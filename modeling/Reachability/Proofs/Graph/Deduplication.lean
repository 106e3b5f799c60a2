import Reachability.Proofs.Graph.Survey
import Reachability.Proofs.Run.Overlay

/-! Equal states are published once, whoever sees to it.

A stop operator that compares for equality discards a successor that is published already.
Without it the successor is published again, and the reached set finds the equal state itself:
as long as all precisions are the same, that changes nothing but which pair is the latest
(`Reached.add_of_find?_eq_some`). So both analyses go in lockstep. And since each iteration
brings another pair to rest, both come to an end where there are finitely many states. -/
namespace Reachability

open AbstractState (location)
open Exploration (Matches)

/-! ### Reached sets up to the latest pair -/

namespace Reached
variable {S P W : Type} [AbstractState S] {r r' : Reached S P W}

/-- The same but for the latest pair. -/
def UpToLast (r r' : Reached S P W) : Prop :=
  ∃ last, r' = {r with last}

/-- All published pairs have a precision of this kind. -/
def Carries (kind : P → Prop) (r : Reached S P W) : Prop :=
  ∀ ⦃h e⦄, r.arena.get? h = some e → kind e.precision

theorem UpToLast.refl (r : Reached S P W) : r.UpToLast r :=
  ⟨r.last, rfl⟩

variable [Waitlist W]

theorem UpToLast.pop (h : r.UpToLast r') : r'.pop.1 = r.pop.1 ∧ r.pop.2.UpToLast r'.pop.2 := by
  obtain ⟨last, rfl⟩ := h
  unfold Reached.pop
  simp only
  split <;> exact ⟨rfl, last, rfl⟩

theorem UpToLast.enqueue (h : r.UpToLast r') (g : Handle) :
    (r.enqueue g).2.UpToLast (r'.enqueue g).2 := by
  obtain ⟨last, rfl⟩ := h
  unfold Reached.enqueue
  simp only
  split
  · exact ⟨last, rfl⟩
  · split <;> exact ⟨last, rfl⟩

/-- Once another pair is published, the latest pair before is forgotten. -/
theorem UpToLast.publish_eq (h : r.UpToLast r') (s : S) (p : P) : r'.publish s p = r.publish s p := by
  obtain ⟨last, rfl⟩ := h
  simp [Reached.publish, Reached.enqueue, Arena.get?_add_self]

theorem Carries.pop {kind : P → Prop} (hr : r.Carries kind) : r.pop.2.Carries kind := by
  intro g e he
  cases hpop : r.pop with
  | mk popped r' =>
    rw [hpop] at he
    cases popped with
    | none =>
      rw [arena_of_pop_eq_none hpop] at he
      exact hr he
    | some h =>
      obtain ⟨entry, hentry, hview⟩ := pop_eq_some hpop
      rw [hview] at he
      split at he
      · cases he
        exact hr (e := entry) hentry
      · exact hr he

theorem Carries.enqueue {kind : P → Prop} (hr : r.Carries kind) (h : Handle) :
    (r.enqueue h).2.Carries kind := by
  intro g e he
  rw [get?_enqueue] at he
  split at he
  · obtain ⟨entry, hentry, rfl⟩ := Option.map_eq_some_iff.1 he
    exact hr (e := entry) hentry
  · exact hr he

variable [BEq S] [BEq P]

/-- Publishing a state again with a precision equal to its own makes the pair the latest. -/
theorem add_of_find?_eq_some {s t : S} {p q : P} {h : Handle} (e : r.find? s = some h)
    (hpair : r.get? h = some (t, q)) (hsame : (q == p) = true) :
    r.add s p = (h, {r with last := some h}) := by
  obtain ⟨waiting, he⟩ := get?_eq_some_iff.1 hpair
  have hq : r.precision? h = some q := by simp [precision?, he]
  simp [Reached.add, e, hq, bne, hsame]

theorem Carries.add {kind : P → Prop} (hr : r.Carries kind) (s : S) {p : P} (hp : kind p) :
    (r.add s p).2.Carries kind := by
  intro g e he
  cases hfind : r.find? s with
  | none =>
    rw [add_of_find?_eq_none hfind, get?_publish] at he
    split at he
    · cases he
      exact hp
    · exact hr he
  | some h =>
    obtain ⟨-, t, ht, -⟩ := find?_eq_some hfind
    obtain ⟨⟨t, q, waiting⟩, hentry, rfl⟩ := state?_eq_some_iff.1 ht
    rw [get?_add_of_find?_eq_some hfind hentry] at he
    split at he
    · cases he
      split
      · exact hp
      · exact hr hentry
    · exact hr he

theorem Carries.addAll {kind : P → Prop} {fresh : List (S × P)} (hfresh : ∀ t ∈ fresh, kind t.2)
    (hr : r.Carries kind) : (fresh.foldl (fun r (s, p) => (r.add s p).2) r).Carries kind := by
  induction fresh generalizing r with
  | nil => exact hr
  | cons t rest ih =>
    obtain ⟨hfirst, hrest⟩ := List.forall_mem_cons.1 hfresh
    exact ih hrest (hr.add t.1 hfirst)

theorem Carries.drain {kind : P → Prop} (hr : r.Carries kind) (hseeds : ∀ t ∈ r.seeds, kind t.2) :
    r.drain.Carries kind := by
  have htaken : r.takeSeeds.2.Carries kind := hr
  exact htaken.addAll hseeds

end Reached

/-! ### What both count -/

namespace Statistics

/-- What does not depend on who discards equal states. -/
def shared (s : Statistics) : Statistics :=
  {s with timers := {s.timers with add := {}}, stops := 0, misuse := none}

theorem shared_settle (s : Statistics) (p : Phase) (outcome : Except Timer.Misuse Timer) :
    (s.settle p outcome).shared = (s.shared.settle p outcome).shared := by
  cases p <;> cases outcome <;> rfl

theorem timer_shared (s : Statistics) {p : Phase} (hp : p ≠ .add) :
    s.shared.timer p = s.timer p := by
  cases p <;> first | rfl | exact absurd rfl hp

theorem shared_settle_add (s : Statistics) (outcome : Except Timer.Misuse Timer) :
    (s.settle .add outcome).shared = s.shared := by
  cases outcome <;> rfl

end Statistics

namespace Exploration
variable {ω S P W α : Type} [AbstractState S]

/-- Nothing differs but the latest pair, the timer for publishing, and how often a successor was
covered. -/
structure Deduplicated (kind : P → Prop) (x y : Exploration ω S P W) : Prop where
  reached : x.reached.UpToLast y.reached
  memory : y.memory = x.memory
  shutdown : y.shutdown = x.shutdown
  clock : y.clock = x.clock
  statistics : y.statistics.shared = x.statistics.shared
  carries : x.reached.Carries kind

namespace Deduplicated
variable {kind : P → Prop} {x y : Exploration ω S P W}

theorem note (h : Deduplicated kind x y) (e e' : Event S P) :
    Deduplicated kind (x.note e) (y.note e') :=
  ⟨h.reached, h.memory, h.shutdown, h.clock, h.statistics, h.carries⟩

theorem tally (h : Deduplicated kind x y) {f : Statistics → Statistics}
    (hf : ∀ s, (f s).shared = (f s.shared).shared) :
    Deduplicated kind (x.tally f) (y.tally f) := by
  refine ⟨h.reached, h.memory, h.shutdown, h.clock, ?_, h.carries⟩
  show (f y.statistics).shared = (f x.statistics).shared
  rw [hf, h.statistics, ← hf]

theorem start (h : Deduplicated kind x y) {p : Phase} (hp : p ≠ .add) :
    Deduplicated kind (x.start p) (y.start p) := by
  unfold Exploration.start
  rw [h.clock]
  refine h.tally fun s => ?_
  rw [Statistics.start, Statistics.shared_settle, Statistics.start, Statistics.timer_shared s hp]

theorem stop (h : Deduplicated kind x y) {p : Phase} (hp : p ≠ .add) :
    Deduplicated kind (x.stop p) (y.stop p) := by
  unfold Exploration.stop
  rw [h.clock]
  refine h.tally fun s => ?_
  rw [Statistics.stop, Statistics.shared_settle, Statistics.stop, Statistics.timer_shared s hp]

/-- What was answered is not the point. -/
theorem absorb (h : Deduplicated kind x y) (r : Reply ω α) (result : Except Abort α) :
    Deduplicated kind (x.absorb r) (y.absorb {r with result}) := by
  have hmind : (y.absorb {r with result}).mind = (x.absorb r).mind := by
    rw [mind_absorb, mind_absorb, mind, mind, h.memory, h.shutdown]
    rfl
  obtain ⟨hstatistics, hclock⟩ := absorb_statistics x r
  obtain ⟨hstatistics', hclock'⟩ := absorb_statistics y {r with result}
  refine ⟨?_, congrArg Prod.fst hmind, congrArg Prod.snd hmind, ?_, ?_, ?_⟩
  · rw [reached_absorb, reached_absorb]
    exact h.reached
  · rw [hclock, hclock', h.clock]
  · rw [hstatistics, hstatistics', h.statistics]
  · rw [reached_absorb]
    exact h.carries

/-- Both ask, and are given the same answer. -/
theorem timed_ask (h : Deduplicated kind x y) {p : Phase} (hp : p ≠ .add)
    {f g : Exploration ω S P W → Ask ω α}
    (hasked : g (y.start p) y.memory = f (x.start p) x.memory) :
    Matches (Deduplicated kind) (x.timed p fun x => x.ask (f x)) (y.timed p fun y => y.ask (g y)) := by
  have habsorbed := ((h.start hp).absorb (f (x.start p) x.memory)
    (f (x.start p) x.memory).result).stop hp
  refine ⟨congrArg Reply.result hasked, ?_⟩
  show Deduplicated kind _ (((y.start p).absorb (g (y.start p) y.memory)).stop p)
  rw [hasked]
  exact habsorbed

variable [Waitlist W]

theorem popNext (h : Deduplicated kind x y) : Matches (Deduplicated kind) x.popNext y.popNext := by
  have hsize : y.reached.waitlistSize = x.reached.waitlistSize := by
    obtain ⟨last, hreached⟩ := h.reached
    rw [hreached]
    rfl
  have hcounted : Deduplicated kind x.countIteration y.countIteration := by
    unfold countIteration
    rw [hsize]
    exact h.tally fun _ => rfl
  have hstarted := hcounted.start (p := .choose) (by decide)
  obtain ⟨hpopped, hafter⟩ := hstarted.reached.pop
  have hboth : Deduplicated kind (x.countIteration.start .choose).pop.2
      (y.countIteration.start .choose).pop.2 :=
    ⟨hafter, hstarted.memory, hstarted.shutdown, hstarted.clock, hstarted.statistics,
      hstarted.carries.pop⟩
  exact ⟨hpopped, hboth.stop (by decide)⟩

variable [BEq S] [BEq P]

theorem enqueue (h : Deduplicated kind x y) (g : Handle) :
    Deduplicated kind (x.apply (.enqueue g)) (y.apply (.enqueue g)) :=
  ⟨h.reached.enqueue g, h.memory, h.shutdown, h.clock, h.statistics, h.carries.enqueue g⟩

/-- Both publish a state that is not published yet. -/
theorem publish (h : Deduplicated kind x y) {s : S} (hnew : x.reached.find? s = none) {p : P}
    (hp : kind p) : Deduplicated kind (x.publish s p) (y.publish s p) := by
  have hadded : (y.reached.add s p).2 = (x.reached.add s p).2 := by
    have hnew' : y.reached.find? s = none := by
      obtain ⟨last, hreached⟩ := h.reached
      rw [hreached]
      exact hnew
    rw [Reached.add_of_find?_eq_none hnew, Reached.add_of_find?_eq_none hnew', h.reached.publish_eq]
  refine ⟨?_, h.memory, h.shutdown, h.clock, ?_, ?_⟩
  · rw [reached_publish, reached_publish, hadded]
    exact .refl _
  · show ((y.statistics.start .add y.clock).stop .add y.clock).shared =
      ((x.statistics.start .add x.clock).stop .add x.clock).shared
    simp only [Statistics.start, Statistics.stop, Statistics.shared_settle_add, h.statistics]
  · exact h.carries.add s hp

/-- One publishes again what the other found published. -/
theorem publish_again (h : Deduplicated kind x y)
    (hone : ∀ {p q}, kind p → kind q → (p == q) = true) {s : S}
    (hknown : x.reached.contains s = true) {p : P} (hp : kind p) :
    Deduplicated kind x (y.publish s p) := by
  obtain ⟨last, hreached⟩ := h.reached
  obtain ⟨g, hfind⟩ := Option.isSome_iff_exists.1 hknown
  obtain ⟨-, t, ht, -⟩ := Reached.find?_eq_some hfind
  obtain ⟨⟨t, q, waiting⟩, hentry, rfl⟩ := Reached.state?_eq_some_iff.1 ht
  have hadded : (y.reached.add s p).2 = {x.reached with last := some g} := by
    have hpair : ({x.reached with last} : Reached S P W).get? g = some (t, q) :=
      Reached.get?_eq_some_iff.2 ⟨waiting, hentry⟩
    have hagain := Reached.add_of_find?_eq_some (r := {x.reached with last}) hfind hpair
      (hone (h.carries hentry) hp)
    rw [hreached]
    exact congrArg Prod.snd hagain
  refine ⟨⟨some g, hadded⟩, h.memory, h.shutdown, h.clock, ?_, h.carries⟩
  show ((y.statistics.start .add y.clock).stop .add y.clock).shared = _
  simp only [Statistics.start, Statistics.stop, Statistics.shared_settle_add, h.statistics]

omit [BEq S] [BEq P] in
theorem conclude (h : Deduplicated kind x y) (result : Except Abort Outcome) :
    Deduplicated kind (Exploration.conclude result x) (Exploration.conclude result y) := by
  have hstopped : Deduplicated kind
      (x.tally fun s => {s with timers := s.timers.stopAll x.clock})
      (y.tally fun s => {s with timers := s.timers.stopAll y.clock}) := by
    rw [h.clock]
    exact h.tally fun _ => rfl
  cases result <;> exact hstopped.note _ _

end Deduplicated

end Exploration

/-! ### Runs -/

variable {ω S P : Type} [AbstractState S] [BEq S] [BEq P]

/-- Successors are neither merged nor adjusted, nothing is covered by force, and precisions are
all of one kind. -/
structure Analysis.Plain {W : Type} (kind : P → Prop) (a : Analysis ω S P W) : Prop where
  merge : a.merge.separates = true
  adjust : a.adjust = .keep
  cover : a.cover = none
  transfer : ∀ {s p w l}, kind p → (a.transfer s p w).result = .ok l → ∀ t ∈ l, kind t.2

variable {a : Analysis ω S P Frontier} {kind : P → Prop}

namespace Exploration

omit [BEq P] in
/-- One asks what is published, the other does not. Neither answer takes time. -/
theorem Deduplicated.exists_isCovered [PartialEquivBEq S] {x y : Exploration ω S P Frontier}
    (h : Deduplicated kind x y) (a : Analysis ω S P Frontier) (s : S) (p : P) :
    ∃ u v, isCovered {a with stop := .separate .flat} s p x = (.ok (x.reached.contains s), u) ∧
      isCovered {a with stop := .never} s p y = (.ok false, v) ∧ Deduplicated kind u v ∧
        u.reached = x.reached := by
  have hstop : (Stop.separate .flat : Stop ω S P) s (x.reached.statesAt s) p x.memory =
      ⟨.ok (x.reached.contains s), x.memory, none, 0⟩ := by
    rw [← Reached.any_statesAt]
    exact Stop.separate_lift_apply Comparison.flat s (x.reached.statesAt s) p x.memory
  have hasked : isCovered {a with stop := .separate .flat} s p x =
      (.ok (x.reached.contains s), (x.start .stop).stop .stop) := by
    unfold isCovered timed ask
    simp only [reached_start]
    show ((Stop.separate .flat s (x.reached.statesAt s) p x.memory).result,
      ((x.start .stop).absorb (Stop.separate .flat s (x.reached.statesAt s) p x.memory)).stop .stop) = _
    rw [hstop]
    rfl
  exact ⟨_, (y.start .stop).stop .stop, hasked, rfl,
    (h.start (p := .stop) (by decide)).stop (by decide), rfl⟩

/-- The stop operator discards what is published already; or else publishing makes it the latest
pair. -/
theorem Deduplicated.settle [PartialEquivBEq S] {x y : Exploration ω S P Frontier}
    (h : Deduplicated kind x y) (hone : ∀ {p q}, kind p → kind q → (p == q) = true)
    (a : Analysis ω S P Frontier) (s : S) {p : P} (hp : kind p) :
    Matches (Deduplicated kind) (Exploration.settle {a with stop := .separate .flat} s p x)
      (Exploration.settle {a with stop := .never} s p y) := by
  obtain ⟨u, v, hu, hv, huv, hreached⟩ := h.exists_isCovered a s p
  unfold Exploration.settle
  rw [hu, hv]
  cases hcontains : x.reached.contains s with
  | true =>
    have hnoted := huv.note .covered .uncovered
    have hagain := hnoted.publish_again hone (s := s)
      (by rw [reached_note, hreached, hcontains]) hp
    refine ⟨rfl, hagain.reached, hagain.memory, hagain.shutdown, hagain.clock, ?_, hagain.carries⟩
    exact hagain.statistics
  | false =>
    have hnew : u.reached.find? s = none := by
      rw [hreached]
      rwa [Reached.contains, Option.isSome_eq_false_iff, Option.isNone_iff_eq_none] at hcontains
    exact ⟨rfl, (huv.note .uncovered .uncovered).publish hnew hp⟩

end Exploration

/-- The stop operator finds what publishing would find. -/
theorem Analysis.Plain.lockstep [PartialEquivBEq S] (ha : a.Plain kind)
    (hone : ∀ {p q}, kind p → kind q → (p == q) = true) :
    Lockstep {a with stop := .separate .flat} {a with stop := .never} (fun _ p => kind p)
      (fun _ _ => True) (Exploration.Deduplicated kind) where
  status := rfl
  hasWaiting h := by
    obtain ⟨last, hreached⟩ := h.reached
    rw [hreached]
    rfl
  requested h := by rw [h.shutdown]
  get? h g := by
    obtain ⟨last, hreached⟩ := h.reached
    rw [hreached]
    rfl
  published h g s p hpair := by
    obtain ⟨waiting, hentry⟩ := Reached.get?_eq_some_iff.1 hpair
    exact h.carries hentry
  popNext h := h.popNext
  note h e := h.note e e
  enqueue h g := h.enqueue g
  forceCover {x y} h s p := by
    unfold Exploration.forceCover
    simp only [ha.cover]
    exact ⟨rfl, h⟩
  forced h := h.tally fun _ => rfl
  transfer {x y} h s p := by
    refine h.timed_ask (f := fun _ => a.transfer s p) (g := fun _ => a.transfer s p) (by decide) ?_
    rw [h.memory]
  successors hp hl t ht := ha.transfer hp hl t ht
  succeeded h n := h.tally fun _ => rfl
  successor {x y} h source s p hp _ := by
    have hasked : Matches (Exploration.Deduplicated kind)
        (Exploration.askAdjust {a with stop := .separate .flat} source s p x)
        (Exploration.askAdjust {a with stop := .never} source s p y) := by
      refine (h.note _ _).timed_ask (f := fun x => a.adjust s p x.reached)
        (g := fun y => a.adjust s p y.reached) (by decide) ?_
      have hkeep : ∀ (r : Reached S P Frontier) (w : ω), a.adjust s p r w =
          ⟨.ok (some ⟨s, p, .proceed⟩), w, none, 0⟩ := by
        rw [ha.adjust]
        exact fun _ _ => rfl
      rw [hkeep, hkeep]
      exact congrArg (Reply.mk _ · none 0) h.memory
    have hresult : (Exploration.askAdjust {a with stop := .separate .flat} source s p x).1 =
        .ok (some ⟨s, p, .proceed⟩) := by
      show (a.adjust s p _ _).result = _
      rw [ha.adjust]
      rfl
    obtain ⟨answer, u, v, hu, hv, huv⟩ := hasked.exists_eq
    rw [hu] at hresult
    simp only at hresult
    subst hresult
    rw [Exploration.handleSuccessor_eq, Exploration.handleSuccessor_eq, h.shutdown, hu, hv]
    split
    · exact ⟨rfl, h⟩
    · have hspared : ∀ (stop : Stop ω S P) (z : Exploration ω S P Frontier),
          Exploration.mergeAndSettle {a with stop} s p z = Exploration.settle {a with stop} s p z :=
        fun stop z => by rw [Exploration.mergeAndSettle, if_pos ha.merge]
      simp only [hspared]
      exact huv.settle hone a s hp
  before _ _ _ := trivial

/-! ### Runs end -/

namespace Effect
open Reached

variable {r r' : Reached S P Frontier}

/-- What is published is new, and waits. -/
theorem Treated.grown [PartialEquivBEq S] (hmerge : a.merge.separates = true)
    (hstop : a.stop = .separate .flat) {s : S} {p : P} {flow : Flow} (h : Treated a s p r flow r') :
    r.Grown r' := by
  have hsettled : ∀ {t q after flow r'}, Settled a t q after r flow r' → r.Grown r' := by
    intro t q after flow r' h
    cases h with
    | undecided stop => exact .refl r
    | covered stop => exact .refl r
    | @published w stop =>
      have hanswer := Stop.separate_lift_apply Comparison.flat t (r.statesAt t) q w
      rw [hstop] at stop
      have hnone : r.find? t = none := by
        have hcontains := (congrArg Reply.result hanswer).symm.trans stop
        rw [Except.ok.injEq] at hcontains
        have hnot := (any_statesAt r t).symm.trans hcontains
        rwa [contains, Option.isSome_eq_false_iff, Option.isNone_iff_eq_none] at hnot
      rw [add_of_find?_eq_none hnone]
      exact grown_publish r t q
  have hmerged : ∀ {t q abort r'}, Merged a t q r abort r' → r' = r := by
    intro t q abort r' h
    cases h with
    | spared separates => rfl
    | scanned joins scan =>
      rw [hmerge] at joins
      cases joins
  cases h with
  | interrupted => exact .refl r
  | unadjusted adjust => exact .refl r
  | pruned adjust => exact .refl r
  | halting adjust settle => exact hsettled settle
  | unmerged adjust merge => exact hmerged merge ▸ .refl r
  | proceeding adjust merge settle =>
    cases hmerged merge
    exact hsettled settle

theorem Expanded.grown [PartialEquivBEq S] (hmerge : a.merge.separates = true)
    (hstop : a.stop = .separate .flat) (hcover : a.cover = none) {h : Handle}
    (hx : Expanded a h r .onward r') : r.Grown r' := by
  have hall : ∀ {successors flow r r'}, TreatedAll a h successors r flow r' → flow = .onward →
      r.Grown r' := by
    intro successors flow r r' ht hflow
    induction ht with
    | finished => exact .refl _
    | next first others ih => exact (first.grown hmerge hstop).trans (ih hflow)
    | haltedLast first => cases hflow
    | halted first left => cases hflow
    | abandoned first => cases hflow
  cases hx with
  | nothing pair => exact .refl r
  | forced pair cover => cases (cover.of_absent hcover).1
  | expanded pair cover transfer treated =>
    obtain ⟨-, rfl⟩ := cover.of_absent hcover
    exact hall treated rfl

end Effect

/-- Each iteration that does not end the run brings one more pair to rest. -/
theorem Exploration.exists_ledger_of_iterate [PartialEquivBEq S] (hmerge : a.merge.separates = true)
    (hstop : a.stop = .separate .flat) (hcover : a.cover = none) {n : Nat} {done : List Handle}
    {x y : Exploration ω S P Frontier} (hr : x.reached.Consistent) (hdone : x.reached.Ledger done)
    (hbefore : iterate a n x = (none, y)) :
    ∃ others, others.length = n ∧ y.reached.Ledger (done ++ others) := by
  induction n generalizing x done with
  | zero =>
    cases hbefore
    exact ⟨[], rfl, by rwa [List.append_nil]⟩
  | succ n ih =>
    unfold iterate at hbefore
    have heffect := Effect.step_effect a x
    cases hstep : step a x with
    | mk ended z =>
      rw [hstep] at heffect hbefore
      cases ended with
      | some result => cases hbefore
      | none =>
        have hz := heffect.evolves.consistent hr
        cases hwaiting : x.reached.hasWaiting with
        | false =>
          rw [step_eq, hwaiting] at hstep
          cases hstep
        | true =>
          obtain ⟨h, s, p, r', hpop, -, -, -, hledger⟩ := hr.exists_pop hwaiting
          cases heffect with
          | onward popped expansion =>
            rw [hpop] at popped
            cases popped
            have hnext := (expansion.grown hmerge hstop hcover).ledger (hledger hdone)
            obtain ⟨others, hlength, hothers⟩ := ih hz hnext hbefore
            exact ⟨h :: others, congrArg (· + 1) hlength, by rwa [List.append_assoc] at hothers⟩

/-- Whatever is ever published equals one of the nodes. -/
structure Exploration.Among (nodes : List S) (a : Analysis ω S P Frontier)
    (x : Exploration ω S P Frontier) : Prop where
  located : ∀ s t : S, (s == t) = true → location s = location t
  evolved : ∃ o, Reached.Evolves (.ofOrder o) x.reached
  published : ∀ s ∈ x.reached.states, ∃ t ∈ nodes, (s == t) = true
  seeds : ∀ y ∈ x.reached.seeds, ∃ t ∈ nodes, (y.1 == t) = true
  transfer : ∀ {s p w l}, (∃ t ∈ nodes, (s == t) = true) → (a.transfer s p w).result = .ok l →
    ∀ y ∈ l, ∃ t ∈ nodes, (y.1 == t) = true

namespace Exploration

/-- There are no more iterations than nodes, and then the one that ends the run. -/
theorem Among.isSome_run [EquivBEq S] {nodes : List S} {x : Exploration ω S P Frontier}
    (hx : x.Among nodes a) (hmerge : a.merge.separates = true) (hstop : a.stop = .separate .flat)
    (hadjust : a.adjust = .keep) (hcover : a.cover = none) {limit : Nat}
    (hlimit : nodes.length < limit) : (x.run a limit).1.isSome = true := by
  obtain ⟨o, ops, hops⟩ := hx.evolved
  have hstable := Reached.Kept.stable (P := P) hx.located
  have hkept : x.reached.Kept := by
    rw [hops]
    exact hstable.performAll ops (.ofOrder o)
  have hdrained : (x.start .total).publishSeeds.reached.Kept := by
    rw [reached_publishSeeds, reached_start, ← performAll_drainScript]
    exact hstable.performAll _ hkept
  have hconfined : a.Confined fun s => ∃ t ∈ nodes, (s == t) = true := by
    refine ⟨hx.transfer, fun hjoins => ?_, fun hs hadjusted => ?_, hcover⟩
    · rw [hmerge] at hjoins
      cases hjoins
    · rw [hadjust] at hadjusted
      cases hadjusted
      exact hs
  rw [Exploration.isSome_run]
  cases hiterated : iterate a limit (x.start .total).publishSeeds with
  | mk ended y =>
    cases ended with
    | some result => rfl
    | none =>
      have hwithin := within_iterate hconfined hkept.consistent hx.published hx.seeds limit
      have hy : y.reached.Kept := by
        obtain ⟨ops, hops⟩ := evolves_iterate hiterated
        rw [hops]
        exact hstable.performAll ops hdrained
      obtain ⟨done, hdone⟩ := Reached.exists_ledger (x.start .total).publishSeeds.reached
      obtain ⟨others, hlength, hledger⟩ :=
        exists_ledger_of_iterate hmerge hstop hcover hdrained.consistent hdone hiterated
      have hdiffering : Differing y.reached.states :=
        hy.distinct.pairwise.imp fun hne => by simpa using hne
      have hbound := hledger.length_le
      have hnodes := hdiffering.length_le (m := nodes) fun s hs => by
        rw [hiterated] at hwithin
        exact hwithin s hs
      rw [List.length_append, hlength] at hbound
      omega

end Exploration

/-- **Publishing discards what a stop operator for equal states would.** With one precision for
all, a run that never stops has the same result as one that stops at equal states. It ends with
the same reached set up to the latest pair, after as many iterations and calls of the transfer
relation. So it ends, too, where there are finitely many states. -/
theorem run_never_eq [EquivBEq S] (ha : a.Plain kind)
    (hone : ∀ {p q}, kind p → kind q → (p == q) = true) (limit : Nat)
    {x : Exploration ω S P Frontier} (hpublished : ∀ {h s p}, x.reached.get? h = some (s, p) → kind p)
    (hseeds : ∀ t ∈ x.reached.seeds, kind t.2) :
    (x.run {a with stop := .never} limit).1 = (x.run {a with stop := .separate .flat} limit).1 ∧
      (x.run {a with stop := .separate .flat} limit).2.Deduplicated kind
        (x.run {a with stop := .never} limit).2 ∧
      (x.run {a with stop := .never} limit).2.iterations =
        (x.run {a with stop := .separate .flat} limit).2.iterations ∧
      (x.run {a with stop := .never} limit).2.statistics.timer .transfer =
        (x.run {a with stop := .separate .flat} limit).2.statistics.timer .transfer ∧
      ∀ nodes : List S, x.Among nodes a → nodes.length < limit →
        (x.run {a with stop := .never} limit).1.isSome = true := by
  have hcarries : x.reached.Carries kind := fun h e he =>
    hpublished (Reached.get?_eq_some_iff.2 ⟨e.waiting, he⟩)
  have hstart : Exploration.Deduplicated kind (x.start .total).publishSeeds
      (x.start .total).publishSeeds := by
    refine ⟨.refl _, rfl, rfl, rfl, rfl, ?_⟩
    rw [Exploration.reached_publishSeeds]
    exact hcarries.drain hseeds
  obtain ⟨hresult, hsame⟩ := (ha.lockstep hone).run limit hstart id
    (fun h result => h.conclude result) trivial
  have hiterations := congrArg Statistics.iterations hsame.statistics
  have htransfer := congrArg (fun s : Statistics => s.timers.transfer) hsame.statistics
  refine ⟨hresult, hsame, hiterations, htransfer, fun nodes hnodes hlimit => ?_⟩
  rw [hresult]
  have hamong : x.Among nodes {a with stop := .separate .flat} :=
    ⟨hnodes.located, hnodes.evolved, hnodes.published, hnodes.seeds, hnodes.transfer⟩
  exact hamong.isSome_run ha.merge rfl ha.adjust ha.cover hlimit

/-! Two states of the loop, each with an edge to itself and two to the other. Nothing stops, and
yet the start and these two are all that is expanded. -/
namespace Counter

def roundabout : Analysis Unit Interval Unit Frontier where
  transfer _ _ := pure [(⟨.loop, 0, 0⟩, ()), (⟨.loop, 1, 1⟩, ()), (⟨.loop, 0, 0⟩, ())]
  merge := .separate
  stop := .never

theorem roundabout_among :
    (initial { bound := 1 }).Among [seed, ⟨.loop, 0, 0⟩, ⟨.loop, 1, 1⟩] roundabout where
  located s t h := congrArg Interval.loc (eq_of_beq h)
  evolved := ⟨.breadthFirst, .perform _ (.addInitial seed ())⟩
  published s hs := (List.not_mem_nil hs).elim
  seeds := by decide +kernel
  transfer := by
    intro s p w l _ hl y hy
    cases hl
    have hedges : ∀ y ∈ [((⟨.loop, 0, 0⟩ : Interval), ()), (⟨.loop, 1, 1⟩, ()), (⟨.loop, 0, 0⟩, ())],
        ∃ t ∈ [seed, ⟨.loop, 0, 0⟩, ⟨.loop, 1, 1⟩], (y.1 == t) = true := by decide
    exact hedges y hy

theorem roundabout_ends :
    ((initial { bound := 1 }).run roundabout 4).1.isSome = true ∧
      ((initial { bound := 1 }).run roundabout 4).2.iterations =
        ((initial { bound := 1 }).run {roundabout with stop := .separate .flat} 4).2.iterations ∧
      ((initial { bound := 1 }).run roundabout 4).2.reached.size = 3 := by
  have hplain : roundabout.Plain fun _ => True := ⟨rfl, rfl, rfl, fun _ _ _ _ => trivial⟩
  obtain ⟨-, -, hiterations, -, hends⟩ := run_never_eq hplain (fun _ _ => rfl) 4
    (x := initial { bound := 1 }) (fun _ => trivial) (fun _ _ => trivial)
  exact ⟨hends _ roundabout_among (by decide), hiterations, by decide +kernel⟩

end Counter
end Reachability
