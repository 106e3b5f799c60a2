import Reachability.Proofs.Coverage.Target
import Reachability.Proofs.Explicit
import Reachability.Proofs.Reached.Requeue
import Reachability.Proofs.Run.Counters
import Reachability.Proofs.Run.Taken

/-! Breadth-first, explicit states are expanded by their distance from the seeds.

While states at distance `k` are expanded, whatever is no further is published, and the
frontier consists of states at distance `k` followed by states at distance `k + 1`
(`Reached.Layered`). A successor that is not covered is then new, at distance `k + 1`, and it
goes to the end of the frontier (`Layered.publish`). When the last state at distance `k` is
gone, everything at distance `k + 1` is there, since what does not wait has been expanded
(`Layered.advance`). So states are taken out by ascending distance, and a run that halts at a
target has seen no target that is nearer. -/
namespace Reachability

open AbstractState (isTarget location rank)

variable {S P : Type} [AbstractState S] [BEq S]

/-! ### Distances -/

/-- Can be reached from a seed by `n` transfers, up to equality. -/
def ReachableIn (succs : S → List S) (batch : List (S × P)) : Nat → S → Prop
  | 0, s => ∃ x ∈ batch, (s == x.1) = true
  | n + 1, s => ∃ t, ReachableIn succs batch n t ∧ ∃ u ∈ succs t, (s == u) = true

/-- The least number of transfers from a seed. -/
structure Distance (succs : S → List S) (batch : List (S × P)) (s : S) (n : Nat) : Prop where
  reachable : ReachableIn succs batch n s
  least : ∀ m, ReachableIn succs batch m s → n ≤ m

omit [AbstractState S] in
theorem ReachableIn.of_beq [PartialEquivBEq S] {succs : S → List S} {batch : List (S × P)} {n : Nat}
    {s t : S} (ht : ReachableIn succs batch n t) (hst : (s == t) = true) :
    ReachableIn succs batch n s := by
  cases n with
  | zero =>
    obtain ⟨x, hx, htx⟩ := ht
    exact ⟨x, hx, PartialEquivBEq.trans hst htx⟩
  | succ n =>
    obtain ⟨v, hv, u, hu, htu⟩ := ht
    exact ⟨v, hv, u, hu, PartialEquivBEq.trans hst htu⟩

/-! ### Layers -/

namespace Reached

/-- A handle names a state at distance `n`. -/
def At (succs : S → List S) (batch : List (S × P)) (n : Nat) (r : Reached S P Frontier)
    (h : Handle) : Prop :=
  ∃ s, r.state? h = some s ∧ Distance succs batch s n

/-- What is within `k` transfers is published. -/
def Knows (succs : S → List S) (batch : List (S × P)) (k : Nat) (r : Reached S P Frontier) : Prop :=
  ∀ n ≤ k, ∀ s, ReachableIn succs batch n s → r.Covers (fun s t => (s == t) = true) s

/-- States at distance `k` are to be expanded, and then those one transfer further. -/
structure Layered (succs : S → List S) (batch : List (S × P)) (k : Nat)
    (r : Reached S P Frontier) : Prop where
  inOrder : r.InOrder .breadthFirst
  queue : ∃ now later, r.waiting = now ++ later ∧ (∀ h ∈ now, r.At succs batch k h) ∧
    ∀ h ∈ later, r.At succs batch (k + 1) h
  knows : r.Knows succs batch k

/-- The latest state is one transfer further than whatever else is known to be published. -/
structure Beyond (succs : S → List S) (batch : List (S × P)) (k : Nat)
    (r : Reached S P Frontier) : Prop where
  latest : ∃ s, r.lastState? = some s ∧ Distance succs batch s (k + 1)
  knows : r.Knows succs batch k

omit [BEq S] in
/-- Breadth-first, a new pair waits behind all others. -/
theorem InOrder.waiting_publish {r : Reached S P Frontier} (hr : r.InOrder .breadthFirst) (s : S)
    (p : P) : (r.publish s p).2.waiting = r.waiting ++ [r.nextHandle s p] := by
  have hpushed : (r.publish s p).2.waitlist = r.waitlist.push (r.nextHandle s p) (rank s) := by
    simp only [Reached.publish, Reached.enqueue, Arena.get?_add_self, Bool.false_eq_true, if_false]
    rfl
  have horder := hr.order
  show (r.publish s p).2.waitlist.toList = r.waitlist.toList ++ _
  rw [hpushed]
  cases hw : r.waitlist with
  | fifo q => exact Fifo.toList_push q _
  | lifo q =>
    rw [hw] at horder
    cases horder
  | ranked q =>
    rw [hw] at horder
    cases horder

variable {succs : S → List S} {batch : List (S × P)} {k : Nat} {r r' : Reached S P Frontier}
  {h : Handle} {s : S} {p : P}

theorem Knows.of_states (hr : r.Knows succs batch k) (hstates : ∀ t ∈ r.states, t ∈ r'.states) :
    r'.Knows succs batch k := by
  intro n hn s hs
  obtain ⟨t, ht, hst⟩ := hr n hn s hs
  exact ⟨t, hstates t ht, hst⟩

theorem Beyond.enqueue (hr : r.Beyond succs batch k) (h : Handle) :
    (r.enqueue h).2.Beyond succs batch k := by
  obtain ⟨s, hs, hdistance⟩ := hr.latest
  refine ⟨⟨s, ?_, hdistance⟩, hr.knows.of_states fun t ht => mem_states_enqueue.2 ht⟩
  obtain ⟨g, hlast, hg⟩ := Option.bind_eq_some_iff.1 hs
  rw [lastState?, (ends_enqueue r h).2, hlast]
  exact (state?_enqueue r h g).trans hg

namespace Layered

/-- A state of the layer leaves it. -/
theorem leave (hr : r.Layered succs batch k) (e : r.pop = (some h, r')) {now later : List Handle}
    (hqueue : r.waiting = h :: now ++ later) (hnow : ∀ g ∈ h :: now, r.At succs batch k g)
    (hlater : ∀ g ∈ later, r.At succs batch (k + 1) g) :
    r'.Layered succs batch k ∧ r'.At succs batch k h := by
  have hkept : ∀ {n g}, r.At succs batch n g → r'.At succs batch n g := fun hg => by
    obtain ⟨s, hs, hdistance⟩ := hg
    exact ⟨s, (state?_of_pop e _).trans hs, hdistance⟩
  obtain ⟨hfirst, hothers⟩ := List.forall_mem_cons.1 hnow
  have hwaiting : r'.waiting = now ++ later := by
    rw [hr.inOrder.consistent.waiting_of_pop e] at hqueue
    exact (List.cons.inj hqueue).2
  refine ⟨⟨hr.inOrder.pop e, ⟨now, later, hwaiting, fun g hg => hkept (hothers g hg),
    fun g hg => hkept (hlater g hg)⟩, ?_⟩, hkept hfirst⟩
  exact hr.knows.of_states fun t ht => (mem_states_of_pop e).2 ht

/-- When nothing of the layer waits any more, the next one is complete: what precedes a state of
it was expanded. -/
theorem advance [PartialEquivBEq S] (hr : r.Layered succs batch k)
    (hsuccs : ∀ s t, (s == t) = true → SameStates (succs s) (succs t))
    (hclosed : r.Closed (fun s t => (s == t) = true) fun s _ t => t ∈ succs s)
    (hdone : ∀ h ∈ r.waiting, r.At succs batch (k + 1) h) : r.Layered succs batch (k + 1) := by
  refine ⟨hr.inOrder, ⟨r.waiting, [], (List.append_nil _).symm, hdone, fun h hh => (nomatch hh)⟩, ?_⟩
  intro n hn s hs
  rcases Nat.le_succ_iff.1 hn with hn | rfl
  · exact hr.knows n hn s hs
  · obtain ⟨t, ht, u, hu, hsu⟩ := hs
    obtain ⟨t', ht', htt'⟩ := hr.knows k (Nat.le_refl k) t ht
    obtain ⟨h, hh⟩ := mem_states_iff.1 ht'
    obtain ⟨⟨t', p, waiting⟩, hentry, rfl⟩ := state?_eq_some_iff.1 hh
    have hwaiting : waiting = false := by
      cases waiting with
      | false => rfl
      | true =>
        obtain ⟨t'', ht'', hdistance⟩ := hdone h ((hr.inOrder.consistent.waits h).2 ⟨_, hentry, rfl⟩)
        rw [hh, Option.some.injEq] at ht''
        subst ht''
        exact absurd (hdistance.least k (ht.of_beq (PartialEquivBEq.symm htt'))) (by omega)
    subst hwaiting
    obtain ⟨v, hv, huv⟩ := (hsuccs t t' htt').1 u hu
    obtain ⟨w, hw, hvw⟩ := hclosed h t' p hentry v hv
    exact ⟨w, hw, PartialEquivBEq.trans hsu (PartialEquivBEq.trans huv hvw)⟩

/-- The next state to be taken out is of this layer, or it opens the next. -/
theorem pop [PartialEquivBEq S] (hr : r.Layered succs batch k)
    (hsuccs : ∀ s t, (s == t) = true → SameStates (succs s) (succs t))
    (hclosed : r.Closed (fun s t => (s == t) = true) fun s _ t => t ∈ succs s)
    (e : r.pop = (some h, r')) : ∃ n, k ≤ n ∧ r'.Layered succs batch n ∧ r'.At succs batch n h := by
  have hhead := hr.inOrder.consistent.waiting_of_pop e
  obtain ⟨now, later, hqueue, hnow, hlater⟩ := hr.queue
  cases now with
  | nil =>
    rw [List.nil_append] at hqueue
    rw [← hqueue] at hlater
    have hnext := hr.advance hsuccs hclosed hlater
    rw [hhead] at hlater
    exact ⟨k + 1, Nat.le_succ k, hnext.leave e (hhead.trans (List.append_nil _).symm) hlater
      fun g hg => (nomatch hg)⟩
  | cons g now =>
    have hg : g = h := (List.cons.inj (hhead.symm.trans hqueue)).1.symm
    subst hg
    exact ⟨k, Nat.le_refl k, hr.leave e hqueue hnow hlater⟩

/-- A new successor belongs to the next layer. -/
theorem publish (hr : r.Layered succs batch k) (hs : ReachableIn succs batch (k + 1) s)
    (hnew : ∀ t ∈ r.states, ¬ (s == t) = true) (p : P) :
    (r.publish s p).2.Layered succs batch k ∧ (r.publish s p).2.Beyond succs batch k := by
  have hdistance : Distance succs batch s (k + 1) := by
    refine ⟨hs, fun m hm => ?_⟩
    by_contra hlt
    obtain ⟨t, ht, hst⟩ := hr.knows m (by omega) s hm
    exact hnew t ht hst
  have hview : ∀ g, (r.publish s p).2.state? g =
      if g = r.nextHandle s p then some s else r.state? g := fun g => by
    rw [state?, get?_publish]
    split <;> rfl
  have hkept : ∀ {n g}, r.At succs batch n g → (r.publish s p).2.At succs batch n g := fun hg => by
    obtain ⟨t, ht, hdistance⟩ := hg
    refine ⟨t, ?_, hdistance⟩
    rw [hview, if_neg, ht]
    rintro rfl
    rw [state?, get?_nextHandle] at ht
    cases ht
  have hknows : (r.publish s p).2.Knows succs batch k := hr.knows.of_states fun t ht => by
    obtain ⟨g, hg⟩ := mem_states_iff.1 ht
    refine mem_states_iff.2 ⟨g, ?_⟩
    rw [hview, if_neg, hg]
    rintro rfl
    rw [state?, get?_nextHandle] at hg
    cases hg
  obtain ⟨now, later, hqueue, hnow, hlater⟩ := hr.queue
  refine ⟨⟨hr.inOrder.publish s p, ⟨now, later ++ [r.nextHandle s p], ?_, fun g hg => hkept (hnow g hg),
    fun g hg => ?_⟩, hknows⟩, ⟨⟨s, lastState?_publish r s p, hdistance⟩, hknows⟩⟩
  · rw [hr.inOrder.waiting_publish, hqueue, List.append_assoc]
  · rcases List.mem_append.1 hg with hg | hg
    · exact hkept (hlater g hg)
    · rw [List.mem_singleton.1 hg]
      exact ⟨s, by rw [hview, if_pos rfl], hdistance⟩

end Layered
end Reached

/-! ### Expansions -/

/-- Explicit states, halting at targets or not at all. -/
structure Analysis.Searching {ω W : Type} (succs : S → List S) (a : Analysis ω S P W) : Prop where
  transfer : a.Yields succs
  merge : a.merge = .separate
  stop : a.stop = .separate .flat
  adjust : a.adjust = .keep ∨ a.adjust = .haltOnTarget .keep
  cover : a.cover = none

namespace Analysis.Searching
variable {ω W : Type} {succs : S → List S} {a : Analysis ω S P W}

/-- The states of successors are kept. -/
theorem result_adjust (ha : a.Searching succs) {s : S} {p : P} {r : Reached S P W} {w : ω}
    {adjusted : Option (Adjusted S P)} (h : (a.adjust s p r w).result = .ok adjusted) :
    ∃ action, adjusted = some ⟨s, p, action⟩ ∧ (action = .halt → a.Hunting .flat) := by
  rcases ha.adjust with hadjust | hadjust
  · rw [hadjust] at h
    cases h
    exact ⟨.proceed, rfl, fun h => (nomatch h)⟩
  · have hhunting : a.Hunting .flat :=
      ⟨hadjust, ha.stop, fun joins => (by rw [ha.merge] at joins; cases joins),
        fun joins => (by rw [ha.merge] at joins; cases joins), ha.cover⟩
    rw [hhunting.result_adjust] at h
    cases h
    exact ⟨_, rfl, fun _ => hhunting⟩

theorem explicit [ReflBEq S] (ha : a.Searching succs) : a.Explicit succs := by
  refine Analysis.explicit_of_separate ha.transfer ha.merge ha.stop (fun h => ?_) ha.cover
  obtain ⟨action, rfl, -⟩ := ha.result_adjust h
  exact ⟨_, rfl, BEq.refl _⟩

end Analysis.Searching

variable {ω : Type} [BEq P] [EquivBEq S] {succs : S → List S} {batch : List (S × P)}
  {a : Analysis ω S P Frontier} {k : Nat} {r r' : Reached S P Frontier} {s : S} {p : P}

namespace Effect
open Reached

variable (hlocation : ∀ s t : S, (s == t) = true → location s = location t)
  (ha : a.Searching succs)
include hlocation ha

/-- A successor that is one transfer further is published behind all others, unless an equal
state is there. -/
theorem Settled.layered (hr : r.Layered succs batch k) (hs : ReachableIn succs batch (k + 1) s)
    {after flow : Flow} (h : Settled a s p after r flow r') :
    r'.Layered succs batch k ∧ (flow = .halt → r'.Beyond succs batch k) := by
  cases h with
  | undecided stop => exact ⟨hr, fun h => (nomatch h)⟩
  | covered stop => exact ⟨hr, fun h => (nomatch h)⟩
  | published stop =>
    have hnone : r.find? s = none := by
      cases hfind : r.find? s with
      | none => rfl
      | some h =>
        obtain ⟨hmem, t, ht, hsame⟩ := find?_eq_some hfind
        have hany : (r.statesAt s).any (s == ·) = true := List.any_eq_true.2
          ⟨t, mem_statesAt_iff.2 ⟨h, hmem, ht⟩, PartialEquivBEq.symm hsame⟩
        rw [← ha.explicit.stop stop] at hany
        cases hany
    have hnew := hr.inOrder.consistent.differs_of_find?_eq_none hlocation hnone
    rw [add_of_find?_eq_none hnone]
    have hpublished := hr.publish hs (fun t ht => (hnew t ht).1) p
    exact ⟨hpublished.1, fun _ => hpublished.2⟩

theorem Treated.layered (hr : r.Layered succs batch k) (hs : ReachableIn succs batch (k + 1) s)
    {flow : Flow} (h : Treated a s p r flow r') :
    r'.Layered succs batch k ∧ (flow = .halt → a.Hunting .flat ∧ r'.Beyond succs batch k) := by
  have hmerged : ∀ {t q abort r₁}, Merged a t q r abort r₁ → abort = none ∧ r₁ = r := fun hm => by
    cases hm with
    | spared separates => exact ⟨rfl, rfl⟩
    | scanned joins scan =>
      rw [ha.merge] at joins
      cases joins
  cases h with
  | interrupted => exact ⟨hr, fun h => (nomatch h)⟩
  | unadjusted adjust => exact ⟨hr, fun h => (nomatch h)⟩
  | pruned adjust => exact ⟨hr, fun h => (nomatch h)⟩
  | halting adjust settle =>
    obtain ⟨action, hkept, hhalt⟩ := ha.result_adjust adjust
    cases hkept
    have hsettled := settle.layered hlocation ha hr hs
    exact ⟨hsettled.1, fun hflow => ⟨hhalt rfl, hsettled.2 hflow⟩⟩
  | unmerged adjust merge => cases (hmerged merge).1
  | proceeding adjust merge settle =>
    obtain ⟨action, hkept, -⟩ := ha.result_adjust adjust
    cases hkept
    obtain ⟨-, rfl⟩ := hmerged merge
    refine ⟨(settle.layered hlocation ha hr hs).1, fun hflow => ?_⟩
    cases settle <;> cases hflow

theorem TreatedAll.layered {h : Handle} {successors : List (S × P)} {flow : Flow}
    (hr : r.Layered succs batch k)
    (hsuccessors : ∀ x ∈ successors, ReachableIn succs batch (k + 1) x.1)
    (ht : TreatedAll a h successors r flow r') :
    (flow = .onward → r'.Layered succs batch k) ∧
      (flow = .halt → a.Hunting .flat ∧ r'.Beyond succs batch k) := by
  induction ht with
  | finished => exact ⟨fun _ => hr, fun h => (nomatch h)⟩
  | next first others ih =>
    obtain ⟨hfirst, hothers⟩ := List.forall_mem_cons.1 hsuccessors
    exact ih (first.layered hlocation ha hr hfirst).1 hothers
  | haltedLast first =>
    have hfirst := hsuccessors _ (List.mem_cons_self ..)
    exact ⟨fun h => (nomatch h), (first.layered hlocation ha hr hfirst).2⟩
  | halted first left =>
    have hfirst := hsuccessors _ (List.mem_cons_self ..)
    refine ⟨fun h => (nomatch h), fun hflow => ?_⟩
    obtain ⟨hhunting, hbeyond⟩ := (first.layered hlocation ha hr hfirst).2 hflow
    exact ⟨hhunting, hbeyond.enqueue _⟩
  | abandoned first => exact ⟨fun h => (nomatch h), fun h => (nomatch h)⟩

theorem Expanded.layered {h : Handle} {flow : Flow} (hr : r.Layered succs batch k)
    (hh : r.At succs batch k h) (hx : Expanded a h r flow r') :
    (flow = .onward → r'.Layered succs batch k) ∧
      (flow = .halt → a.Hunting .flat ∧ r'.Beyond succs batch k) := by
  cases hx with
  | nothing pair => exact ⟨fun _ => hr, fun h => (nomatch h)⟩
  | unattempted pair cover => exact ⟨fun h => (nomatch h), fun h => (nomatch h)⟩
  | forced pair cover => cases (cover.of_absent ha.cover).1
  | failed pair cover transfer => exact ⟨fun h => (nomatch h), fun h => (nomatch h)⟩
  | @expanded s p w successors flow r₁ r₂ pair cover transfer treated =>
    obtain ⟨-, rfl⟩ := cover.of_absent ha.cover
    obtain ⟨t, ht, hdistance⟩ := hh
    have hs : s = t := by
      obtain ⟨waiting, hentry⟩ := get?_eq_some_iff.1 pair
      rw [state?, hentry] at ht
      exact Option.some.inj ht
    subst hs
    refine treated.layered hlocation ha hr fun x hx => ?_
    obtain ⟨u, hu, hxu⟩ := (ha.transfer s p w successors transfer).1 x.1 (List.mem_map_of_mem hx)
    exact ⟨s, hdistance.reachable, u, hu, hxu⟩

end Effect

/-! ### Runs -/

/-- The latest state is a target, and no target can be reached in fewer transfers. -/
def Reached.Nearest (succs : S → List S) (batch : List (S × P)) (r : Reached S P Frontier) : Prop :=
  ∃ s n, r.lastState? = some s ∧ isTarget s = true ∧ Distance succs batch s n ∧
    ∀ t m, isTarget t = true → ReachableIn succs batch m t → n ≤ m

omit [BEq P] in
/-- The only target published is the latest, and whatever can be reached in fewer transfers is
published. -/
theorem Reached.Beyond.nearest (htargets : ∀ s t : S, (s == t) = true → isTarget s = isTarget t)
    (hr : r.Beyond succs batch k) (hcaught : r.Caught) : r.Nearest succs batch := by
  obtain ⟨s, hs, hdistance⟩ := hr.latest
  obtain ⟨h, s', hlast, hs', htarget, honly⟩ := hcaught
  have hsame : s' = s := by
    rw [lastState?, hlast] at hs
    exact Option.some.inj (hs'.symm.trans hs)
  subst hsame
  refine ⟨s', k + 1, hs, htarget, hdistance, fun t m ht hm => ?_⟩
  by_contra hlt
  obtain ⟨u, hu, htu⟩ := hr.knows m (by omega) t hm
  obtain ⟨g, hg⟩ := mem_states_iff.1 hu
  have hg' : g = h := honly g u hg ((htargets t u htu).symm.trans ht)
  have hus : u = s' := Option.some.inj (hg.symm.trans (hg' ▸ hs'))
  have hnearer := hdistance.least m (hm.of_beq (PartialEquivBEq.symm (hus ▸ htu)))
  exact hlt hnearer

variable (hlocation : ∀ s t : S, (s == t) = true → location s = location t)
  (hsuccs : ∀ s t, (s == t) = true → SameStates (succs s) (succs t)) (ha : a.Searching succs)
include hlocation hsuccs ha

namespace Exploration
variable {x : Exploration ω S P Frontier}

/-- From some layer on, states are taken out by ascending distance. If the run halts, it does so
one transfer beyond what is published by then. -/
theorem popped_iterateScript (limit : Nat) (hx : x.reached.Layered succs batch k)
    (hclosed : x.reached.Closed (fun s t => (s == t) = true) fun s _ t => t ∈ succs s) :
    (∃ distances, List.Forall₂ (Distance succs batch)
        (x.reached.popped (iterateScript a limit x)) distances ∧
      distances.Pairwise (· ≤ ·) ∧ ∀ n ∈ distances, k ≤ n) ∧
    ((iterate a limit x).1 = some (.ok .halted) →
      a.Hunting .flat ∧ ∃ n, (iterate a limit x).2.reached.Beyond succs batch n) := by
  have hle : Subsumption fun s t : S => (s == t) = true := .equality
  induction limit generalizing x k with
  | zero => exact ⟨⟨[], .nil, .nil, fun n hn => (nomatch hn)⟩, fun h => (nomatch h)⟩
  | succ limit ih =>
    rcases step_cases a x with ⟨h, y, flow, z, hi⟩ | ⟨hended, hscript⟩
    · obtain ⟨n, hkn, hy, hh⟩ := hx.pop hsuccs hclosed hi.popped
      obtain ⟨s, hs, hdistance⟩ := id hh
      have hexpanded := Effect.expand_effect a h y
      rw [hi.expanded] at hexpanded
      have hexpansion := hexpanded.layered hlocation ha hy hh
      by_cases hflow : flow = .onward
      · subst hflow
        obtain ⟨hiterate, -, htakings⟩ := hi.takings_onward ha.cover limit
        have hz : z.reached.Closed (fun s t => (s == t) = true) fun s _ t => t ∈ succs s := by
          have hstep := Effect.step_effect a x
          rw [hi.step] at hstep
          exact hstep.closed hle.respects (ha.explicit.conservative.faithful hle)
            (ha.transfer.represents id) hx.inOrder.consistent hclosed
        obtain ⟨⟨distances, hall, hsorted, hbelow⟩, hhalted⟩ := ih (hexpansion.1 rfl) hz
        rw [hiterate]
        refine ⟨⟨n :: distances, ?_, List.pairwise_cons.2 ⟨hbelow, hsorted⟩, ?_⟩, hhalted⟩
        · simp only [Reached.popped, htakings, List.filterMap_cons, Taking.state?, hs]
          exact .cons hdistance hall
        · exact List.forall_mem_cons.2 ⟨hkn, fun m hm => Nat.le_trans hkn (hbelow m hm)⟩
      · obtain ⟨hending, htakings⟩ := hi.takings_ended ha.cover hflow limit
        rw [hending]
        refine ⟨⟨[n], ?_, List.pairwise_singleton .., List.forall_mem_singleton.2 hkn⟩, fun hhalt => ?_⟩
        · simp only [Reached.popped, htakings, List.filterMap_cons, Taking.state?, hs]
          exact .cons hdistance .nil
        · cases flow with
          | halt =>
            obtain ⟨hhunting, hbeyond⟩ := hexpansion.2 rfl
            rw [iterate, hi.step]
            exact ⟨hhunting, n, hbeyond⟩
          | onward => cases hhalt
          | abort e => cases hhalt
    · obtain ⟨-, hresult, htakings⟩ := takings_iterateScript_eq_nil a hended hscript limit
      refine ⟨⟨[], ?_, .nil, fun n hn => (nomatch hn)⟩, fun hhalt => absurd hhalt hresult⟩
      rw [Reached.popped, htakings]
      exact .nil

end Exploration

omit hlocation hsuccs ha [EquivBEq S] in
theorem Reached.Within.drain_seeded {Q : S → Prop} (hbatch : ∀ x ∈ batch, Q x.1)
    (o : TraversalOrder) : (seeded o batch : Reached S P Frontier).drain.Within Q := by
  refine Within.addAll (fun x hx => ?_) fun s hs => ?_
  · rw [seeds_seeded] at hx
    exact hbatch x hx
  · have hnone : s ∈ (seeded o batch : Reached S P Frontier).states := hs
    rw [states_seeded] at hnone
    cases hnone

omit hlocation hsuccs ha in
/-- The seeds are the first layer. -/
theorem Reached.layered_drain (batch : List (S × P)) :
    (seeded .breadthFirst batch).drain.Layered succs batch 0 := by
  have hconsistent := (consistent_seeded .breadthFirst batch).drain
  have hwithin : (seeded .breadthFirst batch).drain.Within (ReachableIn succs batch 0) :=
    .drain_seeded (fun x hx => ⟨x, hx, BEq.refl _⟩) .breadthFirst
  refine ⟨?_, ⟨_, [], (List.append_nil _).symm, fun h hh => ?_, fun h hh => (nomatch hh)⟩, ?_⟩
  · have hbefore : (seeded .breadthFirst batch : Reached S P Frontier).InOrder .breadthFirst := by
      rw [seeded_eq]
      exact (InOrder.stable _).seeds batch (.ofOrder _)
    rw [← Exploration.performAll_drainScript]
    exact (InOrder.stable _).performAll _ hbefore
  · obtain ⟨e, he, -⟩ := (hconsistent.waits h).1 hh
    have hstate := state?_eq_some_iff.2 ⟨e, he, rfl⟩
    exact ⟨e.state, hstate, hwithin _ (mem_states_iff.2 ⟨h, hstate⟩), fun m _ => Nat.zero_le m⟩
  · intro n hn s hs
    obtain rfl := Nat.le_zero.1 hn
    obtain ⟨x, hx, hsx⟩ := hs
    refine covers_drain Subsumption.equality.respects hsx (.inl ?_)
    rwa [seeds_seeded]

/-- **Breadth-first, states are expanded by their distance, and a target found is a nearest one.**
Let states be explicit, and successors depend on nothing but the state. From a batch of seeds
a run takes out states by ascending distance from the seeds. If no seed is a target and the
run halts, the latest state is a target, and no target can be reached in fewer transfers. -/
theorem breadth_first_by_distance {x : Exploration ω S P Frontier}
    (hx : x.reached = .seeded .breadthFirst batch) (limit : Nat) :
    (∃ distances, List.Forall₂ (Distance succs batch)
        (x.reached.popped (Exploration.runScript a limit x)) distances ∧
      distances.Pairwise (· ≤ ·)) ∧
    ((∀ s t : S, (s == t) = true → isTarget s = isTarget t) →
      (∀ z ∈ batch, isTarget z.1 = false) → ∀ o, (x.run a limit).1 = some (.ok o) →
        o.termination = .halted → (x.run a limit).2.reached.Nearest succs batch) := by
  have hbegun : (x.start .total).publishSeeds.reached = x.reached.drain := by
    rw [Exploration.reached_publishSeeds, Exploration.reached_start]
  have hlayered : (x.start .total).publishSeeds.reached.Layered succs batch 0 := by
    rw [hbegun, hx]
    exact Reached.layered_drain batch
  have hclosed : (x.start .total).publishSeeds.reached.Closed (fun s t => (s == t) = true)
      fun s _ t => t ∈ succs s := by
    rw [hbegun, hx]
    have hnothing : (Reached.seeded .breadthFirst batch).takeSeeds.2.Closed
        (fun s t => (s == t) = true) fun s _ t => t ∈ succs s :=
      (Reached.closed_seeded _ _ .breadthFirst batch).congr rfl
    exact hnothing.advances (Reached.advances_addAll ..)
  obtain ⟨⟨distances, hall, hsorted, -⟩, hhalted⟩ :=
    Exploration.popped_iterateScript hlocation hsuccs ha limit hlayered hclosed
  refine ⟨⟨distances, ?_, hsorted⟩, fun htargets hbatch o ho hhalt => ?_⟩
  · rwa [Reached.popped, Exploration.takings_runScript]
  · obtain ⟨-, -, hreached, -⟩ := Exploration.run_eq_iterate a limit x
    have hended := ((Exploration.run_ok_iff a).1 ho).2
    rw [hhalt] at hended
    obtain ⟨hhunting, n, hbeyond⟩ := hhalted hended
    have hiterated := Effect.iterate_effect a limit _ _ hended
    have hclean : (x.start .total).publishSeeds.reached.Clean := by
      rw [hbegun, hx]
      exact .drain_seeded hbatch .breadthFirst
    have hcaught : Reached.Caught _ := hiterated.hunted .equality hhunting
      hlayered.inOrder.consistent hclean
    rw [hreached]
    exact hbeyond.nearest htargets hcaught

end Reachability

/-! The demonstration with its states kept apart, counting to three and failing there, from two
seeds. The loop from one is expanded before the loop from zero, and fails first. -/
namespace Reachability.Counter

theorem hunt_searching (prog : Program) : (hunt prog).Searching prog.successors where
  transfer := analysis_yields (W := Frontier) prog false true
  merge := rfl
  stop := rfl
  adjust := .inr rfl
  cover := rfl

def twoSeeds : List (Interval × Unit) :=
  [(seed, ()), (⟨.loop, 1, 1⟩, ())]

def twoSeedsRun : State where
  trail := { reached := .seeded .breadthFirst twoSeeds }
  memory := ()

theorem twoSeedsRun_by_distance :
    twoSeedsRun.reached.popped (Exploration.runScript (hunt ⟨3, some 3⟩) 20 twoSeedsRun) =
        [seed, ⟨.loop, 1, 1⟩, ⟨.loop, 0, 0⟩, ⟨.loop, 2, 2⟩] ∧
      (∃ distances, List.Forall₂ (Distance (Program.successors ⟨3, some 3⟩) twoSeeds)
          (twoSeedsRun.reached.popped (Exploration.runScript (hunt ⟨3, some 3⟩) 20 twoSeedsRun))
          distances ∧
        distances.Pairwise (· ≤ ·)) ∧
      (Exploration.run (hunt ⟨3, some 3⟩) 20 twoSeedsRun).2.reached.Nearest
        (Program.successors ⟨3, some 3⟩) twoSeeds := by
  have hhalted : (Exploration.run (hunt ⟨3, some 3⟩) 20 twoSeedsRun).1 =
      some (.ok ⟨.soundAndPrecise, .halted⟩) := by decide +kernel
  obtain ⟨hdistances, hnearest⟩ := breadth_first_by_distance
    (fun s t hst => congrArg Interval.loc (eq_of_beq hst))
    (fun s t hst => by
      rw [eq_of_beq hst]
      exact .refl _)
    (hunt_searching ⟨3, some 3⟩) (x := twoSeedsRun) rfl 20
  refine ⟨by decide +kernel, hdistances, ?_⟩
  exact hnearest (fun s t hst => by rw [eq_of_beq hst]) (by decide) _ hhalted rfl

end Reachability.Counter
