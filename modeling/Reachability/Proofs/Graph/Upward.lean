import Mathlib.Data.List.Infix
import Mathlib.Data.List.Pairwise
import Reachability.Proofs.Counter.Interval
import Reachability.Proofs.Reached.Population
import Reachability.Proofs.Reached.Requeue
import Reachability.Proofs.Run.Counters
import Reachability.Proofs.Run.Taken

/-! Expanding a graph by rank, where every edge leads to a larger rank.

If ranks belong to locations, all that is done for a successor happens at its location
(`Reached.SameBut`), which is of a larger rank than the pair that is expanded. By rank that
pair comes before all that wait, and stays before all that wait later on, so nothing is done at
its location any more (`Reached.Overtaken`): no pair is expanded twice in a run, and none is
removed once it was expanded. -/
namespace Reachability

open AbstractState (Location location rank)

variable {ω S P : Type} [AbstractState S]

/-! ### What is done at one location -/

/-- Elsewhere than at a location the same pairs are published, waiting or not. -/
def Reached.SameBut {W : Type} (l : Location S) (r r' : Reached S P W) : Prop :=
  ∀ h e, location e.state ≠ l → (r'.arena.get? h = some e ↔ r.arena.get? h = some e)

namespace Reached.SameBut
variable {r r₁ r₂ : Reached S P Frontier} {l : Location S}

theorem refl (l : Location S) (r : Reached S P Frontier) : SameBut l r r :=
  fun _ _ _ => Iff.rfl

theorem trans (h₁ : SameBut l r r₁) (h₂ : SameBut l r₁ r₂) : SameBut l r r₂ :=
  fun h e he => (h₂ h e he).trans (h₁ h e he)

theorem removeHandles {gone : List Handle}
    (hgone : ∀ h ∈ gone, ∀ s, r.state? h = some s → location s = l) :
    SameBut l r (gone.foldl removeHandle r) := by
  intro h e he
  rw [get?_removeHandles]
  split
  · rename_i hmem
    refine ⟨fun hnone => (nomatch hnone), fun hlive => ?_⟩
    exact absurd (hgone h hmem e.state (state?_eq_some_iff.2 ⟨e, hlive, rfl⟩)) he
  · exact Iff.rfl

variable [BEq S] [BEq P]

/-- A state is published at its location, or a pair there is published again. -/
theorem add (hr : r.Consistent) (s : S) (p : P) : SameBut (location s) r (r.add s p).2 := by
  intro h e he
  cases hfind : r.find? s with
  | none =>
    rw [add_of_find?_eq_none hfind, get?_publish]
    split
    · rename_i hnew
      rw [hnew, get?_nextHandle]
      exact ⟨fun hlive => absurd (by cases hlive; rfl) he, fun hnone => (nomatch hnone)⟩
    · exact Iff.rfl
  | some k =>
    obtain ⟨hmem, t, ht, -⟩ := find?_eq_some hfind
    have hloc := hr.location_of_mem_handlesAt hmem ht
    obtain ⟨⟨t, q, waiting⟩, hk, rfl⟩ := state?_eq_some_iff.1 ht
    rw [get?_add_of_find?_eq_some hfind hk]
    split
    · rename_i hh
      rw [hh, hk]
      constructor
      · intro hlive
        split at hlive <;> cases hlive <;> exact absurd hloc he
      · intro hlive
        cases hlive
        exact absurd hloc he
    · exact Iff.rfl

theorem addAll {fresh : List (S × P)} (hr : r.Consistent)
    (hfresh : ∀ x ∈ fresh, location x.1 = l) :
    SameBut l r (fresh.foldl (fun r (s, p) => (r.add s p).2) r) := by
  induction fresh generalizing r with
  | nil => exact refl l r
  | cons pair rest ih =>
    have hfirst := add hr pair.1 pair.2
    rw [hfresh pair (List.mem_cons_self ..)] at hfirst
    exact hfirst.trans
      (ih (hr.add pair.1 pair.2) fun x hx => hfresh x (List.mem_cons_of_mem _ hx))

end Reached.SameBut

namespace Effect
open Reached

variable [BEq S] [BEq P] {a : Analysis ω S P Frontier} {r r' : Reached S P Frontier} {s : S} {p : P}

theorem Settled.sameBut {after flow : Flow} (hr : r.Consistent)
    (h : Settled a s p after r flow r') : r.SameBut (location s) r' := by
  cases h with
  | undecided stop => exact .refl _ r
  | covered stop => exact .refl _ r
  | published stop => exact .add hr s p

/-- Merging with the candidates of a location replaces them there, if the merge says so. -/
theorem Merged.sameBut {abort : Option Abort}
    (hmerge : ∀ {old w new}, location s = location old →
      (a.merge.merge s old p w).result = .ok new → location new = location old)
    (hr : r.Consistent) (h : Merged a s p r abort r') :
    r.SameBut (location s) r' := by
  cases h with
  | spared separates => exact .refl _ r
  | @scanned changed abort joins scan =>
    have hgone : ∀ h ∈ changed.map Prod.fst, ∀ t, r.state? h = some t →
        location t = location s := fun h hmem t ht => by
      obtain ⟨c, hc, rfl⟩ := List.mem_map.1 hmem
      exact hr.location_of_mem_handlesAt (scan.exists_merge hc).1 ht
    have hremoved : ((changed.map Prod.fst).foldl removeHandle r).Consistent :=
      Consistent.stable.removeHandles _ hr
    refine (SameBut.removeHandles hgone).trans (.addAll hremoved fun x hx => ?_)
    obtain ⟨c, hc, rfl⟩ := List.mem_map.1 hx
    obtain ⟨hcandidate, old, w, hold, hnew, -⟩ := scan.exists_merge hc
    have hloc := hr.location_of_mem_handlesAt hcandidate hold
    exact (hmerge hloc.symm hnew).trans hloc

end Effect

/-! ### What was overtaken -/

/-- The pair that leaves the frontier by rank comes before all that go on waiting. -/
theorem Reached.InOrder.rank_le_of_pop {r r' : Reached S P Frontier} (hr : r.InOrder .topological)
    {h : Handle} (e : r.pop = (some h, r')) {s : S} (hs : r.state? h = some s) {g : Handle}
    {entry : Entry S P} (hg : r'.arena.get? g = some entry) (hwaits : entry.waiting = true) :
    rank s ≤ rank entry.state := by
  obtain ⟨k, same, larger, hk, hwaiting, -, hsame, hlarger⟩ := hr.requeued_of_pop e
  obtain ⟨_, -, hview⟩ := pop_eq_some e
  have hrank : k = rank s := by
    rw [rank?, hs] at hk
    exact (Option.some.inj hk).symm
  rw [hview] at hg
  split at hg
  · cases hg
    cases hwaits
  · rename_i hne
    have hown : r.rank? g = some (rank entry.state) := by
      rw [rank?, state?, hg]
      rfl
    have hmem : g ∈ r.waiting := (hr.consistent.waits g).2 ⟨entry, hg, hwaits⟩
    rw [hwaiting, List.mem_cons, List.mem_append] at hmem
    rcases hmem.resolve_left hne with hmem | hmem
    · have hequal := (hsame g hmem).symm.trans hown
      rw [← hrank]
      exact Nat.le_of_eq (Option.some.inj hequal)
    · obtain ⟨m, hm, hlt⟩ := hlarger g hmem
      rw [hm, Option.some.injEq] at hown
      omega

/-- A published pair that no waiting pair comes before by rank. As long as it is `still`, it
does not wait itself. -/
structure Reached.Overtaken (still : Bool) (g : Handle) (s : S) (p : P)
    (r : Reached S P Frontier) : Prop where
  inOrder : r.InOrder .topological
  pair : r.get? g = some (s, p)
  ahead : ∀ h e, r.arena.get? h = some e → e.waiting = true → rank s ≤ rank e.state
  rests : still = true → r.isWaiting g = false

namespace Reached.Overtaken
variable {still : Bool} {g : Handle} {s : S} {p : P} {r r' : Reached S P Frontier}

/-- The pair that leaves the frontier by rank overtakes itself. -/
theorem of_pop (hr : r.InOrder .topological) (e : r.pop = (some g, r')) :
    ∃ s p, r'.Overtaken true g s p := by
  obtain ⟨⟨s, p, waiting⟩, hentry, hview⟩ := pop_eq_some e
  have hg : r'.arena.get? g = some ⟨s, p, false⟩ := by rw [hview, if_pos rfl]
  refine ⟨s, p, hr.pop e, get?_eq_some_iff.2 ⟨false, hg⟩, fun h entry hh hwaits => ?_, fun _ => ?_⟩
  · exact hr.rank_le_of_pop e (state?_eq_some_iff.2 ⟨_, hentry, rfl⟩) hh hwaits
  · rw [isWaiting, hg]
    rfl

theorem relax (hr : r.Overtaken still g s p) : r.Overtaken false g s p :=
  ⟨hr.inOrder, hr.pair, hr.ahead, fun h => (nomatch h)⟩

theorem pop (hr : r.Overtaken still g s p) {popped : Option Handle} (e : r.pop = (popped, r')) :
    r'.Overtaken still g s p := by
  obtain ⟨waiting, hg⟩ := get?_eq_some_iff.1 hr.pair
  cases popped with
  | none =>
    have harena := arena_of_pop_eq_none e
    refine ⟨hr.inOrder.pop e, ?_, ?_, ?_⟩
    · rw [Reached.get?, harena]
      exact hr.pair
    · rw [harena]
      exact hr.ahead
    · rw [isWaiting, harena]
      exact hr.rests
  | some h =>
    obtain ⟨entry, hentry, hview⟩ := pop_eq_some e
    refine ⟨hr.inOrder.pop e, ?_, fun k entry' hk hwaits => ?_, fun hstill => ?_⟩
    · refine get?_eq_some_iff.2 ?_
      rw [hview]
      split
      · rename_i hh
        rw [hh, hentry, Option.some.injEq] at hg
        exact ⟨false, by rw [hg]⟩
      · exact ⟨waiting, hg⟩
    · rw [hview] at hk
      split at hk
      · cases hk
        cases hwaits
      · exact hr.ahead k entry' hk hwaits
    · rw [isWaiting, hview]
      split
      · rfl
      · exact hr.rests hstill

/-- Putting back a pair that was overtaken no earlier changes nothing for the others. -/
theorem enqueue (hr : r.Overtaken still g s p) {h : Handle} (hne : still = true → h ≠ g)
    (hrank : ∀ t, r.state? h = some t → rank s ≤ rank t) :
    (r.enqueue h).2.Overtaken still g s p := by
  refine ⟨hr.inOrder.enqueue h, ?_, fun k e hk hwaits => ?_, fun hstill => ?_⟩
  · rw [pair_enqueue]
    exact hr.pair
  · rw [get?_enqueue] at hk
    split at hk
    · obtain ⟨e', he', rfl⟩ := Option.map_eq_some_iff.1 hk
      exact hrank e'.state (state?_eq_some_iff.2 ⟨e', he', rfl⟩)
    · exact hr.ahead k e hk hwaits
  · rw [isWaiting_enqueue_of_ne r (hne hstill).symm]
    exact hr.rests hstill

/-- It does not matter what is done at a location of a larger rank. -/
theorem of_sameBut [BEq S] [BEq P]
    (hrank : ∀ {t u : S}, location t = location u → rank t = rank u)
    (hr : r.Overtaken still g s p) {t : S} (hlt : rank s < rank t)
    (hsame : r.SameBut (location t) r') (hafter : r.Evolves r') : r'.Overtaken still g s p := by
  obtain ⟨waiting, hg⟩ := get?_eq_some_iff.1 hr.pair
  have hkept : r'.arena.get? g = some ⟨s, p, waiting⟩ :=
    (hsame g _ fun hloc => Nat.ne_of_lt hlt (hrank hloc)).2 hg
  refine ⟨?_, get?_eq_some_iff.2 ⟨waiting, hkept⟩, fun h e hh hwaits => ?_, fun hstill => ?_⟩
  · obtain ⟨ops, rfl⟩ := hafter
    exact (InOrder.stable _).performAll ops hr.inOrder
  · by_cases hloc : location e.state = location t
    · rw [hrank hloc]
      exact Nat.le_of_lt hlt
    · exact hr.ahead h e ((hsame h e hloc).1 hh) hwaits
  · have hrests := hr.rests hstill
    rw [isWaiting, hg] at hrests
    rw [isWaiting, hkept]
    exact hrests

/-- What leaves the frontier next is of no smaller rank, and is another pair if this one is
still. -/
theorem overtaken_of_pop (hr : r.Overtaken still g s p) {h : Handle} (e : r.pop = (some h, r')) :
    (still = true → h ≠ g) ∧ ∃ t q, r'.Overtaken true h t q ∧ rank s ≤ rank t := by
  obtain ⟨entry, hentry, hwaits⟩ :=
    (hr.inOrder.consistent.waits h).1 (hr.inOrder.consistent.mem_toList_of_pop e)
  obtain ⟨t, q, hovertaken⟩ := of_pop hr.inOrder e
  refine ⟨fun hstill hh => ?_, t, q, hovertaken, ?_⟩
  · have hrests := hr.rests hstill
    rw [isWaiting, ← hh, hentry] at hrests
    exact absurd hwaits (by simpa using hrests)
  · have hstate : r.state? h = some t := by
      rw [← state?_of_pop e]
      exact state?_of_get? hovertaken.pair
    rw [state?_eq_some_iff] at hstate
    obtain ⟨entry', hentry', rfl⟩ := hstate
    rw [hentry, Option.some.injEq] at hentry'
    exact hentry' ▸ hr.ahead h entry hentry hwaits

end Reached.Overtaken

/-! ### Expansions that lead upward -/

/-- Successors are of larger rank than the state that they are successors of, and merging
leaves a state at its location. -/
structure Analysis.Upward (a : Analysis ω S P Frontier) : Prop where
  climbs : ∀ {s p w l}, (a.transfer s p w).result = .ok l → ∀ x ∈ l, ∀ {r w t q action},
    (a.adjust x.1 x.2 r w).result = .ok (some ⟨t, q, action⟩) → rank s < rank t
  merge : ∀ {s old p w new}, location s = location old →
    (a.merge.merge s old p w).result = .ok new → location new = location old
  cover : a.cover = none

variable [BEq S] [BEq P] {a : Analysis ω S P Frontier}

theorem Analysis.KeepsSuccessor.and {I J : Reached S P Frontier → Prop} {s : S} {p : P}
    (hI : a.KeepsSuccessor I s p) (hJ : a.KeepsSuccessor J s p) :
    a.KeepsSuccessor (fun r => I r ∧ J r) s p where
  halt hr adjust settle := ⟨hI.halt hr.1 adjust settle, hJ.halt hr.2 adjust settle⟩
  merge hr adjust merge := ⟨hI.merge hr.1 adjust merge, hJ.merge hr.2 adjust merge⟩
  settle hr adjust merge settle :=
    ⟨hI.settle hr.1 adjust merge settle, hJ.settle hr.2 adjust merge settle⟩

variable (hrank : ∀ {s t : S}, location s = location t → rank s = rank t)
include hrank

/-- Dealing with a successor of a larger rank. -/
theorem Analysis.Upward.keepsSuccessor (ha : a.Upward) {still : Bool} {g : Handle} {s t : S}
    {p q : P} {w : ω} {l : List (S × P)} (hst : rank s ≤ rank t)
    (hl : (a.transfer t q w).result = .ok l) {x : S × P} (hx : x ∈ l) :
    a.KeepsSuccessor (Reached.Overtaken still g s p) x.1 x.2 where
  halt := by
    intro r w u q' flow r' hr adjust settle
    exact hr.of_sameBut hrank (Nat.lt_of_le_of_lt hst (ha.climbs hl x hx adjust))
      (settle.sameBut hr.inOrder.consistent) settle.settling.evolves
  merge := by
    intro r w u q' abort r' hr adjust merge
    exact hr.of_sameBut hrank (Nat.lt_of_le_of_lt hst (ha.climbs hl x hx adjust))
      (merge.sameBut ha.merge hr.inOrder.consistent) merge.evolves
  settle := by
    intro r w u q' r₁ flow r₂ hr adjust merge settle
    have hlt := Nat.lt_of_le_of_lt hst (ha.climbs hl x hx adjust)
    have hmerged := hr.of_sameBut hrank hlt (merge.sameBut ha.merge hr.inOrder.consistent)
      merge.evolves
    exact hmerged.of_sameBut hrank hlt (settle.sameBut hmerged.inOrder.consistent)
      settle.settling.evolves

namespace Exploration
variable {x y : Exploration ω S P Frontier} {still : Bool} {g h : Handle} {s t : S} {p q : P}

/-- Expanding a pair keeps everything overtaken that was no later than the pair, which may be
put back at the end. -/
theorem throughout_expansion (ha : a.Upward) (hy : y.reached.Overtaken still g s p)
    (hh : y.reached.Overtaken false h t q) (hst : rank s ≤ rank t)
    (hagain : (expand a h y).1 ≠ .onward → still = true → h ≠ g) :
    y.reached.Throughout (Reached.Overtaken still g s p)
      (expandScript a h y ++ (expand a h y).1.again h) := by
  have hback : ∀ r : Reached S P Frontier, (expand a h y).1 ≠ .onward →
      r.Overtaken still g s p ∧ r.Overtaken false h t q →
      (r.enqueue h).2.Overtaken still g s p ∧ (r.enqueue h).2.Overtaken false h t q := by
    intro r hflow hr
    have hstate : ∀ u, r.state? h = some u → u = t := fun u hu =>
      Option.some.inj (hu.symm.trans (Reached.state?_of_get? hr.2.pair))
    exact ⟨hr.1.enqueue (hagain hflow) fun u hu => hstate u hu ▸ hst,
      hr.2.enqueue (fun h => (nomatch h)) fun u hu => Nat.le_of_eq (by rw [hstate u hu])⟩
  have hsuccessors : ∀ {u q' w l}, y.reached.get? h = some (u, q') →
      (a.transfer u q' w).result = .ok l → ∀ z ∈ l, a.KeepsSuccessor (fun r =>
        r.Overtaken still g s p ∧ r.Overtaken false h t q) z.1 z.2 := by
    intro u q' w l hpair hl z hz
    rw [hh.pair, Option.some.injEq, Prod.mk.injEq] at hpair
    obtain ⟨rfl, rfl⟩ := hpair
    exact (ha.keepsSuccessor hrank hst hl hz).and (ha.keepsSuccessor hrank (Nat.le_refl _) hl hz)
  have hexpanded := throughout_expand ha.cover hsuccessors
    (fun hflow {r} hr => hback r (fun h => by rw [hflow] at h; cases h) hr) ⟨hy, hh⟩
  refine Reached.Throughout.mono (hexpanded.append ?_) fun _ hr => hr.1
  have hafter := hexpanded.last
  cases hflow : (expand a h y).1 with
  | onward => exact .nil hafter
  | halt => exact .nil hafter
  | abort e => exact .singleton hafter (hback _ (fun h => by rw [hflow] at h; cases h) hafter)

/-- What was overtaken is so for the rest of a run. -/
theorem throughout_overtaken (ha : a.Upward) (limit : Nat)
    (hx : x.reached.Overtaken still g s p) :
    x.reached.Throughout (Reached.Overtaken still g s p) (iterateScript a limit x) := by
  induction limit generalizing x with
  | zero => exact .nil hx
  | succ limit ih =>
    rcases step_cases a x with ⟨h, y, flow, z, hi⟩ | ⟨hended, hscript⟩
    · obtain ⟨hne, t, q, hh, hst⟩ := hx.overtaken_of_pop hi.popped
      have hbody := throughout_expansion hrank ha (hx.pop hi.popped) hh.relax hst fun _ => hne
      rw [hi.expanded] at hbody
      have hfirst : x.reached.Throughout (Reached.Overtaken still g s p) (stepScript a x) := by
        rw [hi.script]
        refine .cons hx ?_
        rwa [Reached.perform_pop hi.popped]
      have hafter := hfirst.last
      rw [iterateScript]
      refine hfirst.append ?_
      rw [← reached_step] at hafter ⊢
      generalize step a x = stepped at hafter ⊢
      obtain ⟨ended, z⟩ := stepped
      cases ended with
      | some result => exact .nil hafter
      | none => exact ih hafter
    · rw [(takings_iterateScript_eq_nil a hended hscript limit).1]
      rcases hscript with hscript | ⟨hscript, -⟩
      · rw [hscript]
        exact .nil hx
      · rw [hscript]
        exact .singleton hx (hx.pop rfl)

end Exploration

/-! ### What a run takes out -/

namespace Taking

/-- The pair stays published as it is. It goes back into the frontier only if it was the last
to be taken out, and what follows was `cut` short. -/
def Final (cut : Prop) (t : Taking S P Frontier) : Prop :=
  ∃ s p, ∀ more, more <+: t.rest → (t.after.performAll more).get? t.handle = some (s, p) ∧
    ((t.after.performAll more).isWaiting t.handle = true → t.after.takings t.rest = [] ∧ cut)

/-- One pair was overtaken by the time the other is taken out. -/
def Precedes (t u : Taking S P Frontier) : Prop :=
  ∃ s p more, t.state? = some s ∧ more <+: t.rest ∧
    (t.after.performAll more).Overtaken true t.handle s p ∧
    (t.after.performAll more).pop = (some u.handle, u.after)

end Taking

namespace Exploration
variable {x : Exploration ω S P Frontier}

theorem takings_iterateScript (ha : a.Upward) (limit : Nat)
    (hx : x.reached.InOrder .topological) :
    (∀ t ∈ x.reached.takings (iterateScript a limit x),
        t.Final (∃ result, (iterate a limit x).1 = some result ∧ result ≠ .ok .exhausted)) ∧
      (x.reached.takings (iterateScript a limit x)).Pairwise Taking.Precedes := by
  induction limit generalizing x with
  | zero => exact ⟨fun t ht => (nomatch ht), .nil⟩
  | succ limit ih =>
    rcases step_cases a x with ⟨h, y, flow, z, hi⟩ | ⟨hended, hscript⟩
    · obtain ⟨s, p, hh⟩ := Reached.Overtaken.of_pop hx hi.popped
      by_cases hflow : flow = .onward
      · subst hflow
        obtain ⟨hiterate, hreached, htakings⟩ := hi.takings_onward ha.cover limit
        -- From the pop on, it is overtaken and still.
        have hexpansion : y.reached.Throughout (Reached.Overtaken true h s p) (expandScript a h y) := by
          have hbody := throughout_expansion hrank ha hh hh.relax (Nat.le_refl _)
            fun hne => absurd (congrArg Prod.fst hi.expanded) hne
          have hnone : (Flow.again h .onward : List (Operation S P)) = [] := rfl
          rwa [hi.expanded, hnone, List.append_nil] at hbody
        have hz := hexpansion.last
        rw [← hreached] at hz
        have hrest := throughout_overtaken hrank ha limit hz
        have hall := hexpansion.append (by rwa [← hreached])
        obtain ⟨hfinal, hpairwise⟩ := ih hz.inOrder
        rw [hiterate, htakings]
        refine ⟨List.forall_mem_cons.2 ⟨⟨s, p, fun more hmore => ?_⟩, hfinal⟩,
          List.pairwise_cons.2 ⟨fun u hu => ?_, hpairwise⟩⟩
        · refine ⟨(hall more hmore).pair, fun hwaits => ?_⟩
          rw [(hall more hmore).rests rfl] at hwaits
          cases hwaits
        · obtain ⟨done, hdone, hpop⟩ := Reached.exists_of_mem_takings hu
          have hmore : expandScript a h y ++ done <+: expandScript a h y ++ iterateScript a limit z := by
            rw [hdone, ← List.append_assoc]
            exact List.prefix_append ..
          refine ⟨s, p, expandScript a h y ++ done, Reached.state?_of_get? hh.pair, hmore,
            hall _ hmore, ?_⟩
          rw [Reached.performAll_append, ← hreached]
          exact hpop
      · obtain ⟨hending, htakings⟩ := hi.takings_ended ha.cover hflow limit
        have hbody := throughout_expansion hrank ha hh.relax hh.relax (Nat.le_refl _)
          fun _ hstill => (nomatch hstill)
        rw [hi.expanded] at hbody
        rw [hending, htakings]
        refine ⟨List.forall_mem_singleton.2 ⟨s, p, fun more hmore => ⟨(hbody more hmore).pair,
          fun _ => ⟨Reached.takings_eq_nil (hi.pop_not_mem ha.cover), ?_⟩⟩⟩, List.pairwise_singleton ..⟩
        cases flow with
        | onward => exact absurd rfl hflow
        | halt => exact ⟨_, rfl, by simp⟩
        | abort e => exact ⟨_, rfl, by simp⟩
    · rw [(takings_iterateScript_eq_nil a hended hscript limit).2.2]
      exact ⟨fun t ht => (nomatch ht), .nil⟩

end Exploration

namespace Taking
variable {t u : Taking S P Frontier}

omit hrank in
theorem Precedes.rank_le (h : t.Precedes u) {s s' : S} (hs : t.state? = some s)
    (hs' : u.state? = some s') : rank s ≤ rank s' := by
  obtain ⟨s₀, p, more, hs₀, -, hovertaken, hpop⟩ := h
  obtain ⟨-, t', q, hu, hle⟩ := hovertaken.overtaken_of_pop hpop
  have hstate : u.state? = some t' := Reached.state?_of_get? hu.pair
  rw [hs, Option.some.injEq] at hs₀
  rw [hs', Option.some.injEq] at hstate
  rw [hs₀, hstate]
  exact hle

omit hrank in
/-- The two pairs are published together when the second is taken out, so they are in one
partition if they are of one location. -/
theorem Precedes.location_ne (h : t.Precedes u)
    (hsingle : t.after.Throughout (fun r => r.maxPartitionSize ≤ 1) t.rest) {s s' : S}
    (hs : t.state? = some s) (hs' : u.state? = some s') : location s ≠ location s' := by
  obtain ⟨s₀, p, more, hs₀, hmore, hovertaken, hpop⟩ := h
  have hsmall := hsingle more hmore
  rw [hs, Option.some.injEq] at hs₀
  subst hs₀
  generalize t.after.performAll more = r at hovertaken hpop hsmall
  have hr := hovertaken.inOrder.consistent
  rw [hr.maxPartitionSize_le_iff] at hsmall
  intro hloc
  have hfirst : t.handle ∈ r.handlesAt s :=
    hr.mem_handlesAt_iff.2 ⟨s, Reached.state?_of_get? hovertaken.pair, rfl⟩
  have hsecond : u.handle ∈ r.handlesAt s :=
    hr.mem_handlesAt_iff.2 ⟨s', (Reached.state?_of_pop hpop _).symm.trans hs', hloc.symm⟩
  have hlength : (r.handlesAt s).length ≤ 1 := by
    rw [Reached.handlesAt, ← hr.population_eq]
    exact hsmall (location s)
  obtain ⟨hne, -⟩ := hovertaken.overtaken_of_pop hpop
  refine hne rfl ?_
  generalize r.handlesAt s = handles at hfirst hsecond hlength
  rcases handles with _ | ⟨h, _ | ⟨h', others⟩⟩
  · cases hfirst
  · rw [List.mem_singleton.1 hfirst, List.mem_singleton.1 hsecond]
  · simp at hlength

end Taking

namespace Exploration
variable {x : Exploration ω S P Frontier}

/-- **By rank, nothing is expanded twice.** If ranks belong to locations and every successor is
of larger rank than what it is a successor of, then a run expands by ascending rank, and what
it expanded it leaves alone from then on: the pair stays published under its precision, and
does not go back into the frontier, unless the run is cut short while it is expanded. With one
state for each location, each location is expanded once. -/
theorem expanded_once_by_rank (ha : a.Upward)
    (hx : Reached.Evolves (.ofOrder .topological) x.reached) (limit : Nat) :
    ((x.reached.popped (runScript a limit x)).Pairwise fun s t => rank s ≤ rank t) ∧
      (∀ t ∈ x.reached.takings (runScript a limit x), t.Final
        (∃ result, (x.run a limit).1 = some result ∧
          ∀ o, result = .ok o → o.termination = .halted)) ∧
      (x.reached.Throughout (fun r => r.maxPartitionSize ≤ 1) (runScript a limit x) →
        ((x.reached.popped (runScript a limit x)).map location).Nodup) := by
  have hbegun : (x.start .total).publishSeeds.reached.InOrder .topological := by
    obtain ⟨ops, hops⟩ := hx
    have hbefore : x.reached.InOrder .topological := by
      rw [hops]
      exact (Reached.InOrder.stable _).performAll ops (.ofOrder _)
    rw [reached_publishSeeds, reached_start, ← performAll_drainScript]
    exact (Reached.InOrder.stable _).performAll _ hbefore
  obtain ⟨hfinal, hpairwise⟩ := takings_iterateScript hrank ha limit hbegun
  rw [← takings_runScript] at hfinal hpairwise
  refine ⟨?_, fun t ht => ?_, fun hsingle => ?_⟩
  · refine List.pairwise_filterMap.2 (hpairwise.imp ?_)
    intro t u h s hs s' hs'
    exact h.rank_le hs hs'
  · obtain ⟨s, p, hkept⟩ := hfinal t ht
    refine ⟨s, p, fun more hmore => ⟨(hkept more hmore).1, fun hwaits => ?_⟩⟩
    obtain ⟨hlast, result, hended, hcut⟩ := (hkept more hmore).2 hwaits
    refine ⟨hlast, _, by rw [(run_eq_iterate a limit x).1, hended]; rfl, fun o ho => ?_⟩
    cases result with
    | error e => cases ho
    | ok termination =>
      cases ho
      cases termination with
      | exhausted => exact absurd rfl hcut
      | halted => rfl
  · rw [List.Nodup, List.pairwise_map]
    refine List.pairwise_filterMap.2 (hpairwise.imp_of_mem fun ht _ h s hs s' hs' => ?_)
    exact h.location_ne (hsingle.of_mem_takings ht) hs hs'

end Exploration
end Reachability

/-! The demonstration without counting: nothing is below the bound, so the loop is left as soon
as it is entered. Of the two seeds the one further on waits until the other comes there. -/
namespace Reachability.Counter

def straight : Program :=
  ⟨Int64.minValue, none⟩

theorem straight_climbs {s t : Interval} (ht : t ∈ straight.successors s) :
    s.loc.number < t.loc.number := by
  unfold Program.successors at ht
  cases hl : s.loc with
  | start =>
    simp only [hl, List.mem_singleton] at ht
    rw [ht]
    decide
  | loop =>
    have hbound : ¬ s.lo < straight.bound := Int64.not_lt.2 (Int64.minValue_le s.lo)
    simp only [hl, if_neg hbound, List.nil_append, List.mem_ite_nil_right, List.mem_singleton] at ht
    rw [ht.2]
    exact Nat.lt_succ_self 1
  | exit =>
    simp only [hl] at ht
    cases ht
  | error =>
    simp only [hl] at ht
    cases ht

theorem straight_upward :
    (analysis straight true false : Analysis Unit Interval Unit Frontier).Upward where
  climbs := by
    intro s p w l hl x hx r w' t q action hadjust
    cases hl
    obtain ⟨u, hu, rfl⟩ := List.mem_map.1 hx
    cases hadjust
    exact straight_climbs hu
  merge := by
    intro s old p w new hloc hnew
    rw [Merge.joins_join Interval.domain hnew]
    split
    · rfl
    · exact hloc
  cover := rfl

def straightRun : State where
  trail :=
    { reached := (Reached.ofOrder .topological).performAll
        [.addInitial ⟨.loop, 3, 4⟩ (), .addInitial seed ()] }
  memory := ()

theorem straightRun_once :
    straightRun.reached.popped (Exploration.runScript (analysis straight true false) 9 straightRun) =
        [seed, ⟨.loop, 0, 4⟩, ⟨.exit, 0, 4⟩] ∧
      (straightRun.reached.popped
        (Exploration.runScript (analysis straight true false) 9 straightRun)).Pairwise
          (fun s t => s.loc.number ≤ t.loc.number) ∧
      ((straightRun.reached.popped
        (Exploration.runScript (analysis straight true false) 9 straightRun)).map
          Interval.loc).Nodup := by
  obtain ⟨hranks, -, hlocations⟩ := Exploration.expanded_once_by_rank
    (fun h => congrArg Location.number h) straight_upward (x := straightRun) ⟨_, rfl⟩ 9
  refine ⟨by decide +kernel, hranks, hlocations ?_⟩
  have hall : ∀ done ∈ (Exploration.runScript (analysis straight true false) 9 straightRun).inits,
      (straightRun.reached.performAll done).maxPartitionSize ≤ 1 := by decide +kernel
  exact fun done hdone => hall done ((List.mem_inits ..).2 hdone)

end Reachability.Counter
