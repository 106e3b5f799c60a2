import Mathlib.Data.List.Induction
import Reachability.Proofs.Counter.Interval
import Reachability.Proofs.Reached.Publication
import Reachability.Proofs.Reached.Replacing

/-! No pair rests with a precision that it was not popped with.

A pair waits from its publication on, and only a pop ends this. Whatever gives it another
precision puts it back into the frontier. So a pair that is at rest was popped since it was
published, and when it was popped last it had the precision that it has now (`Story`). Its state
is the one it was published with. What an operation does to the pair of one handle is said once,
in `Fate`, and a story is continued by it.

Publishing a state and a precision that equal those of a pair at the location leaves pairs and
frontier alone (`Accounted.known`), and so publishing twice is publishing once. A state of another
location is a pair of its own, even if it is equal. -/
namespace Reachability.Reached

open AbstractState (location)

variable {S P W : Type} [AbstractState S] [Waitlist W] [BEq S] [BEq P]

/-- What an operation that is no batch makes of a pair that is live afterwards. -/
inductive Fate (r : Reached S P W) (op : Operation S P) (h : Handle) : Prop where
  /-- It is published. -/
  | arrives (s : S) (p : P) (hop : op = .add s p) (isNew : r.arena.contains h = false)
      (handle : (r.add s p).1 = h) (entry : (r.perform op).2.arena.get? h = some ⟨s, p, true⟩)
  /-- It waits, maybe with another precision. -/
  | waits (s : S) (p : P) (state : r.state? h = some s)
      (entry : (r.perform op).2.arena.get? h = some ⟨s, p, true⟩)
  /-- It is popped. -/
  | popped (s : S) (p : P) (hop : op = .pop) (handle : r.pop.1 = some h)
      (pair : r.get? h = some (s, p)) (rests : (r.perform op).2.Rests h s p)
  /-- Nothing happens to it. -/
  | stays (same : (r.perform op).2.arena.get? h = r.arena.get? h)
      (unpopped : op = .pop → r.pop.1 ≠ some h)

/-- Between the operations before and those since, a pair is published under the handle, which
names its state ever since. -/
structure PublishedBetween (r : Reached S P W) (before since : List (Operation S P)) (s : S) (p : P)
    (h : Handle) : Prop where
  isNew : (r.performAll before).arena.contains h = false
  handle : ((r.performAll before).add s p).1 = h
  kept : Throughout (fun r => r.state? h = some s) ((r.performAll before).add s p).2 since

/-- Between the operations before and those since, the pair of the handle is popped with the
precision, for the last time. -/
structure PoppedBetween (r : Reached S P W) (before since : List (Operation S P)) (p : P)
    (h : Handle) : Prop where
  handle : (r.performAll before).pop.1 = some h
  precision : (r.performAll before).precision? h = some p
  latest : ∀ sofar, sofar ++ [.pop] <+: since →
    (r.performAll (before ++ .pop :: sofar)).pop.1 ≠ some h

/-- The handle was given out for the state in the course of the operations, and if its pair rests
in the end, it was popped since then, for the last time with the precision that it rests with. -/
def Story (r : Reached S P W) (ops : List (Operation S P)) (h : Handle) (s : S) : Prop :=
  ∃ before p since, ops = before ++ .add s p :: since ∧ r.PublishedBetween before since s p h ∧
    ∀ t q, (r.performAll ops).Rests h t q →
      ∃ meanwhile rest, since = meanwhile ++ .pop :: rest ∧
        r.PoppedBetween (before ++ .add s p :: meanwhile) rest q h

/-- What can be told of the pairs after a sequence of operations. -/
structure Accounted (r : Reached S P W) (ops : List (Operation S P)) : Prop where
  /-- Every live pair has its story, in which batches are taken apart. -/
  story : ∀ h s, (r.performAll ops).state? h = some s → r.Story (ops.flatMap Operation.parts) h s
  /-- From any moment on, a pair stays published with its state, unless it is removed. -/
  stays : ∀ before since, ops = before ++ since → ∀ h s, (r.performAll before).state? h = some s →
    h ∉ (r.performAll before).removals since → (r.performAll ops).state? h = some s
  /-- Publishing a pair that equals one of its location makes this one the latest, no more. -/
  known : ∀ h t q s p, (r.performAll ops).get? h = some (t, q) → location t = location s →
    (t == s) = true → (q == p) = true →
    (r.performAll ops).add s p = (h, {r.performAll ops with last := some h})
  again : ∀ s p, ((r.performAll ops).add s p).2.add s p = (r.performAll ops).add s p

/-! ### What an operation does to a pair -/

section
variable {r : Reached S P W} {op : Operation S P} {h : Handle}

theorem fate_add (r : Reached S P W) (s : S) (p : P) (h : Handle) : r.Fate (.add s p) h := by
  cases hfind : r.find? s with
  | none =>
    have hview : ∀ g, (r.perform (.add s p)).2.arena.get? g =
        if g = r.nextHandle s p then some ⟨s, p, true⟩ else r.arena.get? g := fun g => by
      rw [← get?_publish, ← add_of_find?_eq_none hfind]
      rfl
    by_cases hh : h = r.nextHandle s p
    · subst hh
      refine .arrives s p rfl ?_ (by rw [add_of_find?_eq_none hfind]; rfl) (by rw [hview, if_pos rfl])
      rw [Arena.contains_eq, get?_nextHandle]
      rfl
    · exact .stays (by rw [hview, if_neg hh]) fun hop => by cases hop
  | some g =>
    obtain ⟨-, t, ht, -⟩ := find?_eq_some hfind
    obtain ⟨⟨_, q, waiting⟩, he, rfl⟩ := state?_eq_some_iff.1 ht
    have hview := get?_add_of_find?_eq_some hfind he p h
    by_cases hh : h = g
    · subst hh
      rw [if_pos rfl] at hview
      split at hview
      · exact .waits _ p ht hview
      · exact .stays (hview.trans he.symm) fun hop => by cases hop
    · rw [if_neg hh] at hview
      exact .stays hview fun hop => by cases hop

theorem fate_of_removeHandles {gone : List Handle} (hop : op ≠ .pop)
    (hgone : (r.perform op).2 = gone.foldl removeHandle r)
    (hlive : (r.perform op).2.arena.contains h = true) : r.Fate op h := by
  have hview := get?_removeHandles gone r h
  rw [hgone, Arena.contains_eq, hview] at hlive
  split at hlive
  · cases hlive
  · rename_i hkept
    exact .stays (by rw [hgone, hview, if_neg hkept]) fun hpop => absurd hpop hop

/-- What raises the flag of a pair, and no other. -/
theorem fate_of_enqueue (r' : Reached S P W) (g : Handle) (hop : op ≠ .pop)
    (hraised : (r.perform op).2 = (r'.enqueue g).2) (hstate : r'.state? g = r.state? g)
    (hothers : ∀ k, k ≠ g → r'.arena.get? k = r.arena.get? k)
    (hlive : (r.perform op).2.arena.contains h = true) : r.Fate op h := by
  have hview := get?_enqueue r' g h
  by_cases hh : h = g
  · subst hh
    rw [if_pos rfl] at hview
    rw [hraised, Arena.contains_eq, hview, Option.isSome_map] at hlive
    obtain ⟨⟨s, p, waiting⟩, he⟩ := Option.isSome_iff_exists.1 hlive
    have hs : r'.state? h = some s := state?_eq_some_iff.2 ⟨_, he, rfl⟩
    refine .waits s p (hstate.symm.trans hs) ?_
    rw [hraised, hview, he]
    rfl
  · refine .stays ?_ fun hpop => absurd hpop hop
    rw [hraised, hview, if_neg hh, hothers h hh]

theorem fate_pop (r : Reached S P W) (h : Handle) : r.Fate .pop h := by
  cases hpop : r.pop with
  | mk popped r' =>
    have hafter : (r.perform (.pop : Operation S P)).2 = r' := congrArg Prod.snd hpop
    cases popped with
    | none =>
      refine .stays (by rw [hafter, arena_of_pop_eq_none hpop]) fun _ he => ?_
      rw [hpop] at he
      cases he
    | some g =>
      obtain ⟨⟨s, p, waiting⟩, he, hview⟩ := pop_eq_some hpop
      by_cases hh : h = g
      · subst hh
        refine .popped s p rfl (by rw [hpop]) (get?_eq_some_iff.2 ⟨waiting, he⟩) ?_
        rw [Rests, hafter, hview, if_pos rfl]
      · refine .stays (by rw [hafter, hview, if_neg hh]) fun _ he => ?_
        rw [hpop] at he
        exact hh (Option.some.inj he).symm

theorem fate_perform (hsingle : op.parts = [op])
    (hlive : (r.perform op).2.arena.contains h = true) : r.Fate op h := by
  cases op with
  | add s p => exact r.fate_add s p h
  | removeHandle g => exact fate_of_removeHandles (by simp) (r.perform_removeHandle g) hlive
  | remove s => exact fate_of_removeHandles (by simp) (r.perform_remove s) hlive
  | update gone fresh => cases Operation.not_mem_parts_update (hsingle ▸ List.mem_singleton_self _)
  | updatePrecision g p =>
    by_cases hg : r.arena.contains g = true
    · refine fate_of_enqueue (r.setPrecision g p) g (by simp) ?_
        (state?_setPrecision r g p g) (fun k hk => ?_) hlive
      · simp only [perform, updatePrecision, if_pos hg]
      · rw [get?_setPrecision, if_neg hk]
    · refine .stays ?_ (by simp)
      simp only [perform, updatePrecision, if_neg hg]
  | clear =>
    have hdead : (r.perform .clear).2.arena.contains h = false := contains_clear r h
    rw [hdead] at hlive
    cases hlive
  | pop => exact r.fate_pop h
  | enqueue g => exact fate_of_enqueue r g (by simp) rfl rfl (fun _ _ => rfl) hlive
  | _ => exact .stays rfl (by simp)

end

/-! ### Stories -/

namespace Story
variable {r : Reached S P W} {ops : List (Operation S P)} {op : Operation S P} {h : Handle} {s : S}

/-- The story of a pair begins with its publication. -/
theorem begins {p : P} (isNew : (r.performAll ops).arena.contains h = false)
    (handle : ((r.performAll ops).add s p).1 = h)
    (entry : ((r.performAll ops).add s p).2.arena.get? h = some ⟨s, p, true⟩) :
    r.Story (ops ++ [.add s p]) h s := by
  refine ⟨ops, p, [], rfl, ⟨isNew, handle, .nil (state?_eq_some_iff.2 ⟨_, entry, rfl⟩)⟩,
    fun t q hrests => ?_⟩
  rw [performAll_append] at hrests
  have hsame := entry.symm.trans hrests
  cases hsame

/-- The story goes on as long as the handle names the state. -/
theorem continues (hstory : r.Story ops h s)
    (hstate : (r.performAll (ops ++ [op])).state? h = some s)
    (hrested : ∀ t q, (r.performAll (ops ++ [op])).Rests h t q →
      op = .pop ∧ (r.performAll ops).pop.1 = some h ∧ (r.performAll ops).precision? h = some q ∨
      (r.performAll ops).Rests h t q ∧ (op = .pop → (r.performAll ops).pop.1 ≠ some h)) :
    r.Story (ops ++ [op]) h s := by
  obtain ⟨before, p, since, rfl, hpublished, hpopped⟩ := hstory
  have hmoment : r.performAll (before ++ .add s p :: since) =
      ((r.performAll before).add s p).2.performAll since := by
    rw [performAll_append]
    rfl
  refine ⟨before, p, since ++ [op], by rw [List.append_assoc]; rfl,
    ⟨hpublished.isNew, hpublished.handle, hpublished.kept.append (.singleton hpublished.kept.last ?_)⟩,
    fun t q hrests => ?_⟩
  · rwa [performAll_append, hmoment] at hstate
  · rcases hrested t q hrests with ⟨rfl, hhandle, hprecision⟩ | ⟨hrests, hunpopped⟩
    · exact ⟨since, [], rfl, hhandle, hprecision, fun sofar hsofar => by simp at hsofar⟩
    · obtain ⟨meanwhile, rest, rfl, hlast⟩ := hpopped t q hrests
      refine ⟨meanwhile, rest ++ [op], by rw [List.append_assoc]; rfl, hlast.handle, hlast.precision,
        fun sofar hsofar => ?_⟩
      rcases List.prefix_concat_iff.1 hsofar with hnow | hearlier
      · -- The pop would be the operation that is added.
        obtain ⟨rfl, hop⟩ := List.append_inj' hnow rfl
        simp only [List.append_assoc, List.cons_append] at hunpopped ⊢
        exact hunpopped (List.singleton_inj.1 hop).symm
      · exact hlast.latest sofar hearlier

/-- Each operation begins a story or continues one. -/
theorem step (hsingle : op.parts = [op])
    (hstories : ∀ h s, (r.performAll ops).state? h = some s → r.Story ops h s)
    (hstate : (r.performAll (ops ++ [op])).state? h = some s) : r.Story (ops ++ [op]) h s := by
  have hafter : r.performAll (ops ++ [op]) = ((r.performAll ops).perform op).2 := by
    rw [performAll_append]
    rfl
  have hlive : ((r.performAll ops).perform op).2.arena.contains h = true :=
    contains_iff_state?.2 ⟨s, hafter ▸ hstate⟩
  rw [hafter] at hstate
  cases fate_perform hsingle hlive with
  | arrives t p hop isNew handle entry =>
    subst hop
    rw [state?, entry] at hstate
    obtain rfl : t = s := Option.some.inj hstate
    exact begins isNew handle entry
  | waits t p state entry =>
    rw [state?, entry] at hstate
    obtain rfl : t = s := Option.some.inj hstate
    refine (hstories h t state).continues (by rw [hafter, state?, entry]; rfl) fun u q hrests => ?_
    rw [hafter, Rests, entry] at hrests
    cases hrests
  | popped t p hop handle pair rests =>
    have hrests : ((r.performAll ops).perform op).2.arena.get? h = some ⟨t, p, false⟩ := rests
    rw [state?, hrests] at hstate
    obtain rfl : t = s := Option.some.inj hstate
    refine (hstories h t (state?_of_get? pair)).continues (by rw [hafter, state?, hrests]; rfl)
      fun u q hother => .inl ⟨hop, handle, ?_⟩
    obtain ⟨waiting, he⟩ := get?_eq_some_iff.1 pair
    rw [hafter, Rests, hrests] at hother
    cases hother
    rw [precision?, he]
    rfl
  | stays same unpopped =>
    have hbefore : (r.performAll ops).state? h = some s := by rwa [state?, ← same]
    refine (hstories h s hbefore).continues (by rw [hafter, hstate]) fun t q hrests => .inr ⟨?_, unpopped⟩
    rw [hafter, Rests, same] at hrests
    exact hrests

theorem performAll (hempty : ∀ h, r.arena.get? h = none) (hsingle : ∀ op ∈ ops, op.parts = [op])
    (hstate : (r.performAll ops).state? h = some s) : r.Story ops h s := by
  induction ops using List.reverseRecOn generalizing h s with
  | nil =>
    obtain ⟨e, he, -⟩ := state?_eq_some_iff.1 hstate
    have hnone : r.arena.get? h = some e := he
    rw [hempty] at hnone
    cases hnone
  | append_singleton ops op ih =>
    have hops : ∀ op ∈ ops, op.parts = [op] := fun _ hmem => hsingle _ (List.mem_append_left _ hmem)
    exact step (hsingle op (List.mem_append_right _ (List.mem_singleton_self op)))
      (fun _ _ => ih hops) hstate

end Story

/-! ### Publishing what is there -/

/-- Equal states at one location are the same pair's. -/
structure Deduplicated (r : Reached S P Frontier) : Prop where
  consistent : r.Consistent
  apart : r.Apart fun s t => location s = location t ∧ (s == t) = true

namespace Deduplicated
variable {r : Reached S P Frontier}

section
omit [BEq P]

theorem ofOrder (o : TraversalOrder) : (ofOrder o : Reached S P Frontier).Deduplicated :=
  ⟨.ofOrder o, .of_get?_eq_none (Consistent.get?_ofOrder o)⟩

theorem publish [PartialEquivBEq S] (hr : r.Deduplicated) {s : S} (hnew : r.find? s = none) (p : P) :
    (r.publish s p).2.Deduplicated := by
  have hdiffers : ∀ t ∈ r.states, ¬ (location t = location s ∧ (t == s) = true) := by
    rintro t ht ⟨hl, hsame⟩
    obtain ⟨h, hh⟩ := mem_states_iff.1 ht
    rw [find?_eq_none hnew (hr.consistent.mem_handlesAt_iff.2 ⟨t, hh, hl⟩) hh] at hsame
    cases hsame
  exact ⟨hr.consistent.publish s p, hr.apart.publish (fun t ht =>
    ⟨fun hst => hdiffers t ht ⟨hst.1.symm, PartialEquivBEq.symm hst.2⟩, hdiffers t ht⟩) p⟩

theorem stable [PartialEquivBEq S] : Stable (Deduplicated (S := S) (P := P)) where
  seeds _ hr := ⟨hr.consistent.congr rfl rfl rfl, hr.apart⟩
  latest hr _ := ⟨hr.consistent.congr rfl rfl rfl, hr.apart⟩
  enqueue h hr := ⟨hr.consistent.enqueue h, hr.apart.enqueue h⟩
  pop hr e := ⟨hr.consistent.of_pop e, hr.apart.pop e⟩
  setPrecision {r} h p hr := ⟨hr.consistent.setPrecision h p,
    hr.apart.of_state? fun g s hs => by rwa [state?_setPrecision] at hs⟩
  publish p hr hnew := hr.publish hnew p
  removeHandle h hr := ⟨hr.consistent.removeHandle h, hr.apart.removeHandles [h]⟩
  clear {r} _ := ⟨.clear r, .of_get?_eq_none (Arena.get?_clear r.arena)⟩

/-- A state that is published is found under its handle. -/
theorem find?_eq [EquivBEq S] (hr : r.Deduplicated) {h : Handle} {s t : S} (ht : r.state? h = some t)
    (hl : location t = location s) (hsame : (t == s) = true) : r.find? s = some h := by
  have hmem : h ∈ r.handlesAt s := hr.consistent.mem_handlesAt_iff.2 ⟨t, ht, hl⟩
  cases hfind : r.find? s with
  | none =>
    rw [find?_eq_none hfind hmem ht] at hsame
    cases hsame
  | some g =>
    obtain ⟨hlisted, u, hu, hequal⟩ := find?_eq_some hfind
    have hlu := hr.consistent.location_of_mem_handlesAt hlisted hu
    rw [hr.apart g h u t hu ht ⟨hlu.trans hl.symm, BEq.trans hequal (BEq.symm hsame)⟩]

end

theorem add_eq [EquivBEq S] (hr : r.Deduplicated) {h : Handle} {s t : S} {p q : P}
    (hpair : r.get? h = some (t, q)) (hl : location t = location s) (hstate : (t == s) = true)
    (hprecision : (q == p) = true) : r.add s p = (h, {r with last := some h}) := by
  obtain ⟨waiting, he⟩ := get?_eq_some_iff.1 hpair
  have hq : r.precision? h = some q := by rw [precision?, he]; rfl
  simp only [add, hr.find?_eq (state?_of_get? hpair) hl hstate, hq, bne, hprecision]
  rfl

/-- What was published, or what equals it, is at its location. -/
theorem location_add (hr : r.Deduplicated) {s t : S} {p : P}
    (ht : (r.add s p).2.state? (r.add s p).1 = some t) : location t = location s := by
  cases hfind : r.find? s with
  | none =>
    rw [add_of_find?_eq_none hfind] at ht
    obtain ⟨e, he, rfl⟩ := state?_eq_some_iff.1 ht
    rw [get?_publish] at he
    cases (if_pos rfl).symm.trans he
    rfl
  | some h =>
    obtain ⟨hmem, old, hold, -⟩ := find?_eq_some hfind
    have hhandle : (r.add s p).1 = h := by simp only [add, hfind]
    rw [hhandle, state?_add_of_eq_some hold, Option.some.injEq] at ht
    exact ht ▸ hr.consistent.location_of_mem_handlesAt hmem hold

end Deduplicated

/-- **Whatever operations are performed on an empty reached set**, its live pairs keep the state
they were published with, those at rest keep the precision they were popped with last, and
publishing what is there changes neither pairs nor frontier. -/
theorem accounted_performAll [EquivBEq S] [ReflBEq P] (o : TraversalOrder)
    (ops : List (Operation S P)) : (ofOrder o : Reached S P Frontier).Accounted ops where
  story h s hs := by
    refine Story.performAll (Consistent.get?_ofOrder o) (Operation.single_parts ops) ?_
    rwa [performAll_flatMap_parts]
  stays before since hops h s hs hkept := by
    rw [hops, performAll_append]
    exact state?_performAll hs hkept
  known h t q s p hpair hl hstate hprecision :=
    (Deduplicated.stable.performAll ops (.ofOrder o)).add_eq hpair hl hstate hprecision
  again s p := by
    have hr := Deduplicated.stable.performAll ops (.ofOrder o)
    obtain ⟨hlast, t, q, hpair, hstate, hprecision⟩ :=
      ((ofOrder o : Reached S P Frontier).performAll ops).exists_pair_add s p
    have hl := hr.location_add (state?_of_get? hpair)
    rw [(Deduplicated.stable.add s p hr).add_eq hpair hl hstate hprecision, ← hlast]

end Reachability.Reached

/-! What is seen at a place. Sightings are equal if the same is seen, at whatever places. -/
namespace Reachability

structure Sighting where
  place : Nat
  value : Nat

namespace Sighting

instance : BEq Sighting where
  beq s t := s.value == t.value

instance : EquivBEq Sighting where
  rfl {s} := BEq.rfl (a := s.value)
  symm {s t} := BEq.symm (a := s.value) (b := t.value)
  trans {s t u} := BEq.trans (a := s.value) (b := t.value) (c := u.value)

instance : AbstractState Sighting where
  Location := Nat
  location := place

/-- An equal state of another location is looked for at that location only, and so is published
beside the first. -/
theorem elsewhere_published :
    ¬ ∀ (o : TraversalOrder) (ops : List (Operation Sighting Unit)) (h : Handle) (s t : Sighting)
      (p q : Unit), let r := (Reached.ofOrder o : Reached Sighting Unit Frontier).performAll ops
      r.get? h = some (t, q) → (t == s) = true → (q == p) = true →
        (r.add s p).2.entries = r.entries ∧ (r.add s p).2.waiting = r.waiting := by
  intro hidle
  obtain ⟨hentries, -⟩ := hidle .breadthFirst [.add ⟨0, 5⟩ ()] ⟨0, 0⟩ ⟨1, 5⟩ ⟨0, 5⟩ () () rfl rfl rfl
  have hlength := congrArg List.length hentries
  revert hlength
  decide +kernel

end Sighting
end Reachability

/-! Intervals of the demonstration, under precisions that are numbers. Both pairs are popped, the
first one gets another precision and is popped again, and the second one rests as it was. -/
namespace Reachability.Counter

def reconsidered : List (Operation Interval Nat) :=
  [.add ⟨.loop, 0, 0⟩ 1, .add ⟨.exit, 0, 0⟩ 1, .pop, .pop, .updatePrecision ⟨0, 0⟩ 2, .pop]

theorem reconsidered_accounted :
    (Reached.ofOrder .depthFirst : Reached Interval Nat Frontier).Accounted reconsidered ∧
      ((Reached.ofOrder .depthFirst : Reached Interval Nat Frontier).performAll
        reconsidered).isWaiting ⟨0, 0⟩ = false ∧
      ((Reached.ofOrder .depthFirst : Reached Interval Nat Frontier).performAll
        reconsidered).get? ⟨0, 0⟩ = some (⟨.loop, 0, 0⟩, 2) :=
  ⟨Reached.accounted_performAll .depthFirst reconsidered, by decide +kernel, by decide +kernel⟩

end Reachability.Counter
