import Mathlib.Algebra.GroupWithZero.Nat
import Mathlib.Data.List.Dedup
import Reachability.Proofs.Arena.Listing
import Reachability.Proofs.Counter.Interval
import Reachability.Proofs.Reached.Distinct

/-! Whatever is done to a reached set, its parts agree on what is published.

Consistency is what explorations depend on. Besides, the arena counts its pairs, no state
is published twice, and the handles of the first and of the latest pair are forgotten when
the pair is removed (`Kept`). Each operation keeps all of this, and from it follows what a
user can see (`Intact`): sizes are numbers of pairs, partitions are locations, and the
waitlist is the set of the pairs that wait. -/
namespace Reachability.Reached

open AbstractState (Location location)

variable {S P : Type} [AbstractState S]

/-- The first and the latest handle, while they are kept, name published pairs. -/
def EndsLive (r : Reached S P Frontier) : Prop :=
  ∀ h, r.first = some h ∨ r.last = some h → r.arena.contains h = true

/-- What every operation keeps. -/
structure Kept [BEq S] (r : Reached S P Frontier) : Prop where
  consistent : r.Consistent
  counted : r.arena.Counted
  distinct : r.Distinct
  ends : r.EndsLive

/-! ### What counts as live -/

theorem contains_iff_state? {W : Type} {r : Reached S P W} {h : Handle} :
    r.arena.contains h = true ↔ ∃ s, r.state? h = some s := by
  rw [Arena.contains_eq, state?, Option.isSome_iff_exists]
  cases r.arena.get? h <;> simp

theorem EndsLive.congr {r r' : Reached S P Frontier} (hr : r.EndsLive) (hfirst : r'.first = r.first)
    (hlast : r'.last = r.last) (hview : ∀ h s, r.state? h = some s → ∃ t, r'.state? h = some t) :
    r'.EndsLive := by
  intro h hh
  rw [hfirst, hlast] at hh
  obtain ⟨s, hs⟩ := contains_iff_state?.1 (hr h hh)
  exact contains_iff_state?.2 (hview h s hs)

/-! ### One operation after the other -/

theorem counted_enqueue {r : Reached S P Frontier} (hr : r.arena.Counted) (h : Handle) :
    (r.enqueue h).2.arena.Counted := by
  unfold enqueue
  split
  · exact hr
  · split
    · exact hr
    · exact hr.modify h _

theorem ends_enqueue {W : Type} [Waitlist W] (r : Reached S P W) (h : Handle) :
    (r.enqueue h).2.first = r.first ∧ (r.enqueue h).2.last = r.last := by
  unfold enqueue
  split
  · exact ⟨rfl, rfl⟩
  · split <;> exact ⟨rfl, rfl⟩

theorem ends_of_pop {W : Type} [Waitlist W] {r r' : Reached S P W} {popped : Option Handle}
    (e : r.pop = (popped, r')) : r'.first = r.first ∧ r'.last = r.last := by
  unfold pop at e
  split at e <;> cases e <;> exact ⟨rfl, rfl⟩

theorem counted_of_pop {r r' : Reached S P Frontier} {popped : Option Handle}
    (hr : r.arena.Counted) (e : r.pop = (popped, r')) : r'.arena.Counted := by
  unfold pop at e
  split at e <;> cases e
  · exact hr.modify _ _
  · exact hr

theorem counted_publish {r : Reached S P Frontier} (hr : r.arena.Counted) (s : S) (p : P) :
    (r.publish s p).2.arena.Counted := by
  refine counted_enqueue (r := {r with
    arena := (r.arena.add ⟨s, p, false⟩).2
    partitions := r.partitions.enter (location s) (r.arena.add ⟨s, p, false⟩).1}) ?_ _
  exact hr.add _

theorem ends_publish {W : Type} [Waitlist W] (r : Reached S P W) (s : S) (p : P) :
    (r.publish s p).2.first = (r.first <|> some (r.nextHandle s p)) ∧
      (r.publish s p).2.last = some (r.nextHandle s p) := by
  refine ⟨?_, rfl⟩
  simp only [publish, nextHandle, (ends_enqueue _ _).1]

/-- An end that is kept was one before, and is not the pair that was removed. -/
theorem ends_of_removeHandle {r : Reached S P Frontier} {g h : Handle}
    (hg : (r.removeHandle h).first = some g ∨ (r.removeHandle h).last = some g) :
    (r.first = some g ∨ r.last = some g) ∧ (g = h → r.state? h = none) := by
  unfold removeHandle removeHandle? at hg
  cases hrem : r.arena.remove? h with
  | none =>
    rw [hrem] at hg
    exact ⟨hg, fun _ => by rw [state?, Arena.remove?_eq_none_iff.1 hrem]; rfl⟩
  | some removed =>
    simp only [hrem] at hg
    rcases hg with hg | hg
    · split at hg
      · cases hg
      · rename_i hne
        exact ⟨.inl hg, fun hgh => absurd (hgh ▸ hg) hne⟩
    · split at hg
      · cases hg
      · rename_i hne
        exact ⟨.inr hg, fun hgh => absurd (hgh ▸ hg) hne⟩

namespace Kept
variable [BEq S] {r : Reached S P Frontier}

theorem ofOrder (o : TraversalOrder) : (ofOrder o : Reached S P Frontier).Kept :=
  ⟨.ofOrder o, Arena.counted_empty, .of_get?_eq_none (Consistent.get?_ofOrder o),
    fun h hh => by rcases hh with hh | hh <;> cases hh⟩

theorem clear (r : Reached S P Frontier) : r.clear.Kept :=
  ⟨.clear r, Arena.counted_clear r.arena, .of_get?_eq_none (Arena.get?_clear r.arena),
    fun h hh => by rcases hh with hh | hh <;> cases hh⟩

/-- Any published pair may become the latest. -/
theorem withLast (hr : r.Kept) {h : Handle} {s : S} (hs : r.state? h = some s) :
    {r with last := some h}.Kept := by
  refine ⟨hr.consistent.congr rfl rfl rfl, hr.counted, hr.distinct, fun g hg => ?_⟩
  rcases hg with hg | hg
  · exact hr.ends g (.inl hg)
  · cases hg
    exact contains_iff_state?.2 ⟨s, hs⟩

theorem publish [PartialEquivBEq S]
    (hlocation : ∀ s t : S, (s == t) = true → location s = location t) (hr : r.Kept) {s : S}
    (hnew : r.find? s = none) (p : P) : (r.publish s p).2.Kept := by
  refine ⟨hr.consistent.publish s p, counted_publish hr.counted s p,
    hr.distinct.publish hlocation hr.consistent hnew p, fun h hh => ?_⟩
  rw [(ends_publish r s p).1, (ends_publish r s p).2] at hh
  rw [Arena.contains_eq, get?_publish]
  by_cases hlatest : h = r.nextHandle s p
  · rw [if_pos hlatest]
    rfl
  · have hfirst : r.first = some h := by
      cases hfirst : r.first with
      | none =>
        rw [hfirst] at hh
        exact (hlatest (Option.some.inj (hh.elim id id)).symm).elim
      | some g =>
        rw [hfirst] at hh
        exact hh.resolve_right fun e => hlatest (Option.some.inj e).symm
    rw [if_neg hlatest, ← Arena.contains_eq]
    exact hr.ends h (.inl hfirst)

theorem removeHandle (hr : r.Kept) (h : Handle) : (r.removeHandle h).Kept := by
  have hkept : ∀ g s, (r.removeHandle h).state? g = some s → r.state? g = some s := fun g s hs => by
    rw [state?_removeHandle] at hs
    split at hs
    · cases hs
    · exact hs
  refine ⟨hr.consistent.removeHandle h, ?_, Apart.of_state? hr.distinct hkept, fun g hg => ?_⟩
  · unfold Reached.removeHandle removeHandle?
    cases hrem : r.arena.remove? h with
    | none => exact hr.counted
    | some removed => exact hr.counted.remove hrem
  · obtain ⟨hend, hother⟩ := ends_of_removeHandle hg
    obtain ⟨s, hs⟩ := contains_iff_state?.1 (hr.ends g hend)
    have hne : g ≠ h := fun hgh => by
      rw [← hgh] at hother
      rw [hother rfl] at hs
      cases hs
    exact contains_iff_state?.2 ⟨s, by rw [state?_removeHandle, if_neg hne, hs]⟩

theorem stable [PartialEquivBEq S]
    (hlocation : ∀ s t : S, (s == t) = true → location s = location t) :
    Stable (Kept (S := S) (P := P)) where
  seeds _ hr := ⟨hr.consistent.congr rfl rfl rfl, hr.counted, hr.distinct, hr.ends⟩
  latest hr hs := hr.withLast hs
  enqueue {r} h hr :=
    ⟨hr.consistent.enqueue h, counted_enqueue hr.counted h, Apart.enqueue hr.distinct h,
      hr.ends.congr (ends_enqueue r h).1 (ends_enqueue r h).2 fun g s hs =>
        ⟨s, (state?_enqueue r h g).trans hs⟩⟩
  pop hr e :=
    ⟨hr.consistent.of_pop e, counted_of_pop hr.counted e, Apart.pop hr.distinct e,
      hr.ends.congr (ends_of_pop e).1 (ends_of_pop e).2 fun g s hs =>
        ⟨s, (state?_of_pop e g).trans hs⟩⟩
  setPrecision {r} h p hr :=
    ⟨hr.consistent.setPrecision h p, hr.counted.modify h _,
      Apart.of_state? hr.distinct fun g s hs => by rwa [state?_setPrecision] at hs,
      hr.ends.congr rfl rfl fun g s hs => ⟨s, (state?_setPrecision r h p g).trans hs⟩⟩
  publish p hr hnew := hr.publish hlocation hnew p
  removeHandle h hr := hr.removeHandle h
  clear _ := clear _

end Kept

/-! ### What a user can see -/

/-- The parts of a reached set agree, and each counts every published pair once. -/
structure Intact [BEq S] (r : Reached S P Frontier) : Prop where
  /-- The partition index lists every published pair, at the location of its state. -/
  located : ∀ l h, h ∈ r.partitions.handles l ↔ ∃ s, r.state? h = some s ∧ location s = l
  /-- It lists each once in all, and nothing else. -/
  once : r.partitions.listed.Nodup
  listed : ∀ h, h ∈ r.partitions.listed ↔ r.arena.contains h = true
  /-- No location has two partitions, and no partition is empty. -/
  partitions : r.partitions.Intact
  size : r.size = (r.partitions.groups.map fun group => group.2.length).sum
  partitionCount : r.partitionCount = (r.states.map location).dedup.length
  /-- The waitlist holds each pair that waits, once, and nothing else. -/
  waitsOnce : r.waiting.Nodup
  waits : ∀ h, h ∈ r.waiting ↔ r.isWaiting h = true
  waitingLive : ∀ h ∈ r.waiting, r.arena.contains h = true
  waitlistSize : r.waitlistSize = (r.entries.filter fun entry => entry.2.waiting).length
  distinct : ∀ g h s t, r.state? g = some s → r.state? h = some t → (s == t) = true → g = h
  firstLive : ∀ h, r.first = some h → r.arena.contains h = true
  lastLive : ∀ h, r.last = some h → r.arena.contains h = true

section Sizes
variable {r : Reached S P Frontier}

theorem Consistent.located (hr : r.Consistent) (l : Location S) (h : Handle) :
    h ∈ r.partitions.handles l ↔ ∃ s, r.state? h = some s ∧ location s = l := by
  simp only [hr.indexed, state?_eq_some_iff]
  constructor
  · rintro ⟨e, he, hl⟩
    exact ⟨e.state, ⟨e, he, rfl⟩, hl⟩
  · rintro ⟨_, ⟨e, he, rfl⟩, hl⟩
    exact ⟨e, he, hl⟩

theorem Consistent.mem_listed_iff (hr : r.Consistent) (h : Handle) :
    h ∈ r.partitions.listed ↔ r.arena.contains h = true := by
  simp only [hr.partitions.mem_listed_iff, hr.located, contains_iff_state?]
  constructor
  · rintro ⟨l, s, hs, -⟩
    exact ⟨s, hs⟩
  · rintro ⟨s, hs⟩
    exact ⟨location s, s, hs, rfl⟩

theorem Consistent.nodup_listed (hr : r.Consistent) : r.partitions.listed.Nodup := by
  refine hr.partitions.nodup_listed hr.unrepeated fun h k l hk hl => ?_
  obtain ⟨s, hs, rfl⟩ := (hr.located k h).1 hk
  obtain ⟨t, ht, rfl⟩ := (hr.located l h).1 hl
  rw [hs, Option.some.injEq] at ht
  rw [ht]

/-- The index and the arena list the same handles, so they are equally long. -/
theorem Consistent.length_listed (hr : r.Consistent) (hcounted : r.arena.Counted) :
    r.size = r.partitions.listed.length := by
  have hperm : r.partitions.listed.Perm (r.arena.toList.map Prod.fst) :=
    (List.perm_ext_iff_of_nodup hr.nodup_listed (Arena.nodup_handles r.arena)).2 fun h => by
      rw [hr.mem_listed_iff, Arena.mem_handles_iff]
  rw [hperm.length_eq, List.length_map]
  exact hcounted

theorem Consistent.partitionCount_eq (hr : r.Consistent) :
    r.partitionCount = (r.states.map location).dedup.length := by
  have hperm : (r.partitions.groups.map Prod.fst).Perm (r.states.map location).dedup := by
    refine (List.perm_ext_iff_of_nodup hr.partitions.nodup (List.nodup_dedup _)).2 fun l => ?_
    simp only [hr.partitions.mem_locations_iff, hr.located, List.mem_dedup, List.mem_map,
      mem_states_iff]
    constructor
    · rintro ⟨h, s, hs, hl⟩
      exact ⟨s, ⟨h, hs⟩, hl⟩
    · rintro ⟨s, ⟨h, hs⟩, hl⟩
      exact ⟨h, s, hs, hl⟩
  rw [← hperm.length_eq, List.length_map]
  rfl

theorem Consistent.mem_waiting_iff (hr : r.Consistent) (h : Handle) :
    h ∈ r.waiting ↔ r.isWaiting h = true := by
  refine (hr.waits h).trans ?_
  unfold isWaiting
  cases r.arena.get? h <;> simp

theorem Consistent.waitlistSize_eq (hr : r.Consistent) :
    r.waitlistSize = (r.entries.filter fun entry => entry.2.waiting).length := by
  have hnodup : ((r.entries.filter fun entry => entry.2.waiting).map Prod.fst).Nodup :=
    (Arena.nodup_handles r.arena).sublist (List.filter_sublist.map _)
  have hperm : r.waiting.Perm ((r.entries.filter fun entry => entry.2.waiting).map Prod.fst) := by
    refine (List.perm_ext_iff_of_nodup hr.queued hnodup).2 fun h => (hr.waits h).trans ?_
    simp only [List.mem_map, List.mem_filter, entries, Prod.exists, Arena.mem_toList_iff]
    constructor
    · rintro ⟨e, he, hw⟩
      exact ⟨h, e, ⟨he, hw⟩, rfl⟩
    · rintro ⟨g, e, ⟨he, hw⟩, rfl⟩
      exact ⟨e, he, hw⟩
  rw [← List.length_map Prod.fst, ← hperm.length_eq]
  exact (Frontier.length_toList r.waitlist).symm

end Sizes

theorem Kept.intact [BEq S] {r : Reached S P Frontier} (hr : r.Kept) : r.Intact where
  located := hr.consistent.located
  once := hr.consistent.nodup_listed
  listed := hr.consistent.mem_listed_iff
  partitions := hr.consistent.partitions
  size := by
    rw [hr.consistent.length_listed hr.counted, Partitions.listed, List.length_flatMap]
  partitionCount := hr.consistent.partitionCount_eq
  waitsOnce := hr.consistent.queued
  waits := hr.consistent.mem_waiting_iff
  waitingLive _ hmem := hr.consistent.contains_of_mem_toList hmem
  waitlistSize := hr.consistent.waitlistSize_eq
  distinct := hr.distinct
  firstLive h hfirst := hr.ends h (.inl hfirst)
  lastLive h hlast := hr.ends h (.inr hlast)

/-- **Whatever operations are performed on an empty reached set**, with handles that are
live, out of date or made up, its parts agree. -/
theorem intact_performAll [BEq S] [BEq P] [EquivBEq S]
    (hlocation : ∀ s t : S, (s == t) = true → location s = location t) (o : TraversalOrder)
    (ops : List (Operation S P)) : ((ofOrder o : Reached S P Frontier).performAll ops).Intact :=
  ((Kept.stable hlocation).performAll ops (.ofOrder o)).intact

end Reachability.Reached

/-! Intervals of the demonstration. The cell of the first pair is used again, and then the
handle that was given out for it is put into the frontier and removed. -/
namespace Reachability.Counter

def reused : List (Operation Interval Unit) :=
  [.add ⟨.loop, 0, 0⟩ (), .add ⟨.exit, 0, 0⟩ (), .removeHandle ⟨0, 0⟩, .add ⟨.loop, 1, 1⟩ (),
    .pop, .enqueue ⟨0, 0⟩, .removeHandle ⟨0, 0⟩]

theorem reused_intact :
    ((Reached.ofOrder .topological : Reached Interval Unit Frontier).performAll reused).Intact ∧
      ((Reached.ofOrder .topological : Reached Interval Unit Frontier).performAll reused).size = 2 :=
  ⟨Reached.intact_performAll (fun _ _ hst => congrArg Interval.loc (eq_of_beq hst)) _ _,
    by decide +kernel⟩

end Reachability.Counter
