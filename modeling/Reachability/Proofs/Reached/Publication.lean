import Reachability.Proofs.Reached.Intact
import Reachability.Proofs.Reached.Population
import Reachability.Proofs.Reached.Removals

/-! Looking a state up in its partition is looking through everything.

The order of publication can be told by watching which handles are live: a handle that is new
joins the end of the line, and one that is gone leaves it (`publicationOrder`). Cells are used
again, so the line is not in the order of the cells. A partition is the part of the line that
stands at its location (`Lined.grouped`), whatever waitlist the reached set has, and this is
what makes a lookup in the index as good as one in the arena (`lookup_performAll`). -/
namespace Reachability

/-- The removals and publications that a batch consists of, one after the other. -/
def Operation.parts {S P : Type} : Operation S P → List (Operation S P)
  | .update gone fresh => gone.map .removeHandle ++ fresh.map fun x => .add x.1 x.2
  | op => [op]

/-- The parts of a batch are no batches. -/
theorem Operation.not_mem_parts_update {S P : Type} {gone others : List Handle}
    {fresh more : List (S × P)} :
    Operation.update others more ∉ (Operation.update gone fresh).parts := by
  simp [parts]

theorem Operation.parts_of_mem_parts {S P : Type} {op part : Operation S P}
    (hpart : part ∈ op.parts) : part.parts = [part] := by
  cases op with
  | update gone fresh =>
    cases part with
    | update => cases not_mem_parts_update hpart
    | _ => rfl
  | _ =>
    obtain rfl := List.mem_singleton.1 hpart
    rfl

/-- Taken apart, a sequence has no batches. -/
theorem Operation.single_parts {S P : Type} (ops : List (Operation S P)) :
    ∀ op ∈ ops.flatMap Operation.parts, op.parts = [op] := by
  intro op hop
  obtain ⟨whole, -, hpart⟩ := List.mem_flatMap.1 hop
  exact Operation.parts_of_mem_parts hpart

namespace Reached

open AbstractState (Location location)

variable {S P W : Type} [AbstractState S]

/-- The handles that are live and do not stand in line. -/
def newcomers (r : Reached S P W) (line : List Handle) : List Handle :=
  (r.entries.map Prod.fst).filter fun h => h ∉ line

/-- Who is still there keeps their place in line, and who is new joins it at the end. -/
def lineUp (r : Reached S P W) (line : List Handle) : List Handle :=
  line.filter r.arena.contains ++ r.newcomers line

/-- Whether a handle names a state at the location. -/
def isAt (r : Reached S P W) (l : Location S) (h : Handle) : Bool :=
  (r.state? h).any fun s => location s = l

section
variable [Waitlist W] [BEq S] [BEq P]

/-- How the line changes over a sequence of operations. -/
def lineAfter (r : Reached S P W) (line : List Handle) : List (Operation S P) → List Handle
  | [] => line
  | op :: ops => (r.perform op).2.lineAfter ((r.perform op).2.lineUp line) ops

/-- The live handles after a sequence of operations on an empty reached set, in the order in
which they were published. A batch counts as its parts, so that one handle joins the line at a
time (`Lined.length_newcomers_le`). -/
def publicationOrder (r : Reached S P W) (ops : List (Operation S P)) : List Handle :=
  r.lineAfter [] (ops.flatMap Operation.parts)

end

/-- The index finds what there is to find, and lists it in the order of the line. -/
structure LooksUp [BEq S] (r : Reached S P W) (line : List Handle) : Prop where
  live : ∀ h, h ∈ line ↔ r.arena.contains h = true
  once : line.Nodup
  /-- Looking in the partition finds what looking through all entries does. -/
  find : ∀ s, r.find? s = (r.entries.find? fun x => x.2.state == s).map Prod.fst
  unique : ∀ s, ∀ x ∈ r.entries, ∀ y ∈ r.entries,
    (x.2.state == s) = true → (y.2.state == s) = true → x = y
  handles : ∀ s, r.handlesAt s = line.filter (r.isAt (location s))
  states : ∀ s, (r.statesAt s).map some = (r.handlesAt s).map r.state?
  largest_ge : ∀ l, r.population l ≤ r.maxPartitionSize
  largest_eq : (r.states = [] ∧ r.maxPartitionSize = 0) ∨
    ∃ s ∈ r.states, r.population (location s) = r.maxPartitionSize

/-- What the operations keep: the partitions are parts of the line. -/
structure Lined [BEq S] (r : Reached S P W) (line : List Handle) : Prop where
  live : ∀ h, h ∈ line ↔ r.arena.contains h = true
  once : line.Nodup
  index : r.partitions.Intact
  grouped : ∀ l, r.partitions.handles l = line.filter (r.isAt l)
  distinct : r.Distinct

/-! ### The index after an operation -/

section
variable [Waitlist W]

theorem partitions_enqueue (r : Reached S P W) (h : Handle) :
    (r.enqueue h).2.partitions = r.partitions := by
  unfold enqueue
  split
  · rfl
  · split <;> rfl

theorem partitions_pop (r : Reached S P W) : r.pop.2.partitions = r.partitions := by
  unfold pop
  split <;> rfl

theorem partitions_publish (r : Reached S P W) (s : S) (p : P) :
    (r.publish s p).2.partitions = r.partitions.enter (location s) (r.nextHandle s p) := by
  simp only [publish, partitions_enqueue]
  rfl

theorem partitions_removeHandle (r : Reached S P W) (h : Handle) :
    (r.removeHandle h).partitions =
      match r.state? h with
      | some s => r.partitions.leave (location s) h
      | none => r.partitions := by
  unfold removeHandle removeHandle?
  cases hremoved : r.arena.remove? h with
  | none => simp [state?, Arena.remove?_eq_none_iff.1 hremoved]
  | some removed => simp [state?, (Arena.get?_remove hremoved).1]

theorem contains_clear (r : Reached S P W) (h : Handle) : r.clear.arena.contains h = false := by
  rw [Arena.contains_eq]
  simp [clear, Arena.get?_clear]

end

/-! ### What an operation does -/

section
variable [Waitlist W] [BEq S]

/-- What an operation that is no batch can do to the index and to the pairs. -/
inductive Change (r : Reached S P W) : Reached S P W → Prop where
  | stays {r' : Reached S P W} (index : r'.partitions = r.partitions)
      (pairs : ∀ h, r'.state? h = r.state? h) : r.Change r'
  | publishes (s : S) (p : P) (isNew : r.find? s = none) : r.Change (r.publish s p).2
  | removes (h : Handle) : r.Change (r.removeHandle h)
  | clears : r.Change r.clear

theorem change_updatePrecision (r : Reached S P W) (h : Handle) (p : P) :
    r.Change (r.updatePrecision h p).2 := by
  simp only [updatePrecision]
  split
  · exact .stays (partitions_enqueue ..) fun _ =>
      (state?_enqueue ..).trans (state?_setPrecision ..)
  · exact .stays rfl fun _ => rfl

variable [BEq P]

/-- A state that is published already may get another precision. -/
theorem change_add (r : Reached S P W) (s : S) (p : P) : r.Change (r.add s p).2 := by
  cases hfind : r.find? s with
  | none =>
    rw [add_of_find?_eq_none hfind]
    exact .publishes s p hfind
  | some h =>
    simp only [add, hfind]
    split
    · split
      · exact .stays (partitions_enqueue ..) fun _ =>
          (state?_enqueue ..).trans (state?_setPrecision ..)
      · exact .stays rfl fun _ => rfl
    · exact .stays rfl fun _ => rfl

theorem change_remove (r : Reached S P W) (s : S) : r.Change (r.perform (.remove s)).2 := by
  rw [perform_remove]
  cases r.find? s with
  | none => exact .stays rfl fun _ => rfl
  | some h => exact .removes h

theorem change_perform (r : Reached S P W) {op : Operation S P} (hsingle : op.parts = [op]) :
    r.Change (r.perform op).2 := by
  cases op with
  | add s p => exact r.change_add s p
  | removeHandle h =>
    rw [perform_removeHandle]
    exact .removes h
  | remove s => exact r.change_remove s
  | update gone fresh => cases Operation.not_mem_parts_update (hsingle ▸ List.mem_singleton_self _)
  | updatePrecision h p => exact r.change_updatePrecision h p
  | clear => exact .clears
  | pop => exact .stays (partitions_pop r) (state?_of_pop rfl)
  | enqueue h => exact .stays (partitions_enqueue r h) (state?_enqueue r h)
  | _ => exact .stays rfl fun _ => rfl

end

/-! ### The line -/

variable {r r' : Reached S P W} {line : List Handle}

theorem isAt_eq_true_iff {l : Location S} {h : Handle} :
    r.isAt l h = true ↔ ∃ s, r.state? h = some s ∧ location s = l := by
  simp [isAt, Option.any_eq_true]

theorem isAt_congr {g h : Handle} (hs : r'.state? g = r.state? h) (l : Location S) :
    r'.isAt l g = r.isAt l h := by
  rw [isAt, isAt, hs]

theorem newcomers_eq_nil (hknown : ∀ h, r.arena.contains h = true → h ∈ line) :
    r.newcomers line = [] :=
  List.filter_eq_nil_iff.2 fun h hmem => by simpa using hknown h (Arena.mem_handles_iff.1 hmem)

theorem newcomers_eq_singleton {h : Handle} (hnew : h ∉ line)
    (hlive : ∀ g, r.arena.contains g = true ↔ g = h ∨ g ∈ line) : r.newcomers line = [h] := by
  refine List.perm_singleton.1 ((List.perm_ext_iff_of_nodup
    ((Arena.nodup_handles r.arena).filter _) (List.nodup_singleton h)).2 fun g => ?_)
  rw [List.mem_filter, Arena.mem_handles_iff, hlive, List.mem_singleton]
  constructor
  · rintro ⟨rfl | hg, hout⟩
    · rfl
    · simp [hg] at hout
  · rintro rfl
    simp [hnew]

/-- Where nothing is new, the line is what is left of it. -/
theorem lineUp_of_subset (hknown : ∀ h, r.arena.contains h = true → h ∈ line) :
    r.lineUp line = line.filter r.arena.contains := by
  rw [lineUp, newcomers_eq_nil hknown, List.append_nil]

theorem lineUp_eq_self (hlive : ∀ h, h ∈ line ↔ r.arena.contains h = true) :
    r.lineUp line = line := by
  rw [lineUp_of_subset fun h => (hlive h).2]
  exact List.filter_eq_self.2 fun h => (hlive h).1

/-- A handle that is new stands last. -/
theorem lineUp_eq_append {h : Handle} (hnew : h ∉ line)
    (hlive : ∀ g, r.arena.contains g = true ↔ g = h ∨ g ∈ line) :
    r.lineUp line = line ++ [h] := by
  have hstay : line.filter r.arena.contains = line :=
    List.filter_eq_self.2 fun g hg => (hlive g).2 (.inr hg)
  rw [lineUp, hstay, newcomers_eq_singleton hnew hlive]

namespace Lined
variable [BEq S]

/-- Nothing happens to the line if the same pairs are published under the same handles. -/
theorem congr (hr : r.Lined line) (hp : r'.partitions = r.partitions)
    (hs : ∀ h, r'.state? h = r.state? h) : r'.Lined (r'.lineUp line) := by
  have hlive : ∀ h, h ∈ line ↔ r'.arena.contains h = true := fun h => by
    rw [hr.live, contains_iff_state?, contains_iff_state?, hs]
  rw [lineUp_eq_self hlive]
  refine ⟨hlive, hr.once, hp ▸ hr.index, fun l => ?_,
    Apart.of_state? hr.distinct fun g s hg => by rwa [hs] at hg⟩
  rw [hp, hr.grouped]
  exact List.filter_congr fun h _ => (isAt_congr (hs h) l).symm

theorem mem_handlesAt (hr : r.Lined line) {s t : S} {h : Handle} (ht : r.state? h = some t)
    (hl : location t = location s) : h ∈ r.handlesAt s := by
  rw [handlesAt, hr.grouped, List.mem_filter, hr.live]
  exact ⟨contains_iff_state?.2 ⟨t, ht⟩, isAt_eq_true_iff.2 ⟨t, ht, hl⟩⟩

theorem empty (w : W) : ({ waitlist := w } : Reached S P W).Lined [] := by
  have hnone : ∀ h, ({ waitlist := w } : Reached S P W).arena.get? h = none := Arena.get?_empty
  refine ⟨fun h => ?_, .nil, Partitions.intact_empty, fun _ => rfl, .of_get?_eq_none hnone⟩
  rw [Arena.contains_eq, hnone]
  simp

theorem nextHandle_notMem (hr : r.Lined line) (s : S) (p : P) : r.nextHandle s p ∉ line := by
  rw [hr.live, Arena.contains_eq, get?_nextHandle]
  simp

/-- Nothing is listed where it does not stand. -/
theorem filter_handles_of_elsewhere (hr : r.Lined line) {l : Location S} {h : Handle}
    (helsewhere : r.isAt l h = false) :
    (r.partitions.handles l).filter (fun g => g != h) = r.partitions.handles l := by
  refine List.filter_eq_self.2 fun g hg => bne_iff_ne.2 ?_
  rintro rfl
  rw [hr.grouped, List.mem_filter, helsewhere] at hg
  cases hg.2

variable [Waitlist W]

theorem clear (r : Reached S P W) (line : List Handle) : r.clear.Lined (r.clear.lineUp line) := by
  have hdead := contains_clear r
  have hline : r.clear.lineUp line = [] := by
    rw [lineUp_of_subset fun h hlive => by rw [hdead] at hlive; cases hlive]
    exact List.filter_eq_nil_iff.2 fun h _ => by simp [hdead]
  rw [hline]
  exact ⟨fun h => by simp [hdead], .nil, Partitions.intact_empty, fun _ => rfl,
    .of_get?_eq_none (Arena.get?_clear r.arena)⟩

/-! ### Publishing and removing -/

theorem contains_publish (hr : r.Lined line) (s : S) (p : P) (g : Handle) :
    (r.publish s p).2.arena.contains g = true ↔ g = r.nextHandle s p ∨ g ∈ line := by
  rw [hr.live, Arena.contains_eq, Arena.contains_eq, get?_publish]
  split
  · rename_i hg
    simp [hg]
  · rename_i hg
    simp [hg]

theorem handles_publish (hr : r.Lined line) (s : S) (p : P) (l : Location S) :
    (r.publish s p).2.partitions.handles l =
      (line ++ [r.nextHandle s p]).filter ((r.publish s p).2.isAt l) := by
  have hlast : (r.publish s p).2.state? (r.nextHandle s p) = some s := by
    rw [state?, get?_publish, if_pos rfl]
    rfl
  have hkept : line.filter ((r.publish s p).2.isAt l) = r.partitions.handles l := by
    rw [hr.grouped]
    refine List.filter_congr fun g hg => isAt_congr ?_ l
    have hne : g ≠ r.nextHandle s p := fun he => hr.nextHandle_notMem s p (he ▸ hg)
    rw [state?, get?_publish, if_neg hne, state?]
  rw [partitions_publish, Partitions.handles_enter, List.filter_append, hkept]
  by_cases hl : l = location s
  · simp [isAt, hlast, hl]
  · simp [isAt, hlast, hl, Ne.symm hl]

theorem publish [PartialEquivBEq S]
    (hlocation : ∀ s t : S, (s == t) = true → location s = location t) (hr : r.Lined line) {s : S}
    (hnew : r.find? s = none) (p : P) :
    (r.publish s p).2.Lined ((r.publish s p).2.lineUp line) := by
  have hfresh := hr.nextHandle_notMem s p
  have hlive := hr.contains_publish s p
  rw [lineUp_eq_append hfresh hlive]
  refine ⟨fun g => ?_, ?_, ?_, hr.handles_publish s p, ?_⟩
  · rw [hlive, List.mem_append, List.mem_singleton, or_comm]
  · exact (List.perm_append_singleton _ line).nodup_iff.2 (List.nodup_cons.2 ⟨hfresh, hr.once⟩)
  · rw [partitions_publish]
    exact hr.index.enter _ _
  · exact Apart.publish hr.distinct
      (differs_of_find?_eq_none hlocation (fun _ _ => hr.mem_handlesAt) hnew) p

theorem contains_removeHandle (hr : r.Lined line) (h g : Handle) :
    (r.removeHandle h).arena.contains g = true ↔ g ≠ h ∧ g ∈ line := by
  rw [Reached.contains_removeHandle, hr.live]

theorem handles_removeHandle (hr : r.Lined line) (h : Handle) (l : Location S) :
    (r.removeHandle h).partitions.handles l = (r.partitions.handles l).filter fun g => g != h := by
  rw [partitions_removeHandle]
  cases hs : r.state? h with
  | none => exact (hr.filter_handles_of_elsewhere (by simp [isAt, hs])).symm
  | some s =>
    simp only [Partitions.handles_leave hr.index]
    split
    · rename_i hl
      rw [hl]
    · rename_i hl
      exact (hr.filter_handles_of_elsewhere (by simp [isAt, hs, Ne.symm hl])).symm

theorem removeHandle (hr : r.Lined line) (h : Handle) :
    (r.removeHandle h).Lined ((r.removeHandle h).lineUp line) := by
  have hlive := hr.contains_removeHandle h
  have hline : (r.removeHandle h).lineUp line = line.filter fun g => g != h := by
    rw [lineUp_of_subset fun g hg => ((hlive g).1 hg).2]
    refine List.filter_congr fun g hg => ?_
    rw [Bool.eq_iff_iff, hlive, bne_iff_ne]
    exact and_iff_left hg
  rw [hline]
  refine ⟨fun g => ?_, hr.once.filter _, ?_, fun l => ?_, Apart.removeHandles hr.distinct [h]⟩
  · rw [hlive, List.mem_filter, bne_iff_ne, and_comm]
  · rw [partitions_removeHandle]
    cases r.state? h with
    | none => exact hr.index
    | some s => exact hr.index.leave _ _
  · rw [hr.handles_removeHandle, hr.grouped, List.filter_filter, List.filter_filter]
    refine List.filter_congr fun g _ => ?_
    by_cases hg : g = h
    · simp [hg]
    · have hsame : (r.removeHandle h).isAt l g = r.isAt l g :=
        isAt_congr (by rw [state?_removeHandle, if_neg hg]) l
      rw [hsame, Bool.and_comm]

/-! ### One operation after the other -/

/-- One handle at a time joins the line. -/
theorem length_newcomers_le (hr : r.Lined line) (hchange : r.Change r') :
    (r'.newcomers line).length ≤ 1 := by
  cases hchange with
  | stays _ hpairs =>
    have hnone : r'.newcomers line = [] := newcomers_eq_nil fun h hlive => by
      rwa [contains_iff_state?, hpairs, ← contains_iff_state?, ← hr.live] at hlive
    simp [hnone]
  | publishes s p _ =>
    have hone := newcomers_eq_singleton (hr.nextHandle_notMem s p) (hr.contains_publish s p)
    simp [hone]
  | removes h =>
    have hnone : (r.removeHandle h).newcomers line = [] :=
      newcomers_eq_nil fun g hlive => ((hr.contains_removeHandle h g).1 hlive).2
    simp [hnone]
  | clears =>
    have hnone : r.clear.newcomers line = [] := newcomers_eq_nil fun h hlive => by
      rw [contains_clear] at hlive
      cases hlive
    simp [hnone]

variable [PartialEquivBEq S]
  (hlocation : ∀ s t : S, (s == t) = true → location s = location t)
include hlocation

theorem step (hr : r.Lined line) (hchange : r.Change r') : r'.Lined (r'.lineUp line) := by
  cases hchange with
  | stays hindex hpairs => exact hr.congr hindex hpairs
  | publishes s p hnew => exact hr.publish hlocation hnew p
  | removes h => exact hr.removeHandle h
  | clears => exact clear r line

theorem performAll [BEq P] (hr : r.Lined line) {ops : List (Operation S P)}
    (hsingle : ∀ op ∈ ops, op.parts = [op]) : (r.performAll ops).Lined (r.lineAfter line ops) := by
  induction ops generalizing r line with
  | nil => exact hr
  | cons op rest ih =>
    obtain ⟨hop, hrest⟩ := List.forall_mem_cons.1 hsingle
    exact ih (hr.step hlocation (r.change_perform hop)) hrest

end Lined

/-! ### Batches -/

section
variable [Waitlist W] [BEq S] [BEq P]

/-- A batch is its parts, one after the other. -/
theorem performAll_parts (r : Reached S P W) (op : Operation S P) :
    r.performAll op.parts = (r.perform op).2 := by
  cases op with
  | update gone fresh =>
    have hgone : ∀ r : Reached S P W,
        r.performAll (gone.map .removeHandle) = gone.foldl removeHandle r := fun r => by
      rw [performAll, List.foldl_map]
      congr 1
      funext r h
      exact perform_removeHandle r h
    have hfresh : ∀ r : Reached S P W, r.performAll (fresh.map fun x => .add x.1 x.2) =
        fresh.foldl (fun r x => (r.add x.1 x.2).2) r := fun r => by
      rw [performAll, List.foldl_map]
      rfl
    rw [Operation.parts, performAll_append, hgone, hfresh]
    rfl
  | _ => rfl

theorem performAll_flatMap_parts (ops : List (Operation S P)) (r : Reached S P W) :
    r.performAll (ops.flatMap Operation.parts) = r.performAll ops := by
  induction ops generalizing r with
  | nil => rfl
  | cons op rest ih => rw [List.flatMap_cons, performAll_append, performAll_parts, ih, performAll_cons]

end

/-! ### Looking up -/

namespace Lined
variable [BEq S]

/-- The population of a location is the size of its partition. -/
theorem population_eq (hr : r.Lined line) (l : Location S) :
    r.population l = (r.partitions.handles l).length := by
  have hperm : line.Perm (r.entries.map Prod.fst) :=
    (List.perm_ext_iff_of_nodup hr.once (Arena.nodup_handles r.arena)).2 fun h => by
      rw [hr.live, Arena.mem_handles_iff]
  rw [hr.grouped, (hperm.filter _).length_eq, ← List.countP_eq_length_filter, List.countP_map,
    population, states, List.countP_map]
  refine List.countP_congr fun x hx => ?_
  have hentry : r.arena.get? x.1 = some x.2 := Arena.mem_toList_iff.1 hx
  simp [isAt, state?, hentry]

theorem maxPartitionSize_le_iff (hr : r.Lined line) (n : Nat) :
    r.maxPartitionSize ≤ n ↔ ∀ l, r.population l ≤ n := by
  simp only [hr.population_eq]
  exact hr.index.maxSize_le_iff n

/-- The largest partition is that of some state, unless there is none. -/
theorem exists_population_eq (hr : r.Lined line) :
    (r.states = [] ∧ r.maxPartitionSize = 0) ∨
      ∃ s ∈ r.states, r.population (location s) = r.maxPartitionSize := by
  have hle := (hr.maxPartitionSize_le_iff r.maxPartitionSize).1 (Nat.le_refl _)
  by_cases hsome : ∃ s ∈ r.states, r.population (location s) = r.maxPartitionSize
  · exact .inr hsome
  · left
    -- Then each location that has states falls short of the maximum, and the others have none.
    have hshort : ∀ l, r.population l ≤ r.maxPartitionSize - 1 := fun l => by
      by_cases hnone : r.population l = 0
      · omega
      · obtain ⟨s, hs, hl⟩ := List.countP_pos_iff.1 (Nat.pos_of_ne_zero hnone)
        obtain rfl : location s = l := by simpa using hl
        have hne : r.population (location s) ≠ r.maxPartitionSize := fun h => hsome ⟨s, hs, h⟩
        have hbound := hle (location s)
        omega
    have hzero : r.maxPartitionSize = 0 := by
      have hmax := (hr.maxPartitionSize_le_iff _).2 hshort
      omega
    refine ⟨List.eq_nil_iff_forall_not_mem.2 fun s hs => ?_, hzero⟩
    have hpos : 0 < r.population (location s) := List.countP_pos_iff.2 ⟨s, hs, by simp⟩
    have hbound := hle (location s)
    omega

theorem eq_of_beq [EquivBEq S] (hr : r.Lined line) {s : S} {x y : Handle × Entry S P}
    (hx : x ∈ r.entries) (hy : y ∈ r.entries) (hxs : (x.2.state == s) = true)
    (hys : (y.2.state == s) = true) : x = y := by
  have hentry : ∀ {z : Handle × Entry S P}, z ∈ r.entries → r.arena.get? z.1 = some z.2 :=
    fun hz => Arena.mem_toList_iff.1 hz
  have hsame : x.1 = y.1 := hr.distinct x.1 y.1 x.2.state y.2.state
    (state?_eq_some_iff.2 ⟨x.2, hentry hx, rfl⟩) (state?_eq_some_iff.2 ⟨y.2, hentry hy, rfl⟩)
    (BEq.trans hxs (BEq.symm hys))
  have hvalue := hentry hx
  rw [hsame, hentry hy, Option.some.injEq] at hvalue
  exact Prod.ext hsame hvalue.symm

theorem find?_eq_scan [EquivBEq S]
    (hlocation : ∀ s t : S, (s == t) = true → location s = location t) (hr : r.Lined line) (s : S) :
    r.find? s = (r.entries.find? fun x => x.2.state == s).map Prod.fst := by
  cases hfind : r.find? s with
  | none =>
    have hdiffers := differs_of_find?_eq_none hlocation (fun _ _ => hr.mem_handlesAt) hfind
    have hnone : (r.entries.find? fun x => x.2.state == s) = none :=
      List.find?_eq_none.2 fun x hx => (hdiffers x.2.state (List.mem_map_of_mem hx)).2
    rw [hnone]
    rfl
  | some h =>
    obtain ⟨-, t, ht, hsame⟩ := find?_eq_some hfind
    obtain ⟨e, he, rfl⟩ := state?_eq_some_iff.1 ht
    have hmem : (h, e) ∈ r.entries := Arena.mem_toList_iff.2 he
    cases hscan : r.entries.find? fun x => x.2.state == s with
    | none => exact absurd hsame (List.find?_eq_none.1 hscan (h, e) hmem)
    | some x =>
      have hxs : (x.2.state == s) = true := by simpa using List.find?_some hscan
      rw [hr.eq_of_beq (List.mem_of_find?_eq_some hscan) hmem hxs hsame]
      rfl

theorem lookUp [EquivBEq S] (hlocation : ∀ s t : S, (s == t) = true → location s = location t)
    (hr : r.Lined line) : r.LooksUp line where
  live := hr.live
  once := hr.once
  find := hr.find?_eq_scan hlocation
  unique s x hx y hy hxs hys := hr.eq_of_beq hx hy hxs hys
  handles s := hr.grouped (location s)
  states s := by
    have hsome : ∀ h ∈ r.handlesAt s, ∃ t, r.state? h = some t := fun h hh => by
      rw [handlesAt, hr.grouped, List.mem_filter, hr.live] at hh
      exact contains_iff_state?.1 hh.1
    have hfilter : (r.handlesAt s).filter (fun h => (r.state? h).isSome) = r.handlesAt s :=
      List.filter_eq_self.2 fun h hh => Option.isSome_iff_exists.2 (hsome h hh)
    rw [statesAt, List.map_filterMap_some_eq_filter_map_isSome, List.filter_map]
    exact congrArg (List.map r.state?) hfilter
  largest_ge := (hr.maxPartitionSize_le_iff _).1 (Nat.le_refl _)
  largest_eq := hr.exists_population_eq

end Lined

/-- **Whatever operations are performed on an empty reached set**, with whatever waitlist, a
state is looked up as if all entries were looked through, and the candidates at a location are
listed in the order in which they were published. -/
theorem lookup_performAll [Waitlist W] [BEq S] [BEq P] [EquivBEq S]
    (hlocation : ∀ s t : S, (s == t) = true → location s = location t) (w : W)
    (ops : List (Operation S P)) :
    (({ waitlist := w } : Reached S P W).performAll ops).LooksUp
      (({ waitlist := w } : Reached S P W).publicationOrder ops) := by
  have hlined := (Lined.empty (S := S) (P := P) w).performAll hlocation (Operation.single_parts ops)
  rw [performAll_flatMap_parts] at hlined
  exact hlined.lookUp hlocation

end Reached

/-! Intervals of the demonstration. Two pairs are removed, and the pairs that are published
next stand in their cells, the second one with a location of its own. -/
namespace Counter

def reclaimed : List (Operation Interval Unit) :=
  [.add ⟨.loop, 0, 0⟩ (), .add ⟨.loop, 1, 1⟩ (), .add ⟨.loop, 2, 2⟩ (),
    .update [⟨0, 0⟩, ⟨2, 0⟩] [(⟨.loop, 3, 3⟩, ()), (⟨.exit, 3, 3⟩, ())], .add ⟨.loop, 1, 1⟩ ()]

theorem reclaimed_lookup :
    ((Reached.ofOrder .breadthFirst : Reached Interval Unit Frontier).performAll reclaimed).LooksUp
        [⟨1, 0⟩, ⟨0, 1⟩, ⟨2, 1⟩] ∧
      ((Reached.ofOrder .breadthFirst : Reached Interval Unit Frontier).performAll reclaimed).handlesAt
        ⟨.loop, 0, 0⟩ = [⟨1, 0⟩, ⟨0, 1⟩] := by
  have horder : (Reached.ofOrder .breadthFirst : Reached Interval Unit Frontier).publicationOrder
      reclaimed = [⟨1, 0⟩, ⟨0, 1⟩, ⟨2, 1⟩] := by
    decide +kernel
  have hlookup := Reached.lookup_performAll (fun _ _ hst => congrArg Interval.loc (eq_of_beq hst))
    (Frontier.ofOrder .breadthFirst) reclaimed
  exact ⟨horder ▸ hlookup, by decide +kernel⟩

end Counter
end Reachability
