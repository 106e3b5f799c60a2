import Reachability.Partitions
import Mathlib.Data.List.Nodup

/-! The partition index as a function from locations to handles.

A location stands in the index once, and only while it is occupied (`Intact`).
Entering and leaving a handle changes the group of its location and no other. Read as a
whole, the index lists what its locations list (`mem_listed_iff`). -/
namespace Reachability.Partitions
variable {L : Type}

structure Intact (p : Partitions L) : Prop where
  nodup : (p.groups.map Prod.fst).Nodup
  occupied : ∀ group ∈ p.groups, group.2 ≠ []

theorem intact_empty : ({} : Partitions L).Intact :=
  ⟨.nil, fun _ h => (List.not_mem_nil h).elim⟩

variable [DecidableEq L]

theorem lookup_eq_none {l : L} {groups : List (L × List Handle)}
    (hl : l ∉ groups.map Prod.fst) : groups.lookup l = none :=
  List.lookup_eq_none_iff.2 fun group hmem =>
    bne_iff_ne.2 fun e => hl (List.mem_map.2 ⟨group, hmem, e.symm⟩)

theorem mem_enterGroup_fst {l k : L} {h : Handle} {groups : List (L × List Handle)} :
    k ∈ (enterGroup l h groups).map Prod.fst ↔ k = l ∨ k ∈ groups.map Prod.fst := by
  induction groups with
  | nil => simp [enterGroup]
  | cons group rest ih =>
    obtain ⟨m, hs⟩ := group
    by_cases hm : m = l
    · simp [enterGroup, hm]
    · simp only [enterGroup, if_neg hm, List.map_cons, List.mem_cons, ih]
      constructor
      · rintro (h | h | h) <;> simp [h]
      · rintro (h | h | h) <;> simp [h]

theorem mem_leaveGroup_fst {l k : L} {h : Handle} {groups : List (L × List Handle)}
    (hk : k ∈ (leaveGroup l h groups).map Prod.fst) : k ∈ groups.map Prod.fst := by
  induction groups with
  | nil => exact hk
  | cons group rest ih =>
    obtain ⟨m, hs⟩ := group
    by_cases hm : m = l
    · simp only [leaveGroup, if_pos hm] at hk
      split at hk
      · exact List.mem_cons_of_mem _ hk
      · exact hk
    · simp only [leaveGroup, if_neg hm, List.map_cons, List.mem_cons] at hk ⊢
      exact hk.imp_right ih

theorem nodup_enterGroup (l : L) (h : Handle) {groups : List (L × List Handle)}
    (hnodup : (groups.map Prod.fst).Nodup) : ((enterGroup l h groups).map Prod.fst).Nodup := by
  induction groups with
  | nil => simp [enterGroup]
  | cons group rest ih =>
    obtain ⟨m, hs⟩ := group
    obtain ⟨hm, hrest⟩ := List.nodup_cons.1 hnodup
    by_cases hml : m = l
    · simpa [enterGroup, hml] using hnodup
    · simp only [enterGroup, if_neg hml, List.map_cons, List.nodup_cons, mem_enterGroup_fst]
      refine ⟨?_, ih hrest⟩
      rintro (e | hmem)
      · exact hml e
      · exact hm hmem

theorem nodup_leaveGroup (l : L) (h : Handle) {groups : List (L × List Handle)}
    (hnodup : (groups.map Prod.fst).Nodup) : ((leaveGroup l h groups).map Prod.fst).Nodup := by
  induction groups with
  | nil => exact .nil
  | cons group rest ih =>
    obtain ⟨m, hs⟩ := group
    obtain ⟨hm, hrest⟩ := List.nodup_cons.1 hnodup
    by_cases hml : m = l
    · simp only [leaveGroup, if_pos hml]
      split
      · exact hrest
      · exact hnodup
    · simp only [leaveGroup, if_neg hml, List.map_cons, List.nodup_cons]
      exact ⟨fun hmem => hm (mem_leaveGroup_fst hmem), ih hrest⟩

theorem occupied_enterGroup (l : L) (h : Handle) {groups : List (L × List Handle)}
    (hocc : ∀ group ∈ groups, group.2 ≠ []) : ∀ group ∈ enterGroup l h groups, group.2 ≠ [] := by
  induction groups with
  | nil => simp [enterGroup]
  | cons group rest ih =>
    obtain ⟨m, hs⟩ := group
    obtain ⟨hhead, hrest⟩ := List.forall_mem_cons.1 hocc
    simp only [enterGroup]
    split
    · exact List.forall_mem_cons.2 ⟨by simp, hrest⟩
    · exact List.forall_mem_cons.2 ⟨hhead, ih hrest⟩

theorem occupied_leaveGroup (l : L) (h : Handle) {groups : List (L × List Handle)}
    (hocc : ∀ group ∈ groups, group.2 ≠ []) : ∀ group ∈ leaveGroup l h groups, group.2 ≠ [] := by
  induction groups with
  | nil => exact hocc
  | cons group rest ih =>
    obtain ⟨m, hs⟩ := group
    obtain ⟨hhead, hrest⟩ := List.forall_mem_cons.1 hocc
    simp only [leaveGroup]
    split
    · split
      · exact hrest
      · rename_i hkept
        exact List.forall_mem_cons.2 ⟨hkept, hrest⟩
    · exact List.forall_mem_cons.2 ⟨hhead, ih hrest⟩

theorem Intact.enter {p : Partitions L} (hp : p.Intact) (l : L) (h : Handle) :
    (p.enter l h).Intact :=
  ⟨nodup_enterGroup l h hp.nodup, occupied_enterGroup l h hp.occupied⟩

theorem Intact.leave {p : Partitions L} (hp : p.Intact) (l : L) (h : Handle) :
    (p.leave l h).Intact :=
  ⟨nodup_leaveGroup l h hp.nodup, occupied_leaveGroup l h hp.occupied⟩

/-- Leaving takes the handle out of the group of its location. -/
theorem handles_leave {p : Partitions L} (hp : p.Intact) (l k : L) (h : Handle) :
    (p.leave l h).handles k =
      if k = l then (p.handles l).filter fun g => g != h else p.handles k := by
  obtain ⟨groups⟩ := p
  have hnodup := hp.nodup
  clear hp
  show ((leaveGroup l h groups).lookup k).getD [] = _
  simp only [handles] at hnodup ⊢
  induction groups with
  | nil => simp [leaveGroup]
  | cons group rest ih =>
    obtain ⟨m, hs⟩ := group
    obtain ⟨hm, hrest⟩ := List.nodup_cons.1 hnodup
    by_cases hml : m = l
    · subst hml
      have hnone : rest.lookup m = none := lookup_eq_none hm
      by_cases hkm : k = m
      · subst hkm
        simp only [leaveGroup, if_true]
        split
        · rename_i hempty
          simp [hnone, hempty]
        · simp
      · have hb : (k == m) = false := beq_false_of_ne hkm
        simp only [leaveGroup, if_true, if_neg hkm]
        split <;> simp [List.lookup_cons, hb]
    · have hlm : (l == m) = false := beq_false_of_ne (Ne.symm hml)
      by_cases hkm : k = m
      · subst hkm
        simp [leaveGroup, hml]
      · have hb : (k == m) = false := beq_false_of_ne hkm
        simp only [leaveGroup, if_neg hml, List.lookup_cons, hb, hlm]
        exact ih hrest

/-! ### The whole index -/

/-- All handles in the index, location by location. -/
def listed (p : Partitions L) : List Handle :=
  p.groups.flatMap Prod.snd

namespace Intact
variable {p : Partitions L}

theorem handles_of_mem (hp : p.Intact) {l : L} {hs : List Handle} (hmem : (l, hs) ∈ p.groups) :
    p.handles l = hs := by
  obtain ⟨groups⟩ := p
  have hnodup := hp.nodup
  clear hp
  show (groups.lookup l).getD [] = hs
  simp only at hnodup hmem
  induction groups with
  | nil => cases hmem
  | cons group rest ih =>
    obtain ⟨hout, hrest⟩ := List.nodup_cons.1 hnodup
    rcases List.mem_cons.1 hmem with rfl | hmem
    · simp
    · have hne : l ≠ group.1 := fun e => hout (e ▸ List.mem_map_of_mem hmem)
      have hb : (l == group.1) = false := beq_false_of_ne hne
      rw [List.lookup_cons, hb]
      exact ih hmem hrest

theorem exists_mem_of_handles {l : L} {h : Handle} (hmem : h ∈ p.handles l) :
    (l, p.handles l) ∈ p.groups := by
  unfold handles at hmem ⊢
  cases hlookup : p.groups.lookup l with
  | none => simp [hlookup] at hmem
  | some hs =>
    obtain ⟨before, after, hgroups, -⟩ := List.lookup_eq_some_iff.1 hlookup
    rw [hgroups]
    exact List.mem_append_right _ (List.mem_cons_self ..)

theorem mem_listed_iff (hp : p.Intact) {h : Handle} : h ∈ p.listed ↔ ∃ l, h ∈ p.handles l := by
  simp only [listed, List.mem_flatMap, Prod.exists]
  constructor
  · rintro ⟨l, hs, hmem, hh⟩
    exact ⟨l, by rwa [hp.handles_of_mem hmem]⟩
  · rintro ⟨l, hh⟩
    exact ⟨l, p.handles l, exists_mem_of_handles hh, hh⟩

/-- The locations in the index are the occupied ones. -/
theorem mem_locations_iff (hp : p.Intact) {l : L} :
    l ∈ p.groups.map Prod.fst ↔ ∃ h, h ∈ p.handles l := by
  constructor
  · intro hmem
    obtain ⟨⟨k, hs⟩, hgroup, rfl⟩ := List.mem_map.1 hmem
    rw [hp.handles_of_mem hgroup]
    exact List.exists_mem_of_ne_nil hs (hp.occupied _ hgroup)
  · rintro ⟨h, hh⟩
    exact List.mem_map_of_mem (exists_mem_of_handles hh)

/-- A handle that is listed at one location only, and there once, is listed once. -/
theorem nodup_listed (hp : p.Intact) (hnodup : ∀ l, (p.handles l).Nodup)
    (hunique : ∀ h k l, h ∈ p.handles k → h ∈ p.handles l → k = l) : p.listed.Nodup := by
  refine List.nodup_flatMap.2 ⟨fun group hmem => ?_, ?_⟩
  · rw [← hp.handles_of_mem hmem]
    exact hnodup group.1
  · refine (List.pairwise_map.1 hp.nodup).imp_of_mem fun {x y} hx hy hne h hhx hhy => hne ?_
    rw [← hp.handles_of_mem hx] at hhx
    rw [← hp.handles_of_mem hy] at hhy
    exact hunique h x.1 y.1 hhx hhy

/-- The largest group bounds them all, and is the least bound. -/
theorem maxSize_le_iff (hp : p.Intact) (n : Nat) :
    p.maxSize ≤ n ↔ ∀ l, (p.handles l).length ≤ n := by
  have hfold : ∀ groups : List (L × List Handle),
      groups.foldr (fun group most => max group.2.length most) 0 ≤ n ↔
        ∀ group ∈ groups, group.2.length ≤ n := fun groups => by
    induction groups with
    | nil => simp
    | cons group rest ih =>
      rw [List.foldr_cons, Nat.max_le, ih, List.forall_mem_cons]
  refine (hfold _).trans ⟨fun h l => ?_, fun h group hgroup => ?_⟩
  · cases hlist : p.handles l with
    | nil => exact Nat.zero_le n
    | cons g rest =>
      have hmem : g ∈ p.handles l := by
        rw [hlist]
        exact List.mem_cons_self ..
      have hbound := h _ (exists_mem_of_handles hmem)
      rwa [hlist] at hbound
  · rw [← hp.handles_of_mem hgroup]
    exact h group.1

end Intact
end Reachability.Partitions
