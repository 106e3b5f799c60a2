import Reachability.Arena.Lemmas
import Mathlib.Data.List.Nodup

/-! What an arena lists, whatever the order.

The list of an arena holds every live handle once, with its value. So two arenas with the
same view list the same, and what an operation does to the list can be read off the view:
adding puts one entry in, removing takes one out. The size that an arena keeps beside its
cells is the length of this list (`Counted`). -/
namespace Reachability.Arena
variable {α β : Type} {a b : Arena α}

theorem nodup_handles (a : Arena α) : (a.toList.map Prod.fst).Nodup :=
  List.pairwise_map.2 ((pairwise_toList a).imp fun {x y} hlt he => by
    rw [he] at hlt
    exact Nat.lt_irrefl _ hlt)

theorem nodup_toList (a : Arena α) : a.toList.Nodup :=
  (nodup_handles a).of_map _

theorem mem_handles_iff {h : Handle} :
    h ∈ a.toList.map Prod.fst ↔ a.contains h = true := by
  rw [contains_eq, Option.isSome_iff_exists]
  simp only [List.mem_map, Prod.exists, mem_toList_iff]
  constructor
  · rintro ⟨g, v, hv, rfl⟩
    exact ⟨v, hv⟩
  · rintro ⟨v, hv⟩
    exact ⟨h, v, hv, rfl⟩

/-- A view determines what is listed. Here the view is taken through a function, since
an operation may change a part of a value that does not matter. -/
theorem perm_map_toList {f : α → β} (hview : ∀ h, (b.get? h).map f = (a.get? h).map f) :
    (b.toList.map fun x => (x.1, f x.2)).Perm (a.toList.map fun x => (x.1, f x.2)) := by
  have hnodup : ∀ c : Arena α, (c.toList.map fun x => (x.1, f x.2)).Nodup := fun c => by
    refine List.Nodup.of_map Prod.fst ?_
    rw [List.map_map]
    exact nodup_handles c
  have hmem : ∀ (c : Arena α) h v,
      (h, v) ∈ c.toList.map (fun x => (x.1, f x.2)) ↔ (c.get? h).map f = some v := fun c h v => by
    simp only [List.mem_map, Prod.exists, Prod.mk.injEq, mem_toList_iff, Option.map_eq_some_iff]
    constructor
    · rintro ⟨g, w, hw, rfl, rfl⟩
      exact ⟨w, hw, rfl⟩
    · rintro ⟨w, hw, rfl⟩
      exact ⟨h, w, hw, rfl, rfl⟩
  refine (List.perm_ext_iff_of_nodup (hnodup b) (hnodup a)).2 fun ⟨h, v⟩ => ?_
  rw [hmem, hmem, hview]

theorem perm_toList_add (a : Arena α) (v : α) :
    (a.add v).2.toList.Perm (((a.add v).1, v) :: a.toList) := by
  have hfresh : ∀ w, ((a.add v).1, w) ∉ a.toList := fun w hmem => by
    rw [mem_toList_iff, get?_add_fresh] at hmem
    cases hmem
  refine (List.perm_ext_iff_of_nodup (nodup_toList _)
    (List.nodup_cons.2 ⟨hfresh v, nodup_toList a⟩)).2 fun ⟨h, w⟩ => ?_
  rw [mem_toList_iff, get?_add_eq, List.mem_cons, Prod.mk.injEq, mem_toList_iff]
  by_cases hh : h = (a.add v).1
  · simp [hh, get?_add_fresh, eq_comm]
  · simp [hh]

theorem perm_toList_remove {h : Handle} {v : α} (e : a.remove? h = some (v, b)) :
    a.toList.Perm ((h, v) :: b.toList) := by
  have hgone : (h, v) ∉ b.toList := fun hmem => by
    rw [mem_toList_iff, get?_remove_eq e, if_pos rfl] at hmem
    cases hmem
  have hv : a.get? h = some v := (get?_remove e).1
  refine (List.perm_ext_iff_of_nodup (nodup_toList a)
    (List.nodup_cons.2 ⟨hgone, nodup_toList b⟩)).2 fun ⟨g, w⟩ => ?_
  rw [mem_toList_iff, List.mem_cons, Prod.mk.injEq, mem_toList_iff, get?_remove_eq e]
  by_cases hg : g = h
  · simp [hg, hv, eq_comm]
  · simp [hg]

@[simp] theorem toList_clear (a : Arena α) : a.clear.toList = [] := by
  refine List.eq_nil_iff_forall_not_mem.2 fun ⟨h, v⟩ hmem => ?_
  rw [mem_toList_iff, get?_clear] at hmem
  cases hmem

/-! ### Sizes -/

/-- The size is the number of occupied cells. -/
def Counted (a : Arena α) : Prop :=
  a.size = a.toList.length

theorem counted_empty : (empty : Arena α).Counted := rfl

theorem Counted.modify (ha : a.Counted) (h : Handle) (f : α → α) : (a.modify h f).Counted := by
  -- The same handles are live, so the lists are equally long.
  have hview : ∀ g, ((a.modify h f).get? g).map (fun _ => ()) = (a.get? g).map fun _ => () := by
    intro g
    rw [get?_modify]
    by_cases hg : g = h
    · simp [hg, Function.comp_def]
    · simp [hg]
  have hlength := (perm_map_toList hview).length_eq
  rw [List.length_map, List.length_map] at hlength
  rw [Counted, size_modify, hlength]
  exact ha

theorem size_add (a : Arena α) (v : α) : (a.add v).2.size = a.size + 1 := by
  simp only [add]
  split <;> rfl

theorem Counted.add (ha : a.Counted) (v : α) : (a.add v).2.Counted := by
  rw [Counted, size_add, (perm_toList_add a v).length_eq, List.length_cons, ha]

theorem size_remove {h : Handle} {v : α} (e : a.remove? h = some (v, b)) :
    b.size = a.size - 1 := by
  unfold remove? at e
  split at e
  · split at e
    · cases e
      rfl
    · cases e
  · cases e

theorem Counted.remove {h : Handle} {v : α} (ha : a.Counted) (e : a.remove? h = some (v, b)) :
    b.Counted := by
  rw [Counted, size_remove e, ha, (perm_toList_remove e).length_eq, List.length_cons]
  rfl

theorem counted_clear (a : Arena α) : a.clear.Counted := by
  rw [Counted, toList_clear]
  rfl

end Reachability.Arena
