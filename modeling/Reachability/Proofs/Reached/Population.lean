import Reachability.Proofs.Coverage.Advance
import Reachability.Proofs.Reached.Stock

/-! How many states are published at each location.

The population of a location is read off the stock: publishing adds one state to its location
at most, and removing takes away what it names. It is also the size of the location's partition
(`Consistent.population_eq`), so that the largest partition is a bound on all populations, and
the least one. -/
namespace Reachability.Reached

open AbstractState (Location location)

variable {S P W : Type} [AbstractState S]

/-- The number of states published at a location. -/
def population (r : Reached S P W) (l : Location S) : Nat :=
  r.states.countP fun s => location s = l

theorem population_eq_countP (r : Reached S P W) (l : Location S) :
    r.population l = r.stock.countP fun s => location s = l :=
  (Multiset.coe_countP _ r.states).symm

theorem population_congr {r r' : Reached S P W} (h : r'.stock = r.stock) (l : Location S) :
    r'.population l = r.population l := by
  rw [population_eq_countP, population_eq_countP, h]

variable [Waitlist W]

theorem population_removeHandles {gone : List Handle} (hnodup : gone.Nodup) (r : Reached S P W)
    (l : Location S) :
    r.population l = (gone.filterMap r.state?).countP (fun s => location s = l) +
      (gone.foldl removeHandle r).population l := by
  rw [population_eq_countP, stock_removeHandles hnodup r, Multiset.countP_add,
    ← population_eq_countP, Multiset.coe_countP]

theorem population_enqueue (r : Reached S P W) (h : Handle) (l : Location S) :
    (r.enqueue h).2.population l = r.population l :=
  population_congr (stock_congr (state?_enqueue r h)) l

theorem population_pop (r : Reached S P W) (l : Location S) :
    r.pop.2.population l = r.population l :=
  population_congr (stock_of_pop rfl) l

/-- What is published stays published when a batch is. -/
theorem mem_states_addAll [BEq S] [BEq P] {r : Reached S P W} {t : S} (ht : t ∈ r.states)
    (fresh : List (S × P)) : t ∈ (fresh.foldl (fun r (s, p) => (r.add s p).2) r).states := by
  obtain ⟨u, hu, rfl⟩ := (advances_addAll (fun t u => t = u) fresh r).covers t ⟨t, ht, rfl⟩
  exact hu

namespace Consistent
variable {r : Reached S P Frontier}

/-- The population of a location is what is published in its partition. -/
theorem population_eq (hr : r.Consistent) (l : Location S) :
    r.population l = (r.partitions.handles l).length := by
  have hnodup : ((r.arena.toList.filter fun x => location x.2.state = l).map Prod.fst).Nodup :=
    (Arena.nodup_handles r.arena).sublist (List.filter_sublist.map _)
  have hperm : (r.partitions.handles l).Perm
      ((r.arena.toList.filter fun x => location x.2.state = l).map Prod.fst) := by
    refine (List.perm_ext_iff_of_nodup (hr.unrepeated l) hnodup).2 fun h => ?_
    simp only [hr.indexed, List.mem_map, List.mem_filter, Prod.exists, Arena.mem_toList_iff,
      decide_eq_true_eq]
    constructor
    · rintro ⟨e, he, hl⟩
      exact ⟨h, e, ⟨he, hl⟩, rfl⟩
    · rintro ⟨g, e, ⟨he, hl⟩, rfl⟩
      exact ⟨e, he, hl⟩
  rw [hperm.length_eq, List.length_map, population, states, entries, List.countP_map,
    List.countP_eq_length_filter]
  rfl

/-- The largest partition has the largest population. -/
theorem maxPartitionSize_le_iff (hr : r.Consistent) (n : Nat) :
    r.maxPartitionSize ≤ n ↔ ∀ l, r.population l ≤ n := by
  simp only [hr.population_eq]
  exact hr.partitions.maxSize_le_iff n

variable [BEq S] [BEq P]

theorem population_add_le (hr : r.Consistent) (s : S) (p : P) (l : Location S) :
    (r.add s p).2.population l ≤ r.population l + if location s = l then 1 else 0 := by
  simp only [population_eq_countP]
  rcases hr.stock_add s p with hadd | ⟨hadd, -⟩
  · rw [hadd, Multiset.countP_cons]
  · rw [hadd]
    exact Nat.le_add_right ..

theorem population_addAll_le (fresh : List (S × P)) {r : Reached S P Frontier} (hr : r.Consistent)
    (l : Location S) :
    (fresh.foldl (fun r (s, p) => (r.add s p).2) r).population l ≤
      r.population l + (fresh.map Prod.fst).countP fun s => location s = l := by
  induction fresh generalizing r with
  | nil => exact Nat.le_refl _
  | cons pair rest ih =>
    have hfirst := hr.population_add_le pair.1 pair.2 l
    have hrest := ih (hr.add pair.1 pair.2)
    simp only [List.map_cons, List.countP_cons, decide_eq_true_eq]
    exact hrest.trans (by omega)

/-- A batch of each location that is no larger than what makes room for it there. -/
theorem population_update_le (hr : r.Consistent) {gone : List Handle} (hnodup : gone.Nodup)
    {fresh : List (S × P)} {l : Location S}
    (hroom : (fresh.map Prod.fst).countP (fun s => location s = l) ≤
      (gone.filterMap r.state?).countP fun s => location s = l) :
    (r.update gone fresh).population l ≤ r.population l := by
  have hremoved : (gone.foldl Reached.removeHandle r).Consistent := stable.removeHandles gone hr
  calc (r.update gone fresh).population l
      ≤ (gone.foldl Reached.removeHandle r).population l +
          (fresh.map Prod.fst).countP fun s => location s = l := population_addAll_le fresh hremoved l
    _ ≤ (gone.foldl Reached.removeHandle r).population l +
          (gone.filterMap r.state?).countP fun s => location s = l := Nat.add_le_add_left hroom _
    _ = r.population l := by rw [population_removeHandles hnodup r l, Nat.add_comm]

/-- Each state of a batch is published at its location, or one that equals it. -/
theorem exists_mem_addAll {fresh : List (S × P)} {r : Reached S P Frontier} (hr : r.Consistent)
    {x : S × P} (hx : x ∈ fresh) :
    ∃ t ∈ (fresh.foldl (fun r (s, p) => (r.add s p).2) r).states,
      location t = location x.1 ∧ (t = x.1 ∨ (t == x.1) = true) := by
  induction fresh generalizing r with
  | nil => cases hx
  | cons pair rest ih =>
    rcases List.mem_cons.1 hx with rfl | hx
    · rcases hr.stock_add x.1 x.2 with hadd | ⟨-, t, ht, hloc, hsame⟩
      · refine ⟨x.1, mem_states_addAll ?_ rest, rfl, .inl rfl⟩
        rw [← mem_stock, hadd]
        exact Multiset.mem_cons_self ..
      · exact ⟨t, mem_states_addAll (mem_states_add_of_mem ht x.1 x.2) rest, hloc, .inr hsame⟩
    · exact ih (hr.add pair.1 pair.2) hx

end Consistent
end Reachability.Reached
