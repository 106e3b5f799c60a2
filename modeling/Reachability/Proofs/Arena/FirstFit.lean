import Mathlib.Data.List.Infix
import Mathlib.Order.Bounds.Basic
import Reachability.Proofs.Arena.Occupancy

/-! No cell is opened while one is vacant.

`firstFree` only says where the search for a vacant cell may start, and it would be easy to set
it too far: then a vacant cell would be passed over for ever. It never is (`Packed`), and so a
value goes to the first vacant cell there is, and the number of cells is the largest number of
values that the arena ever held (`firstFit_performAll`). -/
namespace Reachability.Arena
variable {α : Type} {a b : Arena α}

/-- A value is added at the first vacant cell and occupies it until it is removed, and the
counters are right. -/
structure FirstFit (a : Arena α) : Prop where
  hint_le : a.firstFree ≤ a.capacity
  hint : ∀ i < a.firstFree, a.occupied i = true
  size : a.size = (List.range a.capacity).countP a.occupied
  least : ∀ v, a.occupied (a.add v).1.index = false ∧
    ∀ i < (a.add v).1.index, a.occupied i = true
  occupies : ∀ v i, (a.add v).2.occupied i = true ↔ i = (a.add v).1.index ∨ a.occupied i = true
  grows : ∀ v, (a.add v).2.size = a.size + 1
  vacates : ∀ h i, (a.perform (.remove h)).occupied i = true ↔
    a.occupied i = true ∧ ¬ (i = h.index ∧ a.contains h = true)
  clears : ∀ i, a.clear.occupied i = false
  /-- Another cell is opened only when all are occupied. -/
  opened : ∀ v, (a.add v).2.capacity = a.capacity ∨
    (a.add v).2.capacity = a.capacity + 1 ∧ ∀ i < a.capacity, a.occupied i = true

/-- What the operations keep. -/
structure Packed (a : Arena α) : Prop where
  hint_le : a.firstFree ≤ a.capacity
  hint : ∀ i < a.firstFree, a.occupied i = true
  counted : a.Counted

/-! ### The search -/

/-- The search passes over occupied cells only. -/
theorem occupied_of_lt_vacantFrom {i n j : Nat} (hn : i + n = a.cells.size) (hij : i ≤ j)
    (hj : j < vacantFrom a.cells i n) : a.occupied j = true := by
  induction n generalizing i with
  | zero =>
    simp only [vacantFrom] at hj
    omega
  | succ n ih =>
    unfold vacantFrom at hj
    split at hj
    · omega
    · rename_i hnot
      rcases Nat.eq_or_lt_of_le hij with rfl | hlt
      · have hi : i < a.cells.size := by omega
        cases hc : a.cells[i] with
        | mk value g =>
          have hc' : a.cells[i]? = some ⟨value, g⟩ := by rw [Array.getElem?_eq_getElem hi, hc]
          cases value with
          | none => exact absurd hc' (hnot g)
          | some v => exact occupied_eq_true_iff.2 ⟨v, g, hc'⟩
      · exact ih (by omega) hlt hj

theorem lt_capacity_of_occupied {i : Nat} (hi : a.occupied i = true) : i < a.capacity := by
  obtain ⟨v, g, hc⟩ := occupied_eq_true_iff.1 hi
  exact (Array.getElem?_eq_some_iff.1 hc).1

/-- The list has one entry for each occupied cell. -/
theorem length_toList_eq_countP (a : Arena α) :
    a.toList.length = (List.range a.capacity).countP a.occupied := by
  have hperm : (a.toList.map fun x => x.1.index).Perm ((List.range a.capacity).filter a.occupied) := by
    refine (List.perm_ext_iff_of_nodup (nodup_indices a) (List.nodup_range.filter _)).2 fun i => ?_
    rw [mem_indices_iff, ← occupied_eq_true_iff, List.mem_filter, List.mem_range]
    exact ⟨fun hi => ⟨lt_capacity_of_occupied hi, hi⟩, And.right⟩
  rw [List.countP_eq_length_filter, ← hperm.length_eq, List.length_map]

/-! ### Capacity -/

@[simp] theorem capacity_modify (a : Arena α) (h : Handle) (f : α → α) :
    (a.modify h f).capacity = a.capacity := by
  unfold modify capacity
  split
  · split
    · exact Array.size_setIfInBounds
    · rfl
  · rfl

theorem capacity_remove {h : Handle} {v : α} (e : a.remove? h = some (v, b)) :
    b.capacity = a.capacity := by
  unfold remove? at e
  split at e
  · split at e
    · cases e
      exact Array.size_setIfInBounds
    · cases e
  · cases e

@[simp] theorem capacity_clear (a : Arena α) : a.clear.capacity = a.capacity := by
  simp [capacity, clear]

theorem capacity_add (a : Arena α) (v : α) :
    (a.add v).2.capacity = if (a.add v).1.index = a.capacity then a.capacity + 1 else a.capacity := by
  rw [index_add]
  simp only [add]
  split
  · rename_i hc
    have hlt : a.vacant < a.capacity := (Array.getElem?_eq_some_iff.1 hc).1
    rw [if_neg (Nat.ne_of_lt hlt)]
    exact Array.size_setIfInBounds
  · rename_i hc
    have hvacant : a.vacant = a.capacity := by
      rcases vacantFrom_spec a.cells a.firstFree (a.cells.size - a.firstFree) with ⟨g, hg⟩ | hsize
      · rw [show a.cells[a.vacant]? = _ from hg] at hc
        cases hc
      · exact hsize
    rw [if_pos hvacant]
    exact Array.size_push _

theorem firstFree_add (a : Arena α) (v : α) : (a.add v).2.firstFree = (a.add v).1.index + 1 := by
  rw [index_add]
  simp only [add]
  split <;> rfl

theorem firstFree_remove {h : Handle} {v : α} (e : a.remove? h = some (v, b)) :
    b.firstFree = min a.firstFree h.index := by
  unfold remove? at e
  split at e
  · split at e
    · cases e
      rfl
    · cases e
  · cases e

@[simp] theorem firstFree_modify (a : Arena α) (h : Handle) (f : α → α) :
    (a.modify h f).firstFree = a.firstFree := by
  unfold modify
  split
  · split <;> rfl
  · rfl

/-- An operation opens one cell at most, for a value that it adds. -/
theorem capacity_perform (a : Arena α) (op : Operation α) :
    (a.perform op).capacity = a.capacity ∨
      (a.perform op).capacity = a.capacity + 1 ∧ ∃ v, op = .add v := by
  cases op with
  | add v =>
    simp only [perform, capacity_add]
    split
    · exact .inr ⟨rfl, v, rfl⟩
    · exact .inl rfl
  | remove h =>
    left
    simp only [perform]
    split
    · rename_i hremoved
      exact capacity_remove hremoved
    · rfl
  | modify h f => exact .inl (capacity_modify a h f)
  | clear => exact .inl (capacity_clear a)

theorem capacity_le_performAll (ops : List (Operation α)) (a : Arena α) :
    a.capacity ≤ (a.performAll ops).capacity := by
  induction ops generalizing a with
  | nil => exact Nat.le_refl _
  | cons op rest ih =>
    have hrest := ih (a.perform op)
    rw [performAll_cons]
    rcases capacity_perform a op with hsame | ⟨hmore, -⟩ <;> omega

/-! ### The hint -/

namespace Packed

theorem size_eq (ha : a.Packed) : a.size = (List.range a.capacity).countP a.occupied := by
  rw [ha.counted, length_toList_eq_countP]

theorem size_le (ha : a.Packed) : a.size ≤ a.capacity := by
  rw [ha.size_eq]
  exact List.countP_le_length.trans_eq List.length_range

/-- A full arena holds as many values as it has cells. -/
theorem size_of_full (ha : a.Packed) (hfull : ∀ i < a.capacity, a.occupied i = true) :
    a.size = a.capacity := by
  rw [ha.size_eq, List.countP_eq_length.2 fun i hi => hfull i (List.mem_range.1 hi),
    List.length_range]

/-- What comes before the cell of the next value is occupied: the hint vouches for the cells
below it, and the search for those from there on. -/
theorem occupied_of_lt_index (ha : a.Packed) (v : α) {i : Nat} (hi : i < (a.add v).1.index) :
    a.occupied i = true := by
  rcases Nat.lt_or_ge i a.firstFree with hlt | hge
  · exact ha.hint i hlt
  · have hle : a.firstFree ≤ a.cells.size := ha.hint_le
    rw [index_add] at hi
    exact occupied_of_lt_vacantFrom (by omega) hge hi

theorem index_le_capacity (ha : a.Packed) (v : α) : (a.add v).1.index ≤ a.capacity := by
  refine Nat.le_of_not_lt fun hlt => ?_
  exact Nat.lt_irrefl _ (lt_capacity_of_occupied (ha.occupied_of_lt_index v hlt))

theorem add (ha : a.Packed) (v : α) : (a.add v).2.Packed := by
  refine ⟨?_, fun i hi => ?_, ha.counted.add v⟩
  · have hle := ha.index_le_capacity v
    rw [firstFree_add, capacity_add]
    split <;> omega
  · rw [firstFree_add, Nat.lt_succ_iff_lt_or_eq] at hi
    rw [occupied_add]
    exact hi.symm.imp_right (ha.occupied_of_lt_index v)

theorem remove {h : Handle} {v : α} (ha : a.Packed) (e : a.remove? h = some (v, b)) : b.Packed := by
  refine ⟨?_, fun i hi => ?_, ha.counted.remove e⟩
  · rw [firstFree_remove e, capacity_remove e]
    exact (Nat.min_le_left ..).trans ha.hint_le
  · rw [firstFree_remove e, Nat.lt_min] at hi
    rw [occupied_remove e]
    exact ⟨Nat.ne_of_lt hi.2, ha.hint i hi.1⟩

theorem empty : (Arena.empty : Arena α).Packed :=
  ⟨Nat.le_refl 0, fun _ hi => absurd hi (Nat.not_lt_zero _), counted_empty⟩

theorem clear (a : Arena α) : a.clear.Packed :=
  ⟨Nat.zero_le _, fun _ hi => absurd hi (Nat.not_lt_zero _), counted_clear a⟩

theorem perform (ha : a.Packed) (op : Operation α) : (a.perform op).Packed := by
  cases op with
  | add v => exact ha.add v
  | remove h =>
    simp only [Arena.perform]
    split
    · rename_i hremoved
      exact ha.remove hremoved
    · exact ha
  | modify h f =>
    refine ⟨?_, fun i hi => ?_, ha.counted.modify h f⟩
    · simpa only [Arena.perform, firstFree_modify, capacity_modify] using ha.hint_le
    · simp only [Arena.perform, firstFree_modify, occupied_modify] at hi ⊢
      exact ha.hint i hi
  | clear => exact clear a

theorem performAll {ops : List (Operation α)} (ha : a.Packed) : (a.performAll ops).Packed := by
  induction ops generalizing a with
  | nil => exact ha
  | cons op rest ih => exact ih (ha.perform op)

/-- A cell is opened when all are occupied, and then the arena is full again. -/
theorem full_of_capacity_add (ha : a.Packed) {v : α}
    (hopened : (a.add v).2.capacity = a.capacity + 1) : ∀ i < a.capacity, a.occupied i = true := by
  intro i hi
  rw [capacity_add] at hopened
  split at hopened
  · rename_i hindex
    exact ha.occupied_of_lt_index v (hindex ▸ hi)
  · omega

theorem firstFit (ha : a.Packed) : a.FirstFit where
  hint_le := ha.hint_le
  hint := ha.hint
  size := ha.size_eq
  least v := ⟨occupied_index_add a v, fun _ hi => ha.occupied_of_lt_index v hi⟩
  occupies := occupied_add a
  grows := size_add a
  vacates := occupied_perform_remove a
  clears := occupied_clear a
  opened v := by
    rcases capacity_perform a (.add v) with hsame | ⟨hmore, -⟩
    · exact .inl hsame
    · exact .inr ⟨hmore, ha.full_of_capacity_add hmore⟩

end Packed

/-! ### The high-water mark -/

/-- At some time the arena was full. -/
theorem exists_full (ops : List (Operation α)) :
    ∃ past, past <+: ops ∧
      ((empty : Arena α).performAll past).size = ((empty : Arena α).performAll ops).capacity := by
  induction ops using List.reverseRecOn with
  | nil => exact ⟨[], List.prefix_rfl, rfl⟩
  | append_singleton ops op ih =>
    obtain ⟨past, hpast, hsize⟩ := ih
    have hpacked : ((empty : Arena α).performAll ops).Packed := Packed.empty.performAll
    rw [performAll_append, performAll_cons, performAll_nil]
    rcases capacity_perform ((empty : Arena α).performAll ops) op with hsame | ⟨hmore, v, rfl⟩
    · exact ⟨past, hpast.trans (List.prefix_append ..), hsize.trans hsame.symm⟩
    · refine ⟨ops ++ [.add v], List.prefix_rfl, ?_⟩
      rw [performAll_append, performAll_cons, performAll_nil, hmore,
        ← hpacked.size_of_full (hpacked.full_of_capacity_add hmore)]
      exact size_add _ v

/-- **Whatever is done to an arena**, values go to the first vacant cell, and there are as many
cells as there ever were values at one time. -/
theorem firstFit_performAll (ops : List (Operation α)) :
    ((empty : Arena α).performAll ops).FirstFit ∧
      IsGreatest {n | ∃ past, past <+: ops ∧ ((empty : Arena α).performAll past).size = n}
        ((empty : Arena α).performAll ops).capacity := by
  refine ⟨(Packed.empty.performAll).firstFit, exists_full ops, ?_⟩
  rintro n ⟨past, ⟨later, rfl⟩, rfl⟩
  have hpacked : ((empty : Arena α).performAll past).Packed := Packed.empty.performAll
  rw [performAll_append]
  exact hpacked.size_le.trans (capacity_le_performAll later _)

end Reachability.Arena
