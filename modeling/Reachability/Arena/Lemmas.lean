import Reachability.Arena.Basic

/-! What the operations of an arena do to what its handles name.

`get?` is the view: a handle names the occupant of its cell if the generations agree
(`get?_eq`). Each operation is described by the view afterwards, and `toList` lists
the view (`mem_toList_iff`). -/
namespace Reachability

namespace Cell
variable {α : Type}

/-- The occupant, to whoever holds a handle of the given generation. -/
def seenBy (c : Cell α) (g : UInt32) : Option α :=
  if c.generation = g then c.value else none

@[simp] theorem seenBy_vacant (g k : UInt32) : (⟨none, g⟩ : Cell α).seenBy k = none := by
  simp [seenBy]

@[simp] theorem seenBy_self (value : Option α) (g : UInt32) :
    (⟨value, g⟩ : Cell α).seenBy g = value := by
  simp [seenBy]

theorem seenBy_of_ne {g k : UInt32} (h : g ≠ k) (value : Option α) :
    (⟨value, g⟩ : Cell α).seenBy k = none := by
  simp [seenBy, h]

end Cell

namespace Arena
variable {α : Type}

theorem get?_eq (a : Arena α) (h : Handle) :
    a.get? h = a.cells[h.index]?.bind fun c => c.seenBy h.generation := by
  unfold get? cell?
  cases a.cells[h.index]? with
  | none => rfl
  | some c =>
    obtain ⟨value, g⟩ := c
    by_cases hg : g = h.generation
    · cases value <;> simp [Option.filter, hg]
    · simp [Option.filter, hg, Cell.seenBy_of_ne hg]

theorem get?_eq_some_iff {a : Arena α} {h : Handle} {v : α} :
    a.get? h = some v ↔ a.cells[h.index]? = some ⟨some v, h.generation⟩ := by
  rw [get?_eq]
  cases a.cells[h.index]? with
  | none => simp
  | some c =>
    obtain ⟨value, g⟩ := c
    by_cases hg : g = h.generation
    · simp [hg]
    · simp [hg, Cell.seenBy_of_ne hg]

theorem contains_eq (a : Arena α) (h : Handle) : a.contains h = (a.get? h).isSome := by
  rw [get?_eq]
  unfold contains cell?
  cases a.cells[h.index]? with
  | none => rfl
  | some c =>
    obtain ⟨value, g⟩ := c
    by_cases hg : g = h.generation
    · cases value <;> simp [Option.filter, hg]
    · simp [Option.filter, hg, Cell.seenBy_of_ne hg]

@[simp] theorem get?_empty (h : Handle) : (empty : Arena α).get? h = none := by
  simp [get?_eq, empty]

theorem index_lt_of_get? {a : Arena α} {h : Handle} {v : α} (e : a.get? h = some v) :
    h.index < a.cells.size :=
  (Array.getElem?_eq_some_iff.1 (get?_eq_some_iff.1 e)).1

/-! ### Changing -/

theorem modify_of_get? {a : Arena α} {h : Handle} {v : α} (e : a.get? h = some v) (f : α → α) :
    a.modify h f =
      {a with cells := a.cells.setIfInBounds h.index ⟨some (f v), h.generation⟩} := by
  simp only [modify, get?_eq_some_iff.1 e, if_true]

theorem modify_of_get?_eq_none {a : Arena α} {h : Handle} (e : a.get? h = none) (f : α → α) :
    a.modify h f = a := by
  unfold modify
  split
  · rename_i v k hc
    by_cases hk : k = h.generation
    · rw [get?_eq, hc] at e
      simp [hk] at e
    · rw [if_neg hk]
  · rfl

theorem get?_modify (a : Arena α) (h : Handle) (f : α → α) (g : Handle) :
    (a.modify h f).get? g = if g = h then (a.get? h).map f else a.get? g := by
  by_cases hgh : g = h
  · subst hgh
    rw [if_pos rfl]
    cases e : a.get? g with
    | some v => simp [modify_of_get? e, get?_eq, index_lt_of_get? e]
    | none =>
      rw [modify_of_get?_eq_none e, e]
      rfl
  · rw [if_neg hgh]
    unfold modify
    split
    · rename_i v k hc
      split
      · rename_i hk
        rw [get?_eq, get?_eq]
        by_cases hi : g.index = h.index
        · have hgen : k ≠ g.generation := fun hkg => hgh (by
            cases g; cases h; simp_all)
          obtain ⟨hlt, hget⟩ := Array.getElem?_eq_some_iff.1 hc
          simp [hi, hlt, hget, Cell.seenBy_of_ne hgen]
        · simp [Ne.symm hi]
      · rfl
    · rfl

/-- Two changes of one value are one change. -/
theorem modify_modify (a : Arena α) (h : Handle) (f g : α → α) :
    (a.modify h f).modify h g = a.modify h fun v => g (f v) := by
  cases e : a.get? h with
  | none => rw [modify_of_get?_eq_none e, modify_of_get?_eq_none e, modify_of_get?_eq_none e]
  | some v =>
    have hchanged : (a.modify h f).get? h = some (f v) := by
      rw [get?_modify, if_pos rfl, e]
      rfl
    rw [modify_of_get? hchanged, modify_of_get? e, modify_of_get? e]
    simp

/-- Nothing changes if the value does not. -/
theorem modify_eq_self {a : Arena α} {h : Handle} {f : α → α}
    (hf : ∀ v, a.get? h = some v → f v = v) : a.modify h f = a := by
  cases e : a.get? h with
  | none => exact modify_of_get?_eq_none e f
  | some v =>
    obtain ⟨hlt, hget⟩ := Array.getElem?_eq_some_iff.1 (get?_eq_some_iff.1 e)
    rw [modify_of_get? e, hf v e, ← hget, Array.setIfInBounds, dif_pos hlt, Array.set_getElem_self]

@[simp] theorem size_modify (a : Arena α) (h : Handle) (f : α → α) : (a.modify h f).size = a.size := by
  unfold modify
  split
  · split <;> rfl
  · rfl

/-! ### Removing -/

theorem remove?_eq_none_iff {a : Arena α} {h : Handle} : a.remove? h = none ↔ a.get? h = none := by
  rw [get?_eq]
  unfold remove?
  cases a.cells[h.index]? with
  | none => simp
  | some c =>
    obtain ⟨value, g⟩ := c
    by_cases hg : g = h.generation
    · cases value <;> simp [hg]
    · cases value <;> simp [hg, Cell.seenBy_of_ne hg]

/-- The value that is taken out is the one the handle named, and nothing is left that
the cell could show. -/
theorem get?_remove {a b : Arena α} {h : Handle} {v : α} (e : a.remove? h = some (v, b)) :
    a.get? h = some v ∧
      ∀ g, b.get? g = if g.index = h.index then none else a.get? g := by
  unfold remove? at e
  split at e
  · rename_i w k hc
    split at e
    · rename_i hk
      simp only [Option.some.injEq, Prod.mk.injEq] at e
      obtain ⟨rfl, rfl⟩ := e
      have hlt : h.index < a.cells.size := (Array.getElem?_eq_some_iff.1 hc).1
      refine ⟨by simp [get?_eq, hc, hk], fun g => ?_⟩
      rw [get?_eq, get?_eq]
      by_cases hi : g.index = h.index
      · simp [hi, hlt]
      · simp [hi, Ne.symm hi]
    · cases e
  · cases e

/-- A cell shows its occupant under one generation only. -/
theorem eq_of_index_eq {a : Arena α} {g h : Handle} {v w : α} (hg : a.get? g = some v)
    (hh : a.get? h = some w) (hi : g.index = h.index) : g = h := by
  obtain ⟨i, k⟩ := g
  obtain ⟨j, l⟩ := h
  simp only at hi
  subst hi
  have hcg : a.cells[i]? = some ⟨some v, k⟩ := get?_eq_some_iff.1 hg
  have hch : a.cells[i]? = some ⟨some w, l⟩ := get?_eq_some_iff.1 hh
  rw [hcg, Option.some.injEq, Cell.mk.injEq] at hch
  rw [hch.2]

/-- Removing kills the one handle and no other. -/
theorem get?_remove_eq {a b : Arena α} {h : Handle} {v : α} (e : a.remove? h = some (v, b))
    (g : Handle) : b.get? g = if g = h then none else a.get? g := by
  obtain ⟨hv, hb⟩ := get?_remove e
  rw [hb]
  by_cases hi : g.index = h.index
  · by_cases hgh : g = h
    · simp [hgh]
    · cases hg : a.get? g with
      | none => simp [hi]
      | some w => exact absurd (eq_of_index_eq hg hv hi) hgh
  · have hgh : g ≠ h := fun hgh => hi (by rw [hgh])
    simp [hi, hgh]

@[simp] theorem get?_clear (a : Arena α) (h : Handle) : a.clear.get? h = none := by
  rw [get?_eq]
  simp only [clear, Array.getElem?_map]
  cases a.cells[h.index]? with
  | none => rfl
  | some c =>
    obtain ⟨value, g⟩ := c
    cases value <;> simp [Cell.vacate]

/-! ### Adding -/

/-- The cell found is vacant, or it is the next one to be opened. -/
theorem vacantFrom_spec (cells : Array (Cell α)) (i n : Nat) :
    (∃ g, cells[vacantFrom cells i n]? = some ⟨none, g⟩) ∨ vacantFrom cells i n = cells.size := by
  induction n generalizing i with
  | zero => exact .inr rfl
  | succ n ih =>
    unfold vacantFrom
    split
    · rename_i g hc
      exact .inl ⟨g, hc⟩
    · exact ih (i + 1)

/-- The new handle names the new value, no other handle of its cell names anything,
and the rest is as before. -/
theorem get?_add (a : Arena α) (v : α) (g : Handle) :
    (a.add v).2.get? g =
      if g.index = (a.add v).1.index then (if g = (a.add v).1 then some v else none)
      else a.get? g := by
  rcases vacantFrom_spec a.cells a.firstFree (a.cells.size - a.firstFree) with ⟨k, hc⟩ | hsize
  · have hlt := (Array.getElem?_eq_some_iff.1 hc).1
    have hadd : a.add v = (⟨a.vacant, k⟩,
        { cells := a.cells.setIfInBounds a.vacant ⟨some v, k⟩
          firstFree := a.vacant + 1
          size := a.size + 1 }) := by
      simp only [add, vacant, hc]
    rw [hadd, get?_eq, get?_eq]
    by_cases hi : g.index = a.vacant
    · have hlt' : a.vacant < a.cells.size := hlt
      by_cases hk : k = g.generation
      · have hg : g = ⟨a.vacant, k⟩ := by cases g; simp_all
        simp [hg, hlt']
      · have hg : g ≠ ⟨a.vacant, k⟩ := fun e => hk (by rw [e])
        simp [hi, hg, hlt', Cell.seenBy_of_ne hk]
    · simp [hi, Ne.symm hi]
  · have hnone : a.cells[a.vacant]? = none := Array.getElem?_eq_none (Nat.le_of_eq hsize.symm)
    have hadd : a.add v = (⟨a.vacant, 0⟩,
        { cells := a.cells.push ⟨some v, 0⟩
          firstFree := a.vacant + 1
          size := a.size + 1 }) := by
      simp only [add, hnone]
    have hv : a.vacant = a.cells.size := hsize
    rw [hadd, get?_eq, get?_eq]
    by_cases hi : g.index = a.cells.size
    · by_cases hk : 0 = g.generation
      · have hg : g = ⟨a.vacant, 0⟩ := by cases g; simp_all
        simp [hg, hv]
      · have hg : g ≠ ⟨a.cells.size, 0⟩ := fun e => hk (by rw [e])
        simp [hi, hg, hv, Cell.seenBy_of_ne hk]
    · simp [Array.getElem?_push, hi, hv]

/-- A value is never added under a handle that is in use. -/
theorem get?_add_fresh (a : Arena α) (v : α) : a.get? (a.add v).1 = none := by
  rw [get?_eq]
  rcases vacantFrom_spec a.cells a.firstFree (a.cells.size - a.firstFree) with ⟨k, hc⟩ | hsize
  · have hc' : a.cells[a.vacant]? = some ⟨none, k⟩ := hc
    simp [add, hc']
  · have hnone : a.cells[a.vacant]? = none := Array.getElem?_eq_none (Nat.le_of_eq hsize.symm)
    simp [add, hnone]

theorem index_add (a : Arena α) (v : α) : (a.add v).1.index = a.vacant := by
  simp only [add]
  split <;> rfl

/-- Nothing is named in the cell that the next value goes to. -/
theorem get?_of_index_eq_vacant {a : Arena α} {h : Handle} (hi : h.index = a.vacant) :
    a.get? h = none := by
  rw [get?_eq, hi]
  rcases vacantFrom_spec a.cells a.firstFree (a.cells.size - a.firstFree) with ⟨k, hc⟩ | hsize
  · have hc' : a.cells[a.vacant]? = some ⟨none, k⟩ := hc
    simp [hc']
  · have hnone : a.cells[a.vacant]? = none := Array.getElem?_eq_none (Nat.le_of_eq hsize.symm)
    simp [hnone]

/-- Adding brings the one handle to life and changes no other. -/
theorem get?_add_eq (a : Arena α) (v : α) (g : Handle) :
    (a.add v).2.get? g = if g = (a.add v).1 then some v else a.get? g := by
  rw [get?_add]
  by_cases hi : g.index = (a.add v).1.index
  · rw [if_pos hi, get?_of_index_eq_vacant (hi.trans (index_add a v))]
  · have hg : g ≠ (a.add v).1 := fun hg => hi (by rw [hg])
    rw [if_neg hi, if_neg hg]

theorem get?_add_self (a : Arena α) (v : α) : (a.add v).2.get? (a.add v).1 = some v := by
  rw [get?_add, if_pos rfl, if_pos rfl]

/-! ### Listing -/

theorem mem_occupants_iff {cells : List (Cell α)} {i : Nat} {h : Handle} {v : α} :
    (h, v) ∈ occupants i cells ↔
      i ≤ h.index ∧ cells[h.index - i]? = some ⟨some v, h.generation⟩ := by
  induction cells generalizing i with
  | nil => simp [occupants]
  | cons c rest ih =>
    obtain ⟨value, g⟩ := c
    rcases Nat.lt_trichotomy h.index i with hlt | heq | hgt
    · have hne : h ≠ ⟨i, g⟩ := fun e => by rw [e] at hlt; exact Nat.lt_irrefl _ hlt
      cases value <;> simp [occupants, ih, hne] <;> omega
    · have hout : ¬ i + 1 ≤ h.index := by omega
      cases value with
      | none =>
        simp only [occupants, ih, hout, false_and, false_iff]
        simp [heq]
      | some w =>
        simp only [occupants, List.mem_cons, Prod.mk.injEq, ih, hout, false_and, or_false]
        constructor
        · rintro ⟨rfl, rfl⟩
          simp
        · rintro ⟨-, hc⟩
          simp only [heq, Nat.sub_self, List.getElem?_cons_zero, Option.some.injEq, Cell.mk.injEq] at hc
          obtain ⟨rfl, hg⟩ := hc
          cases h
          simp_all
    · have hne : h ≠ ⟨i, g⟩ := fun e => by rw [e] at hgt; exact Nat.lt_irrefl _ hgt
      have hsub : h.index - i = (h.index - (i + 1)) + 1 := by omega
      cases value <;> simp [occupants, ih, hne, hsub] <;> omega

/-- The list holds what the handles name. -/
theorem mem_toList_iff {a : Arena α} {h : Handle} {v : α} :
    (h, v) ∈ a.toList ↔ a.get? h = some v := by
  rw [get?_eq_some_iff, toList, mem_occupants_iff]
  simp

theorem index_ge_of_mem_occupants {cells : List (Cell α)} {i : Nat} {entry : Handle × α}
    (h : entry ∈ occupants i cells) : i ≤ entry.1.index :=
  (mem_occupants_iff.1 h).1

theorem pairwise_occupants (cells : List (Cell α)) (i : Nat) :
    (occupants i cells).Pairwise fun x y => x.1.index < y.1.index := by
  induction cells generalizing i with
  | nil => exact .nil
  | cons c rest ih =>
    obtain ⟨value, g⟩ := c
    cases value with
    | none => exact ih (i + 1)
    | some v => exact .cons (fun _ hx => index_ge_of_mem_occupants hx) (ih (i + 1))

/-- The list goes up the cells. -/
theorem pairwise_toList (a : Arena α) : a.toList.Pairwise fun x y => x.1.index < y.1.index :=
  pairwise_occupants _ 0

end Arena
end Reachability
