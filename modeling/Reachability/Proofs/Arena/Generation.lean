import Reachability.Proofs.Arena.Listing
import Mathlib.Data.List.Count

/-! Generations count how often a cell was vacated.

A cell that was never opened stands in its first generation, since that is the one it
will open in. Only removing and clearing move a cell on, by one for each occupant that
had to go (`generation_remove`, `generation_clear`), and the counter comes round after
2^32 of them. -/
namespace Reachability.Arena
variable {α : Type} {a b : Arena α}

def generation (a : Arena α) (i : Nat) : UInt32 :=
  (a.cells[i]?.map Cell.generation).getD 0

theorem generation_of_get? {h : Handle} {v : α} (e : a.get? h = some v) :
    a.generation h.index = h.generation := by
  simp [generation, get?_eq_some_iff.1 e]

@[simp] theorem generation_modify (a : Arena α) (h : Handle) (f : α → α) (i : Nat) :
    (a.modify h f).generation i = a.generation i := by
  unfold modify
  split
  · rename_i v g hc
    split
    · by_cases hi : h.index = i
      · subst hi
        obtain ⟨hlt, hget⟩ := Array.getElem?_eq_some_iff.1 hc
        simp [generation, hlt, hget]
      · simp [generation, hi]
    · rfl
  · rfl

/-- A value takes its cell as it is. -/
@[simp] theorem generation_add (a : Arena α) (v : α) (i : Nat) :
    (a.add v).2.generation i = a.generation i := by
  simp only [add]
  split
  · rename_i c hc
    obtain ⟨hlt, hget⟩ := Array.getElem?_eq_some_iff.1 hc
    by_cases hi : a.vacant = i
    · subst hi
      simp [generation, hlt, hget]
    · simp [generation, hi]
  · by_cases hi : i = a.cells.size
    · simp [generation, hi]
    · simp [generation, Array.getElem?_push, hi]

theorem generation_remove {h : Handle} {v : α} (e : a.remove? h = some (v, b)) (i : Nat) :
    b.generation i = a.generation i + if h.index = i then 1 else 0 := by
  unfold remove? at e
  split at e
  · rename_i w g hc
    split at e
    · cases e
      by_cases hi : h.index = i
      · subst hi
        obtain ⟨hlt, hget⟩ := Array.getElem?_eq_some_iff.1 hc
        simp [generation, hlt, hget]
      · simp [generation, hi]
    · cases e
  · cases e

theorem mem_indices_iff {i : Nat} :
    i ∈ a.toList.map (fun x => x.1.index) ↔ ∃ v g, a.cells[i]? = some ⟨some v, g⟩ := by
  simp only [List.mem_map, Prod.exists, mem_toList_iff, get?_eq_some_iff]
  constructor
  · rintro ⟨h, v, hc, rfl⟩
    exact ⟨v, h.generation, hc⟩
  · rintro ⟨v, g, hc⟩
    exact ⟨⟨i, g⟩, v, hc, rfl⟩

theorem nodup_indices (a : Arena α) : (a.toList.map fun x => x.1.index).Nodup :=
  List.pairwise_map.2 ((pairwise_toList a).imp Nat.ne_of_lt)

theorem generation_clear (a : Arena α) (i : Nat) :
    a.clear.generation i =
      a.generation i + UInt32.ofNat ((a.toList.map fun x => x.1.index).count i) := by
  rw [(nodup_indices a).count]
  by_cases hoccupied : i ∈ a.toList.map fun x => x.1.index
  · obtain ⟨v, g, hc⟩ := mem_indices_iff.1 hoccupied
    rw [if_pos hoccupied]
    simp [generation, clear, hc, Cell.vacate]
  · rw [if_neg hoccupied]
    cases hc : a.cells[i]? with
    | none => simp [generation, clear, hc]
    | some c =>
      obtain ⟨value, g⟩ := c
      cases value with
      | some v => exact absurd (mem_indices_iff.2 ⟨v, g, hc⟩) hoccupied
      | none => simp [generation, clear, hc, Cell.vacate]

end Reachability.Arena
