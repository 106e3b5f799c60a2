import Reachability.Arena.Operation
import Reachability.Proofs.Arena.Generation

/-! Which cells of an arena are occupied.

A handle is live exactly when its cell is occupied and stands in the generation of the handle
(`contains_iff`). Adding occupies one cell, removing vacates one, clearing vacates all, and
nothing else has to do with occupancy. A cell goes on to its next generation exactly when it is
vacated, so that over a sequence of operations its generation counts how often it was
(`generation_performAll`). -/
namespace Reachability.Arena
variable {α : Type} {a b : Arena α}

def occupied (a : Arena α) (i : Nat) : Bool :=
  (a.cells[i]?.bind Cell.value).isSome

theorem occupied_eq_true_iff {i : Nat} :
    a.occupied i = true ↔ ∃ v g, a.cells[i]? = some ⟨some v, g⟩ := by
  unfold occupied
  cases a.cells[i]? with
  | none => simp
  | some c =>
    obtain ⟨value, g⟩ := c
    cases value <;> simp

theorem occupied_of_get? {h : Handle} {v : α} (e : a.get? h = some v) :
    a.occupied h.index = true :=
  occupied_eq_true_iff.2 ⟨v, h.generation, get?_eq_some_iff.1 e⟩

/-- A handle is live while its cell is occupied and in the generation of the handle. -/
theorem contains_iff {h : Handle} :
    a.contains h = true ↔ a.occupied h.index = true ∧ a.generation h.index = h.generation := by
  rw [contains_eq, Option.isSome_iff_exists]
  constructor
  · rintro ⟨v, hv⟩
    exact ⟨occupied_of_get? hv, generation_of_get? hv⟩
  · rintro ⟨hoccupied, hgeneration⟩
    obtain ⟨v, g, hc⟩ := occupied_eq_true_iff.1 hoccupied
    have hg : g = h.generation := by
      simpa [generation, hc] using hgeneration
    exact ⟨v, get?_eq_some_iff.2 (hg ▸ hc)⟩

/-- A cell is occupied if some live handle names it. -/
theorem occupied_iff_exists {i : Nat} :
    a.occupied i = true ↔ ∃ h, h.index = i ∧ a.contains h = true := by
  constructor
  · intro hi
    exact ⟨⟨i, a.generation i⟩, rfl, contains_iff.2 ⟨hi, rfl⟩⟩
  · rintro ⟨h, rfl, hlive⟩
    exact (contains_iff.1 hlive).1

/-! ### After an operation -/

theorem occupied_eq_iff_of_contains (i : Nat)
    (hview : ∀ h : Handle, h.index = i → (b.contains h = true ↔ a.contains h = true)) :
    b.occupied i = a.occupied i := by
  rw [Bool.eq_iff_iff, occupied_iff_exists, occupied_iff_exists]
  exact exists_congr fun h => and_congr_right (hview h)

@[simp] theorem occupied_modify (a : Arena α) (h : Handle) (f : α → α) (i : Nat) :
    (a.modify h f).occupied i = a.occupied i := by
  refine occupied_eq_iff_of_contains i fun g _ => ?_
  rw [contains_eq, contains_eq, get?_modify]
  by_cases hg : g = h
  · simp [hg]
  · simp [hg]

theorem occupied_add (a : Arena α) (v : α) (i : Nat) :
    (a.add v).2.occupied i = true ↔ i = (a.add v).1.index ∨ a.occupied i = true := by
  by_cases hi : i = (a.add v).1.index
  · rw [hi]
    simp [occupied_of_get? (get?_add_self a v)]
  · have hview : (a.add v).2.occupied i = a.occupied i := by
      refine occupied_eq_iff_of_contains i fun g hg => ?_
      have hne : g ≠ (a.add v).1 := fun e => hi (by rw [← hg, e])
      rw [contains_eq, contains_eq, get?_add_eq, if_neg hne]
    simp [hi, hview]

/-- The cell that a value goes to was vacant. -/
theorem occupied_index_add (a : Arena α) (v : α) : a.occupied (a.add v).1.index = false := by
  rw [← Bool.not_eq_true, occupied_iff_exists]
  rintro ⟨h, hi, hlive⟩
  rw [contains_eq, get?_of_index_eq_vacant (hi.trans (index_add a v))] at hlive
  cases hlive

theorem occupied_remove {h : Handle} {v : α} (e : a.remove? h = some (v, b)) (i : Nat) :
    b.occupied i = true ↔ i ≠ h.index ∧ a.occupied i = true := by
  obtain ⟨-, hview⟩ := get?_remove e
  by_cases hi : i = h.index
  · have hvacant : ¬ b.occupied i = true := fun hoccupied => by
      obtain ⟨g, hg, hlive⟩ := occupied_iff_exists.1 hoccupied
      rw [contains_eq, hview, if_pos (hg.trans hi)] at hlive
      cases hlive
    simp [hi, hi ▸ hvacant]
  · have hsame : b.occupied i = a.occupied i := by
      refine occupied_eq_iff_of_contains i fun g hg => ?_
      rw [contains_eq, contains_eq, hview, if_neg (hg ▸ hi)]
    simp [hi, hsame]

/-- A handle that is dead vacates nothing. -/
theorem occupied_perform_remove (a : Arena α) (h : Handle) (i : Nat) :
    (a.perform (.remove h)).occupied i = true ↔
      a.occupied i = true ∧ ¬ (i = h.index ∧ a.contains h = true) := by
  cases hremoved : a.remove? h with
  | none =>
    have hdead : a.contains h = false := by
      rw [contains_eq, remove?_eq_none_iff.1 hremoved]
      rfl
    simp [perform, hremoved, hdead]
  | some removed =>
    obtain ⟨v, b⟩ := removed
    have hlive : a.contains h = true := by
      rw [contains_eq, (get?_remove hremoved).1]
      rfl
    simp only [perform, hremoved, occupied_remove hremoved, hlive, and_true]
    exact and_comm

@[simp] theorem occupied_clear (a : Arena α) (i : Nat) : a.clear.occupied i = false := by
  rw [← Bool.not_eq_true, occupied_iff_exists]
  rintro ⟨h, -, hlive⟩
  rw [contains_eq, get?_clear] at hlive
  cases hlive

/-! ### Vacating -/

/-- Whether an operation vacates a cell. -/
def vacates (a : Arena α) (i : Nat) (op : Operation α) : Bool :=
  a.occupied i && !(a.perform op).occupied i

/-- How often a sequence of operations vacates a cell. -/
def vacatings (a : Arena α) (i : Nat) : List (Operation α) → Nat
  | [] => 0
  | op :: ops => (if a.vacates i op then 1 else 0) + (a.perform op).vacatings i ops

theorem vacatings_append (ops others : List (Operation α)) (a : Arena α) (i : Nat) :
    a.vacatings i (ops ++ others) =
      a.vacatings i ops + (a.performAll ops).vacatings i others := by
  induction ops generalizing a with
  | nil => simp [vacatings]
  | cons op rest ih => rw [List.cons_append, vacatings, vacatings, ih, performAll_cons, Nat.add_assoc]

/-- A cell that is never vacated stays occupied. -/
theorem occupied_performAll {ops : List (Operation α)} {a : Arena α} {i : Nat}
    (hi : a.occupied i = true) (hkept : a.vacatings i ops = 0) :
    (a.performAll ops).occupied i = true := by
  induction ops generalizing a with
  | nil => exact hi
  | cons op rest ih =>
    rw [vacatings, Nat.add_eq_zero_iff] at hkept
    refine ih ?_ hkept.2
    simpa [vacates, hi] using hkept.1

theorem generation_clear_eq (a : Arena α) (i : Nat) :
    a.clear.generation i = a.generation i + if a.occupied i then 1 else 0 := by
  rw [generation_clear, (nodup_indices a).count]
  by_cases hi : a.occupied i = true
  · rw [if_pos hi, if_pos (mem_indices_iff.2 (occupied_eq_true_iff.1 hi))]
    rfl
  · rw [if_neg hi, if_neg fun hmem => hi (occupied_eq_true_iff.2 (mem_indices_iff.1 hmem))]
    rfl

theorem generation_perform (a : Arena α) (op : Operation α) (i : Nat) :
    (a.perform op).generation i = a.generation i + if a.vacates i op then 1 else 0 := by
  cases op with
  | add v =>
    have hstays : a.vacates i (.add v) = false := by
      by_cases hi : a.occupied i = true
      · simp [vacates, perform, (occupied_add a v i).2 (.inr hi)]
      · simp [vacates, hi]
    rw [hstays]
    simp [perform]
  | remove h =>
    cases hremoved : a.remove? h with
    | none => simp [vacates, perform, hremoved]
    | some removed =>
      obtain ⟨v, b⟩ := removed
      have hoccupied := occupied_of_get? (get?_remove hremoved).1
      simp only [vacates, perform, hremoved, generation_remove hremoved]
      by_cases hi : h.index = i
      · have hvacant : b.occupied i = false := by
          rw [← Bool.not_eq_true, occupied_remove hremoved]
          exact fun hout => hout.1 hi.symm
        rw [hi] at hoccupied
        simp [hi, hoccupied, hvacant]
      · have hiff := occupied_remove hremoved i
        cases hold : a.occupied i <;> simp [hi, hold, Ne.symm hi] at hiff ⊢
        exact hiff
  | modify h f => simp [vacates, perform]
  | clear => simp [vacates, perform, generation_clear_eq]

/-- A cell goes on by one generation each time it is vacated, and comes round after 2^32. -/
theorem generation_performAll (ops : List (Operation α)) (a : Arena α) (i : Nat) :
    (a.performAll ops).generation i = a.generation i + UInt32.ofNat (a.vacatings i ops) := by
  induction ops generalizing a with
  | nil => simp [vacatings]
  | cons op rest ih =>
    rw [performAll_cons, ih, generation_perform, vacatings, UInt32.ofNat_add, UInt32.add_assoc]
    split <;> rfl

end Reachability.Arena
