import Reachability.Proofs.Arena.Generation
import Reachability.Proofs.Reached.Elementary

/-! What a sequence of operations removes, and what becomes of the handles.

A handle that was not removed still names its state (`state?_performAll`). One that was
removed names nothing any more, although its cell may be used again: each removal takes
the cell to its next generation, and fewer than 2^32 removals do not bring it back to the
generation of the handle (`get?_performAll_of_mem_removals`). -/
namespace Reachability.Reached
variable {S P W : Type} [AbstractState S] [Waitlist W]

/-! ### What is removed -/

/-- The handles of a batch that name a pair when it is their turn to be removed. -/
def dropped (r : Reached S P W) : List Handle → List Handle
  | [] => []
  | h :: rest => (if r.arena.contains h then [h] else []) ++ (r.removeHandle h).dropped rest

/-- The handles that an operation removes. -/
def removed [BEq S] (r : Reached S P W) : Operation S P → List Handle
  | .removeHandle h => r.dropped [h]
  | .remove s => r.dropped (r.find? s).toList
  | .update gone _ => r.dropped gone
  | .clear => r.entries.map Prod.fst
  | _ => []

/-- The handles that a sequence of operations removes, in this order. -/
def removals [BEq S] [BEq P] (r : Reached S P W) : List (Operation S P) → List Handle
  | [] => []
  | op :: ops => r.removed op ++ (r.perform op).2.removals ops

theorem contains_removeHandle {r : Reached S P W} {h g : Handle} :
    (r.removeHandle h).arena.contains g = true ↔ g ≠ h ∧ r.arena.contains g = true := by
  rw [Arena.contains_eq, Arena.contains_eq, get?_removeHandle]
  split <;> simp_all

theorem mem_dropped_iff {r : Reached S P W} {gone : List Handle} {h : Handle} :
    h ∈ r.dropped gone ↔ h ∈ gone ∧ r.arena.contains h = true := by
  induction gone generalizing r with
  | nil => simp [dropped]
  | cons g rest ih =>
    simp only [dropped, List.mem_append, ih, contains_removeHandle, List.mem_cons,
      List.mem_ite_nil_right, List.not_mem_nil, or_false]
    constructor
    · rintro (⟨hlive, rfl⟩ | ⟨hmem, -, hlive⟩)
      · exact ⟨.inl rfl, hlive⟩
      · exact ⟨.inr hmem, hlive⟩
    · rintro ⟨hmem, hlive⟩
      by_cases hg : h = g
      · exact .inl ⟨hg ▸ hlive, hg⟩
      · exact .inr ⟨hmem.resolve_left hg, hg, hlive⟩

/-- Only what is published is removed. -/
theorem contains_of_mem_removed [BEq S] {r : Reached S P W} {op : Operation S P} {h : Handle}
    (hmem : h ∈ r.removed op) : r.arena.contains h = true := by
  cases op with
  | removeHandle g => exact (mem_dropped_iff.1 hmem).2
  | remove s => exact (mem_dropped_iff.1 hmem).2
  | update gone fresh => exact (mem_dropped_iff.1 hmem).2
  | clear => exact Arena.mem_handles_iff.1 hmem
  | _ => cases hmem

theorem removals_append [BEq S] [BEq P] (ops others : List (Operation S P)) (r : Reached S P W) :
    r.removals (ops ++ others) = r.removals ops ++ (r.performAll ops).removals others := by
  induction ops generalizing r with
  | nil => rfl
  | cons op rest ih =>
    rw [List.cons_append, removals, removals, ih, performAll_cons, List.append_assoc]

/-- Some operation removed it. -/
theorem exists_of_mem_removals [BEq S] [BEq P] {ops : List (Operation S P)} {r : Reached S P W}
    {h : Handle} (hmem : h ∈ r.removals ops) :
    ∃ op ∈ ops, ∃ r' : Reached S P W, h ∈ r'.removed op := by
  induction ops generalizing r with
  | nil => cases hmem
  | cons op rest ih =>
    rcases List.mem_append.1 hmem with hmem | hmem
    · exact ⟨op, List.mem_cons_self .., r, hmem⟩
    · obtain ⟨op', hop', hremoved⟩ := ih hmem
      exact ⟨op', List.mem_cons_of_mem _ hop', hremoved⟩

theorem perform_removeHandle [BEq S] [BEq P] (r : Reached S P W) (h : Handle) :
    (r.perform (.removeHandle h)).2 = [h].foldl removeHandle r := by
  simp only [perform, List.foldl_cons, List.foldl_nil, removeHandle]
  cases r.removeHandle? h <;> rfl

theorem perform_remove [BEq S] [BEq P] (r : Reached S P W) (s : S) :
    (r.perform (.remove s)).2 = (r.find? s).toList.foldl removeHandle r := by
  simp only [perform, remove]
  cases r.find? s with
  | none => rfl
  | some h =>
    simp only [Option.bind_some, Option.toList_some, List.foldl_cons, List.foldl_nil, removeHandle]
    cases r.removeHandle? h <;> rfl

/-! ### What is not removed stays -/

theorem state?_removeHandles {r : Reached S P W} {gone : List Handle} {h : Handle} {s : S}
    (hs : r.state? h = some s) (hkept : h ∉ r.dropped gone) :
    (gone.foldl removeHandle r).state? h = some s := by
  have hlive : r.arena.contains h = true := by
    obtain ⟨e, he, -⟩ := state?_eq_some_iff.1 hs
    rw [Arena.contains_eq, he]
    rfl
  have hout : h ∉ gone := fun hmem => hkept (mem_dropped_iff.2 ⟨hmem, hlive⟩)
  simp only [state?, get?_removeHandles, if_neg hout]
  exact hs

section
variable [BEq S] [BEq P]

theorem state?_addAll {fresh : List (S × P)} {r : Reached S P W} {h : Handle} {s : S}
    (hs : r.state? h = some s) :
    (fresh.foldl (fun r (s, p) => (r.add s p).2) r).state? h = some s := by
  induction fresh generalizing r with
  | nil => exact hs
  | cons pair rest ih => exact ih (state?_add_of_eq_some hs pair.1 pair.2)

theorem state?_perform {r : Reached S P W} {op : Operation S P} {h : Handle} {s : S}
    (hs : r.state? h = some s) (hkept : h ∉ r.removed op) :
    (r.perform op).2.state? h = some s := by
  cases op with
  | add t p => exact state?_add_of_eq_some hs t p
  | removeHandle g =>
    rw [perform_removeHandle]
    exact state?_removeHandles hs hkept
  | remove t =>
    rw [perform_remove]
    exact state?_removeHandles hs hkept
  | update gone fresh => exact state?_addAll (state?_removeHandles hs hkept)
  | updatePrecision g p =>
    simp only [perform, updatePrecision]
    split
    · rw [state?_enqueue, state?_setPrecision, hs]
    · exact hs
  | clear =>
    obtain ⟨e, he, -⟩ := state?_eq_some_iff.1 hs
    refine absurd (Arena.mem_handles_iff.2 ?_) hkept
    rw [Arena.contains_eq, he]
    rfl
  | pop => exact (state?_of_pop rfl h).trans hs
  | enqueue g => exact (state?_enqueue r g h).trans hs
  | _ => exact hs

/-- A handle that is not removed still names its state. -/
theorem state?_performAll {ops : List (Operation S P)} {r : Reached S P W} {h : Handle} {s : S}
    (hs : r.state? h = some s) (hkept : h ∉ r.removals ops) :
    (r.performAll ops).state? h = some s := by
  induction ops generalizing r with
  | nil => exact hs
  | cons op rest ih =>
    rw [removals, List.mem_append, not_or] at hkept
    exact ih (state?_perform hs hkept.1) hkept.2

end

/-! ### Generations -/

/-- How far removals take a cell, up to the turn of its counter. -/
def aging (gone : List Handle) (i : Nat) : UInt32 :=
  UInt32.ofNat ((gone.map Handle.index).count i)

theorem aging_nil (i : Nat) : aging [] i = 0 := by
  simp [aging]

theorem aging_append (gone others : List Handle) (i : Nat) :
    aging (gone ++ others) i = aging gone i + aging others i := by
  simp [aging, List.map_append, List.count_append]

/-- Fewer than 2^32 removals do not bring a cell back to where it was. -/
theorem aging_ne_zero {gone : List Handle} {h : Handle} (hmem : h ∈ gone)
    (hfew : gone.length < UInt32.size) : aging gone h.index ≠ 0 := by
  intro hzero
  have hpos : 0 < (gone.map Handle.index).count h.index :=
    List.count_pos_iff.2 (List.mem_map_of_mem hmem)
  have hle : (gone.map Handle.index).count h.index ≤ gone.length := by
    rw [← List.length_map Handle.index]
    exact List.count_le_length
  have hmod := congrArg UInt32.toNat hzero
  rw [aging, UInt32.toNat_ofNat_of_lt' (Nat.lt_of_le_of_lt hle hfew)] at hmod
  exact Nat.ne_of_gt hpos hmod

theorem generation_enqueue (r : Reached S P W) (h : Handle) (i : Nat) :
    (r.enqueue h).2.arena.generation i = r.arena.generation i := by
  unfold enqueue
  split
  · rfl
  · split
    · rfl
    · exact Arena.generation_modify ..

omit [Waitlist W] in
theorem generation_setPrecision (r : Reached S P W) (h : Handle) (p : P) (i : Nat) :
    (r.setPrecision h p).arena.generation i = r.arena.generation i :=
  Arena.generation_modify ..

theorem generation_of_pop {r r' : Reached S P W} {popped : Option Handle}
    (e : r.pop = (popped, r')) (i : Nat) : r'.arena.generation i = r.arena.generation i := by
  unfold pop at e
  split at e <;> cases e
  · exact Arena.generation_modify ..
  · rfl

theorem generation_removeHandles (gone : List Handle) (r : Reached S P W) (i : Nat) :
    (gone.foldl removeHandle r).arena.generation i =
      r.arena.generation i + aging (r.dropped gone) i := by
  induction gone generalizing r with
  | nil => simp [dropped, aging_nil]
  | cons h rest ih =>
    have hfirst : (r.removeHandle h).arena.generation i =
        r.arena.generation i + aging (if r.arena.contains h then [h] else []) i := by
      unfold removeHandle removeHandle?
      cases hrem : r.arena.remove? h with
      | none =>
        have hdead : r.arena.contains h = false := by
          rw [Arena.contains_eq, Arena.remove?_eq_none_iff.1 hrem]
          rfl
        simp [hdead, aging_nil]
      | some removed =>
        have hlive : r.arena.contains h = true := by
          rw [Arena.contains_eq, (Arena.get?_remove hrem).1]
          rfl
        simp only [hlive, if_true, Arena.generation_remove hrem]
        by_cases hi : h.index = i <;> simp [aging, hi]
    rw [List.foldl_cons, ih, hfirst, dropped, aging_append, UInt32.add_assoc]

variable [BEq S] [BEq P]

theorem generation_add (r : Reached S P W) (s : S) (p : P) (i : Nat) :
    (r.add s p).2.arena.generation i = r.arena.generation i := by
  unfold add
  split
  · simp only [publish, generation_enqueue, Arena.generation_add]
  · split
    · split
      · simp only [generation_enqueue, generation_setPrecision]
      · rfl
    · rfl

theorem generation_addAll (fresh : List (S × P)) (r : Reached S P W) (i : Nat) :
    (fresh.foldl (fun r (s, p) => (r.add s p).2) r).arena.generation i =
      r.arena.generation i := by
  induction fresh generalizing r with
  | nil => rfl
  | cons pair rest ih => rw [List.foldl_cons, ih, generation_add]

/-- A cell goes on by one generation for each of its occupants that is removed. -/
theorem generation_perform (r : Reached S P W) (op : Operation S P) (i : Nat) :
    (r.perform op).2.arena.generation i = r.arena.generation i + aging (r.removed op) i := by
  cases op with
  | add s p => simp [perform, removed, aging_nil, generation_add]
  | removeHandle h =>
    rw [perform_removeHandle]
    exact generation_removeHandles [h] r i
  | remove s =>
    rw [perform_remove]
    exact generation_removeHandles _ r i
  | update gone fresh =>
    show (fresh.foldl _ (gone.foldl removeHandle r)).arena.generation i = _
    rw [generation_addAll]
    exact generation_removeHandles gone r i
  | updatePrecision h p =>
    simp only [perform, updatePrecision, removed, aging_nil, UInt32.add_zero]
    split
    · rw [generation_enqueue, generation_setPrecision]
    · rfl
  | clear =>
    show r.arena.clear.generation i = _
    rw [Arena.generation_clear, removed, aging, List.map_map]
    rfl
  | pop =>
    simp only [removed, aging_nil, UInt32.add_zero]
    exact generation_of_pop rfl i
  | enqueue h => simp [perform, removed, aging_nil, generation_enqueue]
  | _ => simp [perform, removed, aging_nil, addInitial, takeSeeds]

theorem generation_performAll (ops : List (Operation S P)) (r : Reached S P W) (i : Nat) :
    (r.performAll ops).arena.generation i = r.arena.generation i + aging (r.removals ops) i := by
  induction ops generalizing r with
  | nil => simp [removals, aging_nil]
  | cons op rest ih =>
    rw [performAll_cons, ih, generation_perform, removals, aging_append, UInt32.add_assoc]

/-- A handle that is removed names nothing afterwards, whoever moves into its cell. -/
theorem get?_performAll_of_mem_removals {ops : List (Operation S P)} {r : Reached S P W}
    {h : Handle} (hmem : h ∈ r.removals ops) (hfew : (r.removals ops).length < UInt32.size) :
    (r.performAll ops).arena.get? h = none := by
  induction ops generalizing r with
  | nil => cases hmem
  | cons op rest ih =>
    rw [removals] at hmem hfew
    by_cases hnow : h ∈ r.removed op
    · have hall : h ∈ r.removed op ++ (r.perform op).2.removals rest :=
        List.mem_append_left _ hnow
      have hlive := contains_of_mem_removed hnow
      rw [Arena.contains_eq] at hlive
      obtain ⟨e, he⟩ := Option.isSome_iff_exists.1 hlive
      cases hafter : (r.performAll (op :: rest)).arena.get? h with
      | none => rfl
      | some e' =>
        -- Named before and after, the cell would have come round to the same generation.
        have hage := generation_performAll (op :: rest) r h.index
        rw [Arena.generation_of_get? he, Arena.generation_of_get? hafter, removals] at hage
        have hzero : aging (r.removed op ++ (r.perform op).2.removals rest) h.index = 0 := by
          simpa using hage
        exact absurd hzero (aging_ne_zero hall hfew)
    · refine ih ((List.mem_append.1 hmem).resolve_left hnow) (Nat.lt_of_le_of_lt ?_ hfew)
      rw [List.length_append]
      exact Nat.le_add_left ..

end Reachability.Reached
