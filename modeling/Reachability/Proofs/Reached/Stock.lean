import Mathlib.Algebra.Order.Group.Multiset
import Reachability.Proofs.Arena.Listing
import Reachability.Proofs.Reached.Consistent

/-! The published states as a multiset.

In which cell of the arena a state is kept, and under which handle, depends on what was
removed before. The stock leaves this out. Publishing adds one state to it or none, removing
takes one away, and what only concerns the frontier or a precision leaves it alone. -/
namespace Reachability.Reached

open AbstractState (location)

variable {S P W : Type} [AbstractState S]

/-- The published states, in no order. -/
def stock (r : Reached S P W) : Multiset S :=
  r.states

@[simp] theorem mem_stock {r : Reached S P W} {s : S} : s ∈ r.stock ↔ s ∈ r.states :=
  Multiset.mem_coe

theorem stock_congr {r r' : Reached S P W} (hview : ∀ h, r'.state? h = r.state? h) :
    r'.stock = r.stock := by
  have hperm := (Arena.perm_map_toList hview).map Prod.snd
  rw [List.map_map, List.map_map] at hperm
  exact Multiset.coe_eq_coe.2 hperm

variable [Waitlist W]

theorem stock_of_pop {r r' : Reached S P W} {popped : Option Handle} (e : r.pop = (popped, r')) :
    r'.stock = r.stock :=
  stock_congr (state?_of_pop e)

theorem stock_publish (r : Reached S P W) (s : S) (p : P) :
    (r.publish s p).2.stock = s ::ₘ r.stock := by
  -- Putting the new pair into the frontier makes no difference.
  have hstock : (r.publish s p).2.stock = ({r with arena := (r.arena.add ⟨s, p, false⟩).2} :
      Reached S P W).stock := stock_congr fun h => by
    have hadded : (r.arena.add ⟨s, p, false⟩).2.get? h =
        if h = r.nextHandle s p then some ⟨s, p, false⟩ else r.arena.get? h :=
      Arena.get?_add_eq ..
    simp only [state?, get?_publish, hadded]
    split <;> rfl
  have hperm := (Arena.perm_toList_add r.arena ⟨s, p, false⟩).map fun x => x.2.state
  rw [hstock, stock, stock, Multiset.cons_coe]
  exact Multiset.coe_eq_coe.2 hperm

theorem stock_removeHandle (r : Reached S P W) (h : Handle) :
    r.stock = (r.state? h).toList + (r.removeHandle h).stock := by
  unfold removeHandle removeHandle?
  cases hrem : r.arena.remove? h with
  | none =>
    have hnone : r.state? h = none := by rw [state?, Arena.remove?_eq_none_iff.1 hrem]; rfl
    simp [hnone]
  | some removed =>
    obtain ⟨e, arena⟩ := removed
    have hstate : r.state? h = some e.state := by rw [state?, (Arena.get?_remove hrem).1]; rfl
    have hperm := (Arena.perm_toList_remove hrem).map fun x => x.2.state
    rw [hstate]
    exact Multiset.coe_eq_coe.2 hperm

/-- Each pair counts once, however often it is removed. -/
theorem stock_removeHandles {gone : List Handle} (hnodup : gone.Nodup) (r : Reached S P W) :
    r.stock = (gone.filterMap r.state? : List S) + (gone.foldl removeHandle r).stock := by
  induction gone generalizing r with
  | nil => simp
  | cons h rest ih =>
    obtain ⟨hout, hrest⟩ := List.nodup_cons.1 hnodup
    have hothers : rest.filterMap (r.removeHandle h).state? = rest.filterMap r.state? :=
      List.filterMap_congr fun g hg => by
        have hne : g ≠ h := fun hgh => hout (hgh ▸ hg)
        rw [state?_removeHandle, if_neg hne]
    have hhead : ((h :: rest).filterMap r.state? : List S) =
        (r.state? h).toList ++ rest.filterMap r.state? := by
      rw [List.filterMap_cons]
      cases r.state? h <;> rfl
    rw [List.foldl_cons, hhead, ← Multiset.coe_add, add_assoc, ← hothers, ← ih hrest]
    exact stock_removeHandle r h

variable [BEq S] [BEq P]

/-- A state is published, or one that equals it is there at its location. -/
theorem Consistent.stock_add {r : Reached S P Frontier} (hr : r.Consistent) (s : S) (p : P) :
    (r.add s p).2.stock = s ::ₘ r.stock ∨ (r.add s p).2.stock = r.stock ∧
      ∃ t ∈ r.states, location t = location s ∧ (t == s) = true := by
  cases hfind : r.find? s with
  | none =>
    rw [add_of_find?_eq_none hfind]
    exact .inl (stock_publish r s p)
  | some h =>
    obtain ⟨hmem, t, ht, hsame⟩ := find?_eq_some hfind
    refine .inr ⟨stock_congr fun g => ?_, t, mem_states_iff.2 ⟨h, ht⟩,
      hr.location_of_mem_handlesAt hmem ht, hsame⟩
    cases hg : (r.add s p).2.state? g with
    | none =>
      cases hbefore : r.state? g with
      | none => rfl
      | some u =>
        rw [state?_add_of_eq_some hbefore] at hg
        cases hg
    | some u =>
      refine ((state?_of_state?_add hg).resolve_right fun hfresh => ?_).symm
      rw [hfind] at hfresh
      cases hfresh.1

/-- Publishing occupies the location. -/
theorem Consistent.exists_mem_add {r : Reached S P Frontier} (hr : r.Consistent) (s : S) (p : P) :
    ∃ t ∈ (r.add s p).2.states, location t = location s := by
  rcases hr.stock_add s p with hadd | ⟨-, t, ht, hloc, -⟩
  · exact ⟨s, by rw [← mem_stock, hadd]; exact Multiset.mem_cons_self .., rfl⟩
  · exact ⟨t, mem_states_add_of_mem ht s p, hloc⟩

/-- What is published of a batch adds to what was there, and stands for the rest of it. -/
theorem Consistent.exists_stock_addAll [ReflBEq S] (fresh : List (S × P))
    {r : Reached S P Frontier} (hr : r.Consistent) :
    ∃ added ≤ (fresh.map Prod.fst : Multiset S),
      (fresh.foldl (fun r (s, p) => (r.add s p).2) r).stock = r.stock + added ∧
      ∀ x ∈ fresh, ∃ t ∈ r.stock + added, location t = location x.1 ∧ (t == x.1) = true := by
  induction fresh generalizing r with
  | nil => exact ⟨0, le_rfl, (add_zero _).symm, fun x hx => (List.not_mem_nil hx).elim⟩
  | cons pair rest ih =>
    obtain ⟨s, p⟩ := pair
    obtain ⟨added, hle, hstock, hrest⟩ := ih (hr.add s p)
    rcases hr.stock_add s p with hadd | ⟨hadd, t, ht, hloc, hsame⟩
    · rw [hadd, Multiset.cons_add, ← Multiset.add_cons] at hstock hrest
      refine ⟨s ::ₘ added, Multiset.cons_le_cons s hle, hstock, fun x hx => ?_⟩
      rcases List.mem_cons.1 hx with rfl | hx
      · exact ⟨s, Multiset.mem_add.2 (.inr (Multiset.mem_cons_self ..)), rfl, BEq.refl s⟩
      · exact hrest x hx
    · rw [hadd] at hstock hrest
      refine ⟨added, hle.trans (Multiset.le_cons_self ..), hstock, fun x hx => ?_⟩
      rcases List.mem_cons.1 hx with rfl | hx
      · exact ⟨t, Multiset.mem_add.2 (.inl (mem_stock.2 ht)), hloc, hsame⟩
      · exact hrest x hx

/-! ### Replacing pairs -/

namespace Consistent
variable {r : Reached S P Frontier} {gone : List Handle} {fresh : List (S × P)}

/-- Some of the stock is kept, and the rest makes room for states of the batch. -/
theorem exists_stock_update [ReflBEq S] (hr : r.Consistent) (hnodup : gone.Nodup)
    (fresh : List (S × P)) :
    ∃ kept, ∃ added ≤ (fresh.map Prod.fst : Multiset S),
      r.stock = kept + (gone.filterMap r.state? : List S) ∧
      (r.update gone fresh).stock = kept + added := by
  have hremoved : (gone.foldl Reached.removeHandle r).Consistent := stable.removeHandles gone hr
  obtain ⟨added, hle, hstock, -⟩ := hremoved.exists_stock_addAll fresh
  refine ⟨(gone.foldl Reached.removeHandle r).stock, added, hle, ?_, hstock⟩
  rw [add_comm]
  exact stock_removeHandles hnodup r

/-- What is not replaced is still published. -/
theorem mem_states_update [ReflBEq S] (hr : r.Consistent) {h : Handle} (hkept : h ∉ gone) {t : S}
    (ht : r.state? h = some t) : t ∈ (r.update gone fresh).states := by
  have hremoved : (gone.foldl Reached.removeHandle r).Consistent := stable.removeHandles gone hr
  obtain ⟨added, -, hstock, -⟩ := hremoved.exists_stock_addAll fresh
  have hleft : (gone.foldl Reached.removeHandle r).state? h = some t := by
    rwa [state?, get?_removeHandles, if_neg hkept]
  rw [← mem_stock, update, hstock]
  exact Multiset.mem_add.2 (.inl (mem_stock.2 (mem_states_iff.2 ⟨h, hleft⟩)))

/-- Each state of the batch is published, or one that equals it is there at its location. -/
theorem exists_mem_update [ReflBEq S] (hr : r.Consistent) (gone : List Handle) {x : S × P}
    (hx : x ∈ fresh) :
    ∃ t ∈ (r.update gone fresh).states, location t = location x.1 ∧ (t == x.1) = true := by
  have hremoved : (gone.foldl Reached.removeHandle r).Consistent := stable.removeHandles gone hr
  obtain ⟨added, -, hstock, hfresh⟩ := hremoved.exists_stock_addAll fresh
  obtain ⟨t, ht, hloc, hsame⟩ := hfresh x hx
  exact ⟨t, by rwa [← mem_stock, update, hstock], hloc, hsame⟩

end Consistent
end Reachability.Reached
