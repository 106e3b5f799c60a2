import Reachability.Waitlist.Order
import Reachability.Proofs.Waitlist.Ranked

/-! The built-in orders as one.

Which handle leaves next is the only difference between the orders. Everything else
can be said of a `Frontier` without asking which one it is: a push adds the handle to
the pop order, a pop takes its head, a removal erases the handle, and clearing leaves
nothing. The handle pushed must not wait already; a ranked waitlist depends on it
(`Frontier.Intact`). -/
namespace Reachability.Frontier

def Intact : Frontier → Prop
  | fifo _ => True
  | lifo _ => True
  | ranked w => w.Intact

theorem intact_ofOrder (o : TraversalOrder) : (ofOrder o).Intact := by
  cases o with
  | breadthFirst => trivial
  | depthFirst => trivial
  | topological => exact Ranked.intact_empty 0

theorem perm_toList_push (w : Frontier) (h : Handle) (rank : Nat) :
    (w.push h rank).toList.Perm (h :: w.toList) := by
  cases w with
  | fifo q =>
    show (q.push h).toList.Perm (h :: q.toList)
    rw [Fifo.toList_push]
    exact List.perm_append_singleton h q.toList
  | lifo s => exact .refl _
  | ranked w => exact (Ranked.perm_enter _ h w.queue).map Prod.snd

theorem mem_toList_push {w : Frontier} {h g : Handle} {rank : Nat} :
    g ∈ (w.push h rank).toList ↔ g = h ∨ g ∈ w.toList := by
  rw [(perm_toList_push w h rank).mem_iff, List.mem_cons]

@[simp] theorem toList_clear (w : Frontier) : w.clear.toList = [] := by
  cases w <;> rfl

namespace Intact
variable {w : Frontier}

theorem push (hw : w.Intact) {h : Handle} (hh : h ∉ w.toList) (rank : Nat) :
    (w.push h rank).Intact := by
  cases w with
  | fifo q => trivial
  | lifo s => trivial
  | ranked w => exact Ranked.Intact.push hw hh rank

theorem pop {r : Frontier} {h : Handle} (hw : w.Intact) (e : w.pop? = some (h, r)) : r.Intact := by
  cases w with
  | fifo q =>
    obtain ⟨⟨g, q'⟩, -, he⟩ := Option.map_eq_some_iff.1 e
    cases he
    trivial
  | lifo s =>
    obtain ⟨⟨g, s'⟩, -, he⟩ := Option.map_eq_some_iff.1 e
    cases he
    trivial
  | ranked w =>
    obtain ⟨⟨g, w'⟩, hw', he⟩ := Option.map_eq_some_iff.1 e
    cases he
    exact Ranked.Intact.pop hw hw'

theorem toList_remove (hw : w.Intact) (h : Handle) :
    (w.remove h).2.toList = w.toList.erase h := by
  cases w with
  | fifo q => exact Fifo.toList_remove q h
  | lifo s => exact Lifo.toList_remove s h
  | ranked w => exact Ranked.Intact.toList_remove hw h

/-- What is removed was there. -/
theorem remove_fst (hw : w.Intact) (h : Handle) : (w.remove h).1 = true ↔ h ∈ w.toList := by
  cases w with
  | fifo q => exact Fifo.remove_fst q h
  | lifo s => exact Lifo.remove_fst s h
  | ranked w => exact Ranked.Intact.remove_fst hw h

theorem remove (hw : w.Intact) (h : Handle) : (w.remove h).2.Intact := by
  cases w with
  | fifo q => trivial
  | lifo s => trivial
  | ranked w => exact Ranked.Intact.remove hw h

theorem clear (w : Frontier) : w.clear.Intact := by
  cases w with
  | fifo q => trivial
  | lifo s => trivial
  | ranked w => exact Ranked.intact_empty w.nextSerial

end Intact
end Reachability.Frontier
