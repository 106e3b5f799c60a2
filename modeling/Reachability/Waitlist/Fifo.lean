import Reachability.Waitlist.Basic

/-! Breadth-first order: the oldest handle leaves first.

`front` is the part to pop from and `back` the part pushed since, newest first;
`toList` is the queue they stand for. -/
namespace Reachability

structure Fifo where
  front : List Handle := []
  back : List Handle := []

namespace Fifo

def toList (q : Fifo) : List Handle :=
  q.front ++ q.back.reverse

def size (q : Fifo) : Nat :=
  q.front.length + q.back.length

def push (q : Fifo) (h : Handle) : Fifo :=
  {q with back := h :: q.back}

def pop? (q : Fifo) : Option (Handle × Fifo) :=
  match q.front with
  | h :: rest => some (h, {q with front := rest})
  | [] =>
    match q.back.reverse with
    | h :: rest => some (h, ⟨rest, []⟩)
    | [] => none

/-- Takes out the oldest occurrence. -/
def remove (q : Fifo) (h : Handle) : Bool × Fifo :=
  if h ∈ q.toList then (true, ⟨q.toList.erase h, []⟩) else (false, q)

instance : Waitlist Fifo where
  push q h _ := q.push h
  pop? := pop?
  remove := remove
  size := size
  toList := toList
  clear _ := {}

@[simp] theorem toList_push (q : Fifo) (h : Handle) : (q.push h).toList = q.toList ++ [h] := by
  simp [toList, push]

theorem length_toList (q : Fifo) : q.toList.length = q.size := by
  simp [toList, size]

/-- Popping splits the queue at its head. -/
theorem pop?_eq_some {q r : Fifo} {h : Handle} (e : q.pop? = some (h, r)) :
    q.toList = h :: r.toList := by
  obtain ⟨front, back⟩ := q
  cases front with
  | cons g rest =>
    simp only [pop?, Option.some.injEq, Prod.mk.injEq] at e
    obtain ⟨rfl, rfl⟩ := e
    rfl
  | nil =>
    simp only [pop?] at e
    split at e
    · rename_i g rest hrev
      simp only [Option.some.injEq, Prod.mk.injEq] at e
      obtain ⟨rfl, rfl⟩ := e
      simp [toList, hrev]
    · cases e

theorem pop?_eq_none_iff (q : Fifo) : q.pop? = none ↔ q.toList = [] := by
  obtain ⟨front, back⟩ := q
  cases front with
  | cons h rest => simp [pop?, toList]
  | nil => cases hrev : back.reverse <;> simp [pop?, toList, hrev]

theorem toList_remove (q : Fifo) (h : Handle) : (q.remove h).2.toList = q.toList.erase h := by
  by_cases hmem : h ∈ q.toList
  · simp only [remove, if_pos hmem]
    exact List.append_nil _
  · simp only [remove, if_neg hmem]
    exact (List.erase_of_not_mem hmem).symm

theorem remove_fst (q : Fifo) (h : Handle) : (q.remove h).1 = true ↔ h ∈ q.toList := by
  unfold remove
  split <;> simp_all

end Fifo
end Reachability
