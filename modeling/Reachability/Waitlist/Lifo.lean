import Reachability.Waitlist.Basic

/-! Depth-first order: the newest handle leaves first. The stack is kept newest
first, so it is its own pop order. -/
namespace Reachability

structure Lifo where
  stack : List Handle := []

namespace Lifo

def toList (s : Lifo) : List Handle :=
  s.stack

def push (s : Lifo) (h : Handle) : Lifo :=
  ⟨h :: s.stack⟩

def pop? (s : Lifo) : Option (Handle × Lifo) :=
  match s.stack with
  | h :: rest => some (h, ⟨rest⟩)
  | [] => none

/-- Takes out the newest occurrence. -/
def remove (s : Lifo) (h : Handle) : Bool × Lifo :=
  if h ∈ s.stack then (true, ⟨s.stack.erase h⟩) else (false, s)

instance : Waitlist Lifo where
  push s h _ := s.push h
  pop? := pop?
  remove := remove
  size s := s.stack.length
  toList := toList
  clear _ := {}

@[simp] theorem toList_push (s : Lifo) (h : Handle) : (s.push h).toList = h :: s.toList := rfl

theorem pop?_eq_some {s r : Lifo} {h : Handle} (e : s.pop? = some (h, r)) :
    s.toList = h :: r.toList := by
  obtain ⟨stack⟩ := s
  cases stack with
  | nil => cases e
  | cons g rest =>
    simp only [pop?, Option.some.injEq, Prod.mk.injEq] at e
    obtain ⟨rfl, rfl⟩ := e
    rfl

theorem length_toList (s : Lifo) : s.toList.length = Waitlist.size s := rfl

theorem pop?_eq_none_iff (s : Lifo) : s.pop? = none ↔ s.toList = [] := by
  obtain ⟨stack⟩ := s
  cases stack <;> simp [pop?, toList]

theorem toList_remove (s : Lifo) (h : Handle) : (s.remove h).2.toList = s.toList.erase h := by
  by_cases hmem : h ∈ s.stack
  · simp only [remove, if_pos hmem, toList]
  · simp only [remove, if_neg hmem, toList]
    exact (List.erase_of_not_mem hmem).symm

theorem remove_fst (s : Lifo) (h : Handle) : (s.remove h).1 = true ↔ h ∈ s.toList := by
  unfold remove
  split <;> simp_all [toList]

end Lifo
end Reachability
