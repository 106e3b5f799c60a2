import Reachability.Arena.Basic

/-! The operations on an arena as data.

A sequence of operations is all that a user of an arena can do to it. A value is changed in
place through the handle that names it: the handle gives access to the value (`access?`), and
what is written through it takes the place of the value (`modify`). -/
namespace Reachability.Arena
variable {α : Type}

/-- The value that a handle gives access to for a change in place. -/
def access? (a : Arena α) (h : Handle) : Option α :=
  match a.cells[h.index]? with
  | some c => if c.generation = h.generation then c.value else none
  | none => none

inductive Operation (α : Type) where
  | add (v : α)
  | remove (h : Handle)
  | modify (h : Handle) (f : α → α)
  | clear

def perform (a : Arena α) : Operation α → Arena α
  | .add v => (a.add v).2
  | .remove h =>
    match a.remove? h with
    | some (_, b) => b
    | none => a
  | .modify h f => a.modify h f
  | .clear => a.clear

/-- The arena after a sequence of operations. -/
def performAll (a : Arena α) (ops : List (Operation α)) : Arena α :=
  ops.foldl perform a

@[simp] theorem performAll_nil (a : Arena α) : a.performAll [] = a := rfl

@[simp] theorem performAll_cons (a : Arena α) (op : Operation α) (ops : List (Operation α)) :
    a.performAll (op :: ops) = (a.perform op).performAll ops := rfl

theorem performAll_append (a : Arena α) (ops others : List (Operation α)) :
    a.performAll (ops ++ others) = (a.performAll ops).performAll others :=
  List.foldl_append

/-- Writing goes through the access: without it nothing changes. -/
theorem modify_eq (a : Arena α) (h : Handle) (f : α → α) :
    a.modify h f =
      match a.access? h with
      | some v => {a with cells := a.cells.setIfInBounds h.index ⟨some (f v), h.generation⟩}
      | none => a := by
  unfold modify access?
  cases a.cells[h.index]? with
  | none => rfl
  | some c =>
    obtain ⟨value, g⟩ := c
    by_cases hg : g = h.generation
    · cases value <;> simp [hg]
    · cases value <;> simp [hg]

end Reachability.Arena
