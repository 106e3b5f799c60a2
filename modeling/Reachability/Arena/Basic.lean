import Reachability.Handle

/-! A slot arena addressed by generation-checked handles.

Values sit in numbered cells. Removing a value vacates its cell and moves the
cell to its next generation, which is what makes every handle given out before
useless; adding a value takes the first vacant cell, and opens a new one only
when there is none. `firstFree` is a hint: no cell below it is vacant. Generations
are 32 bits wide and wrap around. -/
namespace Reachability

structure Cell (α : Type) where
  value : Option α
  generation : UInt32

namespace Cell
variable {α : Type}

/-- The cell without its occupant. An already vacant cell keeps its generation:
no handle into it is outstanding. -/
def vacate (c : Cell α) : Cell α :=
  match c.value with
  | some _ => ⟨none, c.generation + 1⟩
  | none => c

end Cell

structure Arena (α : Type) where
  cells : Array (Cell α) := #[]
  firstFree : Nat := 0
  size : Nat := 0

namespace Arena
variable {α : Type}

def empty : Arena α := {}

instance : Inhabited (Arena α) := ⟨empty⟩

/-- How many cells were ever opened. -/
def capacity (a : Arena α) : Nat :=
  a.cells.size

def isEmpty (a : Arena α) : Bool :=
  a.size == 0

/-- The cell a handle names, provided its occupant is the one the handle was
given out for. -/
def cell? (a : Arena α) (h : Handle) : Option (Cell α) :=
  a.cells[h.index]?.filter fun c => c.generation == h.generation && c.value.isSome

def contains (a : Arena α) (h : Handle) : Bool :=
  (a.cell? h).isSome

def get? (a : Arena α) (h : Handle) : Option α :=
  (a.cell? h).bind Cell.value

/-- Changes the value a handle names, and nothing if it names none. -/
def modify (a : Arena α) (h : Handle) (f : α → α) : Arena α :=
  match a.cells[h.index]? with
  | some ⟨some v, g⟩ =>
    if g = h.generation then
      {a with cells := a.cells.setIfInBounds h.index ⟨some (f v), g⟩}
    else a
  | _ => a

/-- The first vacant cell among the `n` cells from `i` on, or else the cell that
would be opened next. -/
def vacantFrom (cells : Array (Cell α)) : Nat → Nat → Nat
  | _, 0 => cells.size
  | i, n + 1 =>
    match cells[i]? with
    | some ⟨none, _⟩ => i
    | _ => vacantFrom cells (i + 1) n

/-- The cell the next value goes to. -/
def vacant (a : Arena α) : Nat :=
  vacantFrom a.cells a.firstFree (a.cells.size - a.firstFree)

def add (a : Arena α) (v : α) : Handle × Arena α :=
  let i := a.vacant
  match a.cells[i]? with
  | some c =>
    (⟨i, c.generation⟩,
      { cells := a.cells.setIfInBounds i ⟨some v, c.generation⟩
        firstFree := i + 1
        size := a.size + 1 })
  | none =>
    (⟨i, 0⟩,
      { cells := a.cells.push ⟨some v, 0⟩
        firstFree := i + 1
        size := a.size + 1 })

/-- Takes out the value a handle names; `none` if it names none. -/
def remove? (a : Arena α) (h : Handle) : Option (α × Arena α) :=
  match a.cells[h.index]? with
  | some ⟨some v, g⟩ =>
    if g = h.generation then
      some (v,
        { cells := a.cells.setIfInBounds h.index ⟨none, g + 1⟩
          firstFree := min a.firstFree h.index
          size := a.size - 1 })
    else none
  | _ => none

/-- Vacates every cell. The cells stay open, so that no handle into them is
given out twice. -/
def clear (a : Arena α) : Arena α :=
  { cells := a.cells.map Cell.vacate, firstFree := 0, size := 0 }

/-- What occupies the cells from number `i` on. -/
def occupants : Nat → List (Cell α) → List (Handle × α)
  | _, [] => []
  | i, ⟨some v, g⟩ :: rest => (⟨i, g⟩, v) :: occupants (i + 1) rest
  | i, ⟨none, _⟩ :: rest => occupants (i + 1) rest

/-- The values with their handles, in the order of the cells. -/
def toList (a : Arena α) : List (Handle × α) :=
  occupants 0 a.cells.toList

end Arena
end Reachability
