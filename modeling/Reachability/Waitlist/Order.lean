import Reachability.Waitlist.Fifo
import Reachability.Waitlist.Lifo
import Reachability.Waitlist.Ranked

/-! Traversal orders: the three policies a user chooses by name, and the frontier
that follows the chosen one. -/
namespace Reachability

inductive TraversalOrder where
  | breadthFirst
  | depthFirst
  | topological
deriving DecidableEq

namespace TraversalOrder

instance : Inhabited TraversalOrder := ⟨breadthFirst⟩

def text : TraversalOrder → String
  | breadthFirst => "bfs"
  | depthFirst => "dfs"
  | topological => "topological"

/-- A text that names no order, in lower case. -/
structure Unknown where
  name : String

def Unknown.message (e : Unknown) : String :=
  "Unknown traversal order '" ++ e.name ++ "'"

/-- Reads an order by its name or its long-standing abbreviation, in any mix of
ASCII letter case. -/
def parse (s : String) : Except Unknown TraversalOrder :=
  let name := s.map Char.toLower
  if name = "bfs" then .ok breadthFirst
  else if name = "dfs" then .ok depthFirst
  else if name = "topological" || name = "topsort" then .ok topological
  else .error ⟨name⟩

end TraversalOrder

/-- A waitlist of one of the built-in orders. -/
inductive Frontier where
  | fifo (w : Fifo)
  | lifo (w : Lifo)
  | ranked (w : Ranked)

namespace Frontier

def ofOrder : TraversalOrder → Frontier
  | .breadthFirst => fifo {}
  | .depthFirst => lifo {}
  | .topological => ranked {}

def push (w : Frontier) (h : Handle) (rank : Nat) : Frontier :=
  match w with
  | fifo w => fifo (w.push h)
  | lifo w => lifo (w.push h)
  | ranked w => ranked (w.push h rank)

def pop? : Frontier → Option (Handle × Frontier)
  | fifo w => w.pop?.map fun (h, w) => (h, fifo w)
  | lifo w => w.pop?.map fun (h, w) => (h, lifo w)
  | ranked w => w.pop?.map fun (h, w) => (h, ranked w)

def remove (w : Frontier) (h : Handle) : Bool × Frontier :=
  match w with
  | fifo w => let (found, w) := w.remove h; (found, fifo w)
  | lifo w => let (found, w) := w.remove h; (found, lifo w)
  | ranked w => let (found, w) := w.remove h; (found, ranked w)

def size : Frontier → Nat
  | fifo w => Waitlist.size w
  | lifo w => Waitlist.size w
  | ranked w => Waitlist.size w

def toList : Frontier → List Handle
  | fifo w => w.toList
  | lifo w => w.toList
  | ranked w => w.toList

def clear : Frontier → Frontier
  | fifo w => fifo (Waitlist.clear w)
  | lifo w => lifo (Waitlist.clear w)
  | ranked w => ranked (Waitlist.clear w)

instance : Waitlist Frontier where
  push := push
  pop? := pop?
  remove := remove
  size := size
  toList := toList
  clear := clear

theorem toList_ofOrder (o : TraversalOrder) : (ofOrder o).toList = [] := by
  cases o <;> rfl

/-- Whatever the order, popping splits the pop order at its head. -/
theorem pop?_eq_some {w r : Frontier} {h : Handle} (e : w.pop? = some (h, r)) :
    w.toList = h :: r.toList := by
  cases w with
  | fifo w =>
    obtain ⟨⟨g, q⟩, hq, he⟩ := Option.map_eq_some_iff.1 e
    cases he
    exact Fifo.pop?_eq_some hq
  | lifo w =>
    obtain ⟨⟨g, q⟩, hq, he⟩ := Option.map_eq_some_iff.1 e
    cases he
    exact Lifo.pop?_eq_some hq
  | ranked w =>
    obtain ⟨⟨g, q⟩, hq, he⟩ := Option.map_eq_some_iff.1 e
    cases he
    exact Ranked.pop?_eq_some hq

theorem pop?_eq_none_iff (w : Frontier) : w.pop? = none ↔ w.toList = [] := by
  cases w with
  | fifo w => exact Option.map_eq_none_iff.trans (Fifo.pop?_eq_none_iff w)
  | lifo w => exact Option.map_eq_none_iff.trans (Lifo.pop?_eq_none_iff w)
  | ranked w => exact Option.map_eq_none_iff.trans (Ranked.pop?_eq_none_iff w)

theorem length_toList (w : Frontier) : w.toList.length = w.size := by
  cases w with
  | fifo w => exact Fifo.length_toList w
  | lifo w => exact Lifo.length_toList w
  | ranked w => exact Ranked.length_toList w

end Frontier
end Reachability
