import Reachability.Scenario.Point

/-! Edges of a scripted transfer relation. An edge leads from one location to another
and yields at most one successor: its guards come first and cut the interval down to
what passes, then its assignments follow in the order of their fields. -/
namespace Reachability.Scenario

structure Edge where
  source : Int64
  target : Int64
  /-- Passes values below the bound. -/
  below : Option Int64 := none
  /-- Passes values from the bound on. -/
  atLeast : Option Int64 := none
  /-- Passes precisions below the bound. -/
  precisionBelow : Option Int64 := none
  assign : Option (Int64 × Int64) := none
  /-- Added to both ends of the interval. -/
  shift : Option (Int64 × Int64) := none
  /-- Bits set in the lower end. -/
  raise : Option Int64 := none
  retag : Option String := none
  assignPrecision : Option Int64 := none
  shiftPrecision : Option Int64 := none

namespace Edge

def passBelow (bound : Option Int64) (s : Point) : Option Point :=
  match bound with
  | none => some s
  | some b => if b ≤ s.lo then none else some {s with hi := min s.hi (saturatingAdd b (-1))}

def passFrom (bound : Option Int64) (s : Point) : Option Point :=
  match bound with
  | none => some s
  | some b => if s.hi < b then none else some {s with lo := max s.lo b}

def passesPrecision (e : Edge) (p : Int64) : Bool :=
  match e.precisionBelow with
  | none => true
  | some b => p < b

/-- The assignments to the point. -/
def move (e : Edge) (s : Point) : Point :=
  let s := match e.assign with
    | some (lo, hi) => {s with lo, hi}
    | none => s
  let s := match e.shift with
    | some (a, b) => {s with lo := saturatingAdd s.lo a, hi := saturatingAdd s.hi b}
    | none => s
  let s := match e.raise with
    | some bits => {s with lo := s.lo ||| bits}
    | none => s
  {s with tag := e.retag.getD s.tag, loc := e.target}

/-- The assignments to the precision. -/
def movePrecision (e : Edge) (p : Int64) : Int64 :=
  let p := e.assignPrecision.getD p
  match e.shiftPrecision with
  | some d => saturatingAdd p d
  | none => p

def follow? (e : Edge) (s : Point) (p : Int64) : Option (Point × Int64) :=
  if e.source == s.loc && e.passesPrecision p then
    ((passBelow e.below s).bind (passFrom e.atLeast)).map fun s => (e.move s, e.movePrecision p)
  else none

end Edge

/-- The successors along all edges, in their order. -/
def successors (edges : List Edge) (s : Point) (p : Int64) : List (Point × Int64) :=
  edges.filterMap fun e => e.follow? s p

end Reachability.Scenario
