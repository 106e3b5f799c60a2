import Reachability.State

/-! The states of a scripted analysis: a location, an interval and a tag.

The tag is for telling points apart by eye and takes no part in equality. There are
two readings of a point as an abstract state. In the `marked` one, location 99 is the
target and the rank of a location is its number, taken as an unsigned word. In the
`plain` one there are no targets and all ranks are equal. -/
namespace Reachability.Scenario

/-- A word, or the nearest bound if the number does not fit one. -/
def clamp (n : Int) : Int64 :=
  Int64.ofInt (max Int64.minValue.toInt (min Int64.maxValue.toInt n))

/-- A sum that stops at the bounds. -/
def saturatingAdd (a b : Int64) : Int64 :=
  clamp (a.toInt + b.toInt)

structure Point where
  loc : Int64
  lo : Int64 := 0
  hi : Int64 := 0
  tag : String := ""

namespace Point

instance : BEq Point where
  beq a b := a.loc == b.loc && a.lo == b.lo && a.hi == b.hi

def text (s : Point) : String :=
  "L" ++ toString s.loc ++ "[" ++ toString s.lo ++ "," ++ toString s.hi ++ "]" ++ s.tag

instance : ToString Point := ⟨text⟩

@[reducible] def plain : AbstractState Point where
  Location := Int64
  location := loc

@[reducible] def marked : AbstractState Point where
  Location := Int64
  location := loc
  isTarget s := s.loc == 99
  rank s := s.loc.toUInt64.toNat

/-- The second point with an interval that spans both. -/
def hull (s t : Point) : Point :=
  {t with lo := min t.lo s.lo, hi := max t.hi s.hi}

end Point
end Reachability.Scenario
