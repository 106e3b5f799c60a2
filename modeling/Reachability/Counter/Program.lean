import Reachability.Analysis

/-! Interval analysis of a counting loop, the demonstration that comes with the
library. The program under analysis counts `x` up to a bound and may jump to an error
location at a given value:

    L0: x = 0;
    L1: while (x < bound) x++, and if x = error, go to L3;
    L2: return;
    L3: fail;

A state is a location with an interval of values of `x`. Arithmetic is on 64-bit
words. -/
namespace Reachability.Counter

/-- The locations of the program. A location is known to the outside by its number, a 32-bit word,
and there is no location of any other number. The transfer relation would refuse a state elsewhere
("no such location"); since a state names one of these four, it never has to. -/
inductive Location where
  | start
  | loop
  | exit
  | error
deriving DecidableEq

def Location.number : Location → Nat
  | start => 0
  | loop => 1
  | exit => 2
  | error => 3

structure Interval where
  loc : Location
  lo : Int64
  hi : Int64
deriving DecidableEq

namespace Interval

instance : AbstractState Interval where
  Location := Location
  location := loc
  isTarget s := s.loc == .error
  rank s := s.loc.number

def text (s : Interval) : String :=
  "L" ++ toString s.loc.number ++ ": x in [" ++ toString s.lo ++ ", " ++ toString s.hi ++ "]"

instance : ToString Interval := ⟨text⟩

/-- Inclusion of intervals at one location. -/
def le (a b : Interval) : Bool :=
  a.loc == b.loc && b.lo ≤ a.lo && a.hi ≤ b.hi

/-- The least interval that includes both. -/
def join (a b : Interval) : Interval :=
  ⟨a.loc, min a.lo b.lo, max a.hi b.hi⟩

def domain : Domain Id Interval :=
  .ofFunctions le join

end Interval

structure Program where
  bound : Int64
  error : Option Int64 := none

namespace Program

/-- The interval after counting up once from `lo` to `hi`, split at the error value. -/
def countUp (error : Option Int64) (lo hi : Int64) : List Interval :=
  match error with
  | some e =>
    if lo ≤ e && e ≤ hi then
      [⟨.error, e, e⟩] ++ (if lo < e then [⟨.loop, lo, e - 1⟩] else []) ++
        (if e < hi then [⟨.loop, e + 1, hi⟩] else [])
    else [⟨.loop, lo, hi⟩]
  | none => [⟨.loop, lo, hi⟩]

/-- One step of the program from each value. At each of its locations there is an answer, so the
transfer relation of the demonstration never fails. -/
def successors (prog : Program) (s : Interval) : List Interval :=
  match s.loc with
  | .start => [⟨.loop, 0, 0⟩]
  | .loop =>
    (if s.lo < prog.bound then
      countUp prog.error (s.lo + 1) (min s.hi (prog.bound - 1) + 1)
    else []) ++
    (if prog.bound ≤ s.hi then [⟨.exit, max s.lo prog.bound, s.hi⟩] else [])
  | .exit | .error => []

end Program

/-- The analysis of a program: merging by the join or not at all, and halting at the
error location or not. There is nothing to choose for the precision. -/
def analysis {W : Type} (prog : Program) (join halt : Bool) : Analysis Unit Interval Unit W where
  transfer s _ := pure ((prog.successors s).map fun t => (t, ()))
  merge := if join then Merge.join Interval.domain.lift else Merge.separate
  stop := Stop.separate Interval.domain.lift.toComparison
  adjust := if halt then Adjustment.haltOnTarget Adjustment.keep else Adjustment.keep

end Reachability.Counter
