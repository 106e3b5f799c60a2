import Reachability.Waitlist.Basic

/-! The operations on a waitlist as data. -/
namespace Reachability.Waitlist

inductive Operation where
  | push (h : Handle) (rank : Nat)
  | pop
  | remove (h : Handle)
  | clear

variable {W : Type} [Waitlist W]

def perform (w : W) : Operation → W
  | .push h rank => push w h rank
  | .pop =>
    match pop? w with
    | some (_, rest) => rest
    | none => w
  | .remove h => (remove w h).2
  | .clear => clear w

theorem perform_pop_of_eq_none {w : W} (e : pop? w = none) : perform w .pop = w := by
  simp only [perform, e]

theorem perform_pop_of_eq_some {w rest : W} {h : Handle} (e : pop? w = some (h, rest)) :
    perform w .pop = rest := by
  simp only [perform, e]

/-- The waitlist after a sequence of operations. -/
def performAll (w : W) (ops : List Operation) : W :=
  ops.foldl perform w

/-- Popping until nothing is left gives these handles, in this order. -/
inductive Drains : W → List Handle → Prop
  | done {w : W} : pop? w = none → Drains w []
  | next {w rest : W} {h : Handle} {hs : List Handle} :
      pop? w = some (h, rest) → Drains rest hs → Drains w (h :: hs)

end Reachability.Waitlist
