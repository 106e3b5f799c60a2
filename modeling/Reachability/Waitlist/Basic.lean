import Reachability.Handle

/-! What a waitlist is: a policy for the order in which handles leave the
frontier.

A waitlist holds handles only; the states they name live elsewhere. The rank that
comes with a handle is its state's topological rank, which a policy may ignore.
A policy may refuse to remove on request, as long as it says so; then handles
can come out that name nothing any more. -/
namespace Reachability

class Waitlist (W : Type) where
  push : W → Handle → Nat → W
  /-- The next handle by the policy, and the others. -/
  pop? : W → Option (Handle × W)
  /-- Takes a handle out before its turn. The flag says whether it was taken out. -/
  remove : W → Handle → Bool × W
  size : W → Nat
  /-- The handles in the order in which they would be popped. -/
  toList : W → List Handle
  clear : W → W

namespace Waitlist
variable {W : Type} [Waitlist W]

def isEmpty (w : W) : Bool :=
  size w == 0

end Waitlist
end Reachability
