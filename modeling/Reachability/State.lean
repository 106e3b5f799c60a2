/-! What the exploration has to know of an abstract state.

States are otherwise opaque. Equality of states is the domain's own; it tells a
merge that changed nothing, and states that were published before. -/
namespace Reachability

class AbstractState (S : Type) where
  Location : Type
  decideLocation : DecidableEq Location := by infer_instance
  /-- Merge and stop only ever compare states of one location. -/
  location : S → Location
  /-- Whether the state violates the property under analysis. -/
  isTarget : S → Bool := fun _ => false
  /-- Topological order expands states of smaller rank first. -/
  rank : S → Nat := fun _ => 0

instance {S : Type} [AbstractState S] : DecidableEq (AbstractState.Location S) :=
  AbstractState.decideLocation

end Reachability
