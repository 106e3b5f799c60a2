/-! Handles: how a published pair is named.

A handle is a slot number together with the generation of the slot at the time
the handle was given out. A slot may be used again after its occupant is gone,
but under the next generation, so a handle kept too long names nothing rather
than a newcomer. -/
namespace Reachability

structure Handle where
  index : Nat
  generation : UInt32
deriving DecidableEq

namespace Handle

/-- The first occupant of a slot is named by the slot alone. -/
def text (h : Handle) : String :=
  if h.generation = 0 then "s" ++ toString h.index
  else "s" ++ toString h.index ++ "." ++ toString h.generation.toNat

instance : ToString Handle := ⟨text⟩

end Handle
end Reachability
