import Reachability.Reached.Basic
import Reachability.Text.Record

/-! A reached set in a few numbers, for people to read. -/
namespace Reachability.Reached
variable {S P W : Type} [AbstractState S] [Waitlist W]

def describe (r : Reached S P W) : Text.Record where
  name := "ReachedSet"
  fields :=
    [("size", toString r.size), ("waiting", toString r.waitlistSize),
      ("partitions", toString r.partitionCount), ("states_to_add", toString r.seeds.length)]

end Reachability.Reached
