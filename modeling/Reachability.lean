import Reachability.Main
import Reachability.Session
import Reachability.Waitlist.Deferred
import Reachability.Proofs.Explicit
import Reachability.Proofs.Join.Independence
import Reachability.Proofs.Join.Termination
import Reachability.Proofs.Reached.Intact
import Reachability.Proofs.Run.Abandoned
import Reachability.Proofs.Coverage.Union
import Reachability.Proofs.Coverage.Target
import Reachability.Proofs.Join.Crowding
import Reachability.Proofs.Join.Circling
import Reachability.Proofs.Deferred.Run
import Reachability.Proofs.Graph.Survey
import Reachability.Proofs.Run.Idle
import Reachability.Proofs.Run.Cancellation
import Reachability.Proofs.Graph.Deduplication
import Reachability.Proofs.Counter.Exact
import Reachability.Proofs.Run.Merging
import Reachability.Proofs.Graph.Upward
import Reachability.Proofs.Graph.Layers
import Reachability.Proofs.Run.Halting
import Reachability.Proofs.Arena.Lifetime
import Reachability.Proofs.Arena.FirstFit
import Reachability.Proofs.Waitlist.Docket
import Reachability.Proofs.Reached.Publication
import Reachability.Proofs.Coverage.Candidates
import Reachability.Proofs.Reached.Leading
import Reachability.Proofs.Reached.Resting
import Reachability.Proofs.Run.Accounting
import Reachability.Proofs.Statistics.Averages
