import Krio.Async.Captures
import Krio.Async.Preserved
import Krio.Parallel.IdleStop
import Krio.Parallel.Wedge
import Krio.Parallel.Placement
import Krio.Parallel.NonBlocking
import Krio.Parallel.Shutdown
import Krio.Parallel.Wakes
import Krio.Parallel.Work
import Krio.Parallel.MainAgent
import Krio.Parallel.Followed
import Krio.Parallel.AfterShutdown
import Krio.Parallel.ParkSlot
import Krio.Parallel.MixedRoles
import Krio.Parallel.BoundedList
import Krio.Parallel.Victims
import Krio.Parallel.Turns
import Krio.Fibers.Chain
import Krio.Fibers.Mailboxes
import Krio.Fibers.Lifecycle
import Krio.Fibers.Recency
import Krio.Switch.Raw
import Krio.Stackless.Kept
import Krio.Stackless.Suspensions
import Krio.Stackless.PriorityFair
import Krio.Stackless.PriorityPreserved
import Krio.Stackless.PriorityStrict
import Krio.Stackless.RoundLaws
import Krio.Runtime.RoundCount
import Krio.Lib.Simulation
