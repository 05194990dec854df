import Unr.Core.SignalOverflow
import Unr.Core.PlanChecks
import Unr.Mpi.Matching
import Unr.Mpi.SelfTransfer
import Unr.Mpi.Close
import Unr.Mpi.Restart
import Unr.Mpi.BatchTable
import Unr.Mpi.OrderedQueue
import Unr.Mpi.ExecuteBatch
import Unr.Uri.Counts
import Unr.Uri.Signalled
import Unr.Core.SigPoolRuns
import Unr.Core.PlanDeferred
import Unr.Verbs.Window
import Unr.Verbs.Credits
import Unr.Verbs.Notify
import Unr.Uri.PoolCreation
import Unr.Mpi.PoolRuns
import Unr.Core.MemDirectory
import Unr.Core.SplitTurns
import Unr.Mpi.PlanMessages
import Unr.Uri.PutGet
import Unr.Uri.EventCounts
import Unr.Verbs.FlagOpens
import Unr.Uru.QueueFifo
import Unr.Mpi.Compaction
import Unr.Core.Selection
import Unr.Verbs.Scratch
import Unr.Mpi.Progress
import Unr.Mpi.Stops
import Unr.Mpi.Triggered
import Unr.Mpi.Lifetimes
import Unr.Verbs.Progress
import Unr.Mpi.Wire
import Unr.Core.Lifecycle
import Unr.Verbs.Placed
import Unr.Verbs.Opening
