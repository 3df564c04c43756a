import Lazily.Context.Consistency
import Lazily.Context.Symmetry
import Lazily.Context.Coalescing
import Lazily.Context.Survivors
import Lazily.Context.Cycle
import Lazily.Collection.Reconciliation
import Lazily.Sync.Projection
import Lazily.Sync.AtLeastOnce
import Lazily.Ingress.Invalidation
import Lazily.Ingress.Fence
import Lazily.Crdt.AntiEntropy
import Lazily.Crdt.MvRegister
import Lazily.Crdt.Advertise
import Lazily.Crdt.Convergence
import Lazily.Statechart.Legality
import Lazily.Egress.Conservation
import Lazily.Durable.LatestDesire
import Lazily.Durable.OwnerCommits
import Lazily.Queue.Leases
import Lazily.Queue.TopicDelivery
import Lazily.Boundary.OpenKeys
import Lazily.Boundary.Cursor
import Lazily.Boundary.Cell
import Lazily.Command.Terminality
import Lazily.Text.DeltaSync
import Lazily.Text.Splice
import Lazily.Relay.Spill
import Lazily.Stdlib.Barrier
import Lazily.Bridge.Authority
import Lazily.Bridge.Isolation
import Lazily.Concurrent.Merge
import Lazily.Signaling.Agreement
import Lazily.Signaling.Binding
import Lazily.Transport.Backends
import Lazily.Collection.Reentrancy
import Lazily.ThreadSafe.Recycled
import Lazily.Realtime.RateShape
import Lazily.Realtime.Resilience
import Lazily.Durable.Reconciliation
import Lazily.Exhaustion
