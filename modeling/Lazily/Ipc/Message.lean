import Lazily.Lib.Framing
import Lazily.Lib.SortedMap

/-!
# IPC messages (`ipc.rs`, `generated/delta.rs`, `distributed.rs`)

The frames peers exchange, and the allowlist of what a peer may read and write. Node keys, type tags
and stamps are carried, not looked into.
-/

namespace Lazily.Ipc

open Lib

abbrev NodeId := Nat

abbrev PeerId := Nat

abbrev IpcPayload := List Byte

inductive BlobBackendKind where
  | shm
  | arrow
  | inProcess
  deriving DecidableEq, Repr

/-- The descriptor of a payload kept in a blob backend. -/
structure ShmBlobRef where
  offset : Nat
  len : Nat
  generation : Nat
  epoch : Nat
  checksum : Nat
  backend : BlobBackendKind
  deriving DecidableEq, Repr

inductive IpcValue where
  | inline (bytes : IpcPayload)
  | sharedBlob (descriptor : ShmBlobRef)
  deriving DecidableEq, Repr

inductive NodeState where
  | payload (bytes : IpcPayload)
  | sharedBlob (descriptor : ShmBlobRef)
  | opaqueState
  deriving DecidableEq, Repr

structure NodeSnapshot where
  node : NodeId
  typeTag : String
  state : NodeState
  key : Option String
  deriving DecidableEq, Repr

structure EdgeSnapshot where
  dependent : NodeId
  dependency : NodeId
  deriving DecidableEq, Repr

structure Snapshot where
  epoch : Nat
  nodes : List NodeSnapshot
  edges : List EdgeSnapshot
  roots : List NodeId
  deriving DecidableEq, Repr

inductive DeltaOp where
  | cellSet (node : NodeId) (payload : IpcValue)
  | slotValue (node : NodeId) (payload : IpcValue)
  | invalidate (node : NodeId)
  | nodeAdd (node : NodeId) (typeTag : String) (state : NodeState) (key : Option String)
  | nodeRemove (node : NodeId)
  | edgeAdd (dependent dependency : NodeId)
  | edgeRemove (dependent dependency : NodeId)
  | queuePush (node : NodeId) (payload : IpcValue)
  | queuePop (node : NodeId)
  | queueClose (node : NodeId)
  deriving DecidableEq, Repr

structure Delta where
  baseEpoch : Nat
  epoch : Nat
  ops : List DeltaOp
  deriving DecidableEq, Repr

structure WireStamp where
  wallTime : Nat
  logical : Nat
  peer : Nat
  deriving DecidableEq, Repr

structure CrdtOp where
  node : NodeId
  key : Option String
  stamp : WireStamp
  state : IpcValue
  deriving DecidableEq, Repr

/-- A frontier advertisement with a batch of ops. -/
structure CrdtSync where
  frontier : List (Nat × WireStamp)
  ops : List CrdtOp
  deriving DecidableEq, Repr

inductive IpcMessage where
  | snapshot (snapshot : Snapshot)
  | delta (delta : Delta)
  | crdtSync (sync : CrdtSync)
  | resyncRequest (fromEpoch : Nat)
  | outboxAck (throughEpoch : Nat)
  | deltaSinceRequest (frontier : List (Nat × WireStamp))
  deriving DecidableEq, Repr

/-! ## Permissions -/

inductive OpKind where
  | read
  | write
  | triggerEffect
  deriving DecidableEq, Repr

structure RemoteOp where
  kind : OpKind
  node : NodeId
  deriving DecidableEq, Repr

/-- What one peer may do, one set of nodes for each kind. -/
structure PeerAllowlist where
  readable : List NodeId
  writable : List NodeId
  triggerable : List NodeId
  deriving DecidableEq, Repr

def PeerAllowlist.setRef (allow : PeerAllowlist) : OpKind → List NodeId
  | .read => allow.readable
  | .write => allow.writable
  | .triggerEffect => allow.triggerable

/-- The allowlist of each peer; a peer without one is denied. -/
structure PeerPermissions where
  peers : SortedMap PeerId PeerAllowlist

namespace PeerPermissions

def isAllowed (perms : PeerPermissions) (peer : PeerId) (op : RemoteOp) : Bool :=
  perms.peers[peer]?.any fun allow => (allow.setRef op.kind).contains op.node

def canRead (perms : PeerPermissions) (peer : PeerId) (node : NodeId) : Bool :=
  perms.isAllowed peer ⟨.read, node⟩

end PeerPermissions

/-! ## Read filters -/

/-- Whether a peer may see an operation. -/
def DeltaOp.readable (perms : PeerPermissions) (peer : PeerId) : DeltaOp → Bool
  | .cellSet node _ | .slotValue node _ | .invalidate node | .nodeAdd node _ _ _
  | .nodeRemove node | .queuePush node _ | .queuePop node | .queueClose node =>
    perms.canRead peer node
  | .edgeAdd dependent dependency | .edgeRemove dependent dependency =>
    perms.canRead peer dependent && perms.canRead peer dependency

def Delta.filterReadable (delta : Delta) (perms : PeerPermissions) (peer : PeerId) : Delta :=
  { delta with ops := delta.ops.filter (·.readable perms peer) }

/-- Leave out the ops on nodes a peer may not read; the frontier stays. -/
def CrdtSync.filterReadable (sync : CrdtSync) (perms : PeerPermissions) (peer : PeerId) :
    CrdtSync :=
  { sync with ops := sync.ops.filter fun op => perms.canRead peer op.node }

end Lazily.Ipc
