import Lazily.Lib.Table
import Mathlib.Data.List.Sort

/-!
# The signaling room (`room-core.ts`, `permissions.ts`)

A room keeps the roster of a session as two maps, from peers to connections and back. It answers
joins with the roster, announces joins and leaves to everyone else, and forwards frames to the peer
they are addressed to, under the id of the connection that sent them.

Connections are compared by identity. The ids that reach a room are safe integers, which the frame
decoder has checked. The payload of a relay is opaque. A frame's `to` is its
`dest` here, and a `from` its `sender`.
-/

namespace Lazily.Signaling

open Lib

abbrev PeerId := Nat

inductive ErrorCode where
  | badMessage | notJoined | alreadyJoined | duplicatePeer | unknownTarget | permissionDenied
  deriving DecidableEq, Repr

inductive DirectedKind where
  | offer | answer | ice | relay
  deriving DecidableEq, Repr

inductive ClientMessage (V : Type) where
  | join (peer : PeerId)
  | offer (dest : PeerId) (sdp : String)
  | answer (dest : PeerId) (sdp : String)
  | ice (dest : PeerId) (candidate : String)
  | relay (dest : PeerId) (payload : V)
  | leave
  deriving DecidableEq, Repr

inductive ServerMessage (V : Type) where
  | welcome (peer : PeerId) (peers : List PeerId)
  | peerJoined (peer : PeerId)
  | peerLeft (peer : PeerId)
  | offer (sender : PeerId) (sdp : String)
  | answer (sender : PeerId) (sdp : String)
  | ice (sender : PeerId) (candidate : String)
  | relay (sender : PeerId) (payload : V)
  | error (code : ErrorCode) (message : String)
  deriving DecidableEq, Repr

/-! ## Permissions -/

inductive SignalingMode where
  | opened | allowlist
  deriving DecidableEq, Repr

inductive SignalOp where
  | join
  | directed (kind : DirectedKind) (dest : PeerId)
  deriving DecidableEq, Repr

structure PeerGrants where
  join : Bool
  targets : List PeerId
  deriving DecidableEq, Repr

structure SignalingPermissions where
  mode : SignalingMode
  peers : Table PeerId PeerGrants

namespace SignalingPermissions

variable (permissions : SignalingPermissions) (peer : PeerId)

def grants : PeerGrants :=
  (permissions.peers.lookup peer).getD ⟨false, []⟩

def allowJoin : SignalingPermissions :=
  { permissions with
    peers := permissions.peers.insert peer { permissions.grants peer with join := true } }

def allowSignal (target : PeerId) : SignalingPermissions :=
  let g := permissions.grants peer
  { permissions with
    peers := permissions.peers.insert peer { g with targets := target :: g.targets } }

def allowMany (targets : List PeerId) : SignalingPermissions :=
  let g := permissions.grants peer
  { permissions with peers := permissions.peers.insert peer ⟨true, targets ++ g.targets⟩ }

def revokePeer : SignalingPermissions :=
  { permissions with peers := permissions.peers.erase peer }

def isAllowed (op : SignalOp) : Bool :=
  match permissions.mode with
  | .opened => true
  | .allowlist =>
    match permissions.peers.lookup peer, op with
    | none, _ => false
    | some g, .join => g.join
    | some g, .directed _ dest => g.targets.contains dest

end SignalingPermissions

/-! ## The room -/

variable {C V : Type} [DecidableEq C]

structure RoomCore (C : Type) where
  byPeer : Table PeerId C
  byConn : Table C PeerId
  permissions : SignalingPermissions

/-- What a call sends, in order. -/
abbrev Sends (C V : Type) := List (C × ServerMessage V)

namespace RoomCore

def new (permissions : SignalingPermissions) : RoomCore C := ⟨∅, ∅, permissions⟩

variable (room : RoomCore C)

def roster : List PeerId := room.byPeer.keys.insertionSort (· ≤ ·)

def broadcastExcept (exclude : PeerId) (message : ServerMessage V) : Sends C V :=
  (room.byPeer.entries.reverse.filter (·.1 ≠ exclude)).map fun e => (e.2, message)

variable (conn : C)

def permissionDenied : Sends C V :=
  [(conn, .error .permissionDenied "signaling op not allowed for peer")]

def handleJoin (peer : PeerId) : RoomCore C × Sends C V :=
  if (room.byConn.lookup conn).isSome then
    (room, [(conn, .error .alreadyJoined "connection already joined")])
  else if !room.permissions.isAllowed peer .join then (room, permissionDenied conn)
  else if (room.byPeer.lookup peer).isSome then
    (room, [(conn, .error .duplicatePeer s!"peer {peer} already present")])
  else
    let room := { room with
      byPeer := room.byPeer.insert peer conn
      byConn := room.byConn.insert conn peer }
    let peers := room.roster.filter (· ≠ peer)
    (room, (conn, .welcome peer peers) :: room.broadcastExcept peer (.peerJoined peer))

def handleLeave : RoomCore C × Sends C V :=
  match room.byConn.lookup conn with
  | none => (room, [])
  | some peer =>
    let room := { room with
      byConn := room.byConn.erase conn
      byPeer := room.byPeer.erase peer }
    (room, room.broadcastExcept peer (.peerLeft peer))

def forward (kind : DirectedKind) (dest : PeerId)
    (build : PeerId → ServerMessage V) : RoomCore C × Sends C V :=
  match room.byConn.lookup conn with
  | none => (room, [(conn, .error .notJoined "join before signaling")])
  | some sender =>
    if !room.permissions.isAllowed sender (.directed kind dest) then (room, permissionDenied conn)
    else
      match room.byPeer.lookup dest with
      | none => (room, [(conn, .error .unknownTarget s!"peer {dest} is not in the session")])
      | some target => (room, [(target, build sender)])

def handleMessage : ClientMessage V → RoomCore C × Sends C V
  | .join peer => room.handleJoin conn peer
  | .leave => room.handleLeave conn
  | .offer dest sdp => room.forward conn .offer dest (.offer · sdp)
  | .answer dest sdp => room.forward conn .answer dest (.answer · sdp)
  | .ice dest candidate => room.forward conn .ice dest (.ice · candidate)
  | .relay dest payload => room.forward conn .relay dest (.relay · payload)

/-- The socket of a connection is closed. -/
def handleClose : RoomCore C × Sends C V := room.handleLeave conn

end RoomCore

end Lazily.Signaling
