import Lazily.Crdt.OpLog
import Lazily.Crdt.Plane
import Lazily.Crdt.Register

/-!
# The runtime of the CRDT cell plane

`CrdtPlaneRuntime` (`crdt_plane.rs`) joins the plane, the op log and the registry of replicated root
cells. Cells are found by node id, and by a wire-stable key through `KeyIndex`. A keyed op whose key
is unknown falls back to its raw node id; a node that names no cell then makes a family entry out of
it.

The cells of one runtime have one state type `C`, generic over its merge: heterogeneous cells are a
sum of their states, on which a merge of unlike states changes nothing. States go on the wire
through a codec (`StateCodec`), which may fail to write them and need not read them back as they
were; a state on the wire is what is read from its bytes.
-/

namespace Lazily.Crdt

open Lib Option Function Std.ExtTreeMap

abbrev NodeId := Nat

/-- Text, by characters. -/
abbrev Str := List Char

/-! ## Keys -/

inductive NodeKeyError where
  | empty
  | tooLong (len : Nat)
  | tooManySegments (segments : Nat)
  | emptySegment
  deriving DecidableEq, Repr

def nodeKeyMaxLen : Nat := 1024

def nodeKeyMaxSegments : Nat := 32

def byteLen (path : Str) : Nat := (path.map fun c => c.utf8Size).sum

/-- What makes a `/`-joined path a key. -/
def validateKey (path : Str) : Except NodeKeyError Unit :=
  if path = [] then .error .empty
  else if nodeKeyMaxLen < byteLen path then .error (.tooLong (byteLen path))
  else if [] ∈ path.splitOn '/' then .error .emptySegment
  else if nodeKeyMaxSegments < (path.splitOn '/').length then
    .error (.tooManySegments (path.splitOn '/').length)
  else .ok ()

/-- A validated `/`-joined path. -/
structure NodeKey where
  path : Str
  valid : validateKey path = .ok ()
  deriving DecidableEq

namespace NodeKey

def new (path : Str) : Except NodeKeyError NodeKey :=
  match h : validateKey path with
  | .ok () => .ok ⟨path, h⟩
  | .error e => .error e

def fromSegments (segments : List Str) : Except NodeKeyError NodeKey :=
  new (['/'].intercalate segments)

def segments (key : NodeKey) : List Str := key.path.splitOn '/'

end NodeKey

/-- The registry of keys; each node resolves back to at most one key. -/
structure KeyIndex where
  forward : NodeKey → Option NodeId
  reverse : NodeId → Option NodeKey
  bijective : ∀ k n, forward k = some n ↔ reverse n = some k

namespace KeyIndex

def new : KeyIndex := ⟨fun _ => none, fun _ => none, by simp⟩

/-- Drop the stale entries of a binding that is replaced. -/
def dropStale {α β : Type} [DecidableEq α] (f : α → Option β) (stale : Option α)
    (current : α) : α → Option β :=
  match stale with
  | some a => if a ≠ current then Function.update f a none else f
  | none => f

theorem dropStale_apply {α β : Type} [DecidableEq α] (f : α → Option β) (stale : Option α)
    (current a : α) :
    dropStale f stale current a = if stale = some a ∧ a ≠ current then none else f a := by
  unfold dropStale
  cases stale with
  | none => simp
  | some b =>
    by_cases hb : b = current
    · subst hb
      simp only [ne_eq, not_true_eq_false, if_false, some_inj]
      rw [if_neg (fun h => h.2 h.1.symm)]
    · by_cases ha : a = b
      · subst ha
        simp [hb]
      · have ha' : ¬b = a := fun h => ha h.symm
        simp [hb, ha, ha']

variable (index : KeyIndex)

def insert (key : NodeKey) (node : NodeId) : KeyIndex where
  forward := Function.update (dropStale index.forward (index.reverse node) key) key (some node)
  reverse := dropStale (Function.update index.reverse node (some key))
    (dropStale index.forward (index.reverse node) key key) node
  bijective k n := by
    have hb := index.bijective
    by_cases hk : k = key <;> by_cases hn : n = node
    · simp [hk, hn, dropStale_apply]
    · subst hk
      simp only [Function.update_self, dropStale_apply, hn, ne_eq, not_true_eq_false, and_false,
        if_false, not_false_eq_true, and_true, Function.update_of_ne hn, Option.some_inj]
      refine iff_of_false (fun h => hn h.symm) fun h => ?_
      split at h
      · cases h
      · rename_i hf
        exact hf ((hb k n).2 h)
    · subst hn
      simp only [Function.update_of_ne hk, dropStale_apply, hk, ne_eq, not_false_eq_true, and_true,
        not_true_eq_false, and_false, if_false, Function.update_self, Option.some_inj]
      refine iff_of_false (fun h => ?_) fun h => hk h.symm
      split at h
      · cases h
      · rename_i hr
        exact hr ((hb k n).1 h)
    · simp only [Function.update_of_ne hk, dropStale_apply, hk, ne_eq, not_false_eq_true, and_true,
        not_true_eq_false, and_false, if_false, hn, Function.update_of_ne hn]
      constructor
      · intro h
        split at h
        · cases h
        · rename_i hr
          rw [if_neg]
          · exact (hb k n).1 h
          · intro hf
            exact hk (Option.some.inj (((hb k n).1 h).symm.trans ((hb key n).1 hf)))
      · intro h
        split at h
        · cases h
        · rw [if_neg]
          · exact (hb k n).2 h
          · intro hr
            exact hn (Option.some.inj (((hb k n).2 h).symm.trans ((hb k node).2 hr)))

def nodeForKey (key : NodeKey) : Option NodeId := index.forward key

def keyForNode (node : NodeId) : Option NodeKey := index.reverse node

@[simp] theorem nodeForKey_insert_self (key : NodeKey) (node : NodeId) :
    (index.insert key node).nodeForKey key = some node := by
  simp [nodeForKey, insert]

/-- Another key keeps its node, unless the node is the one that is bound. -/
theorem nodeForKey_insert_ne {key k : NodeKey} {node : NodeId} (hk : k ≠ key) :
    (index.insert key node).nodeForKey k =
      if index.nodeForKey k = some node then none else index.nodeForKey k := by
  simp only [nodeForKey, insert, update_of_ne hk, dropStale_apply, hk, ne_eq,
    not_false_eq_true, and_true, index.bijective]

theorem nodeForKey_eq_iff {key : NodeKey} {node : NodeId} :
    index.nodeForKey key = some node ↔ index.keyForNode node = some key :=
  index.bijective key node

end KeyIndex

/-! ## The wire -/

/-- How states are written and read (`serde_json`). -/
class StateCodec (C : Type) where
  Bytes : Type
  encode : C → Option Bytes
  decode : Bytes → Option C

/-- The state is written, and read back as it was. -/
def StateCodec.RoundTrips {C : Type} [StateCodec C] (crdt : C) : Prop :=
  ∃ bytes, encode crdt = some bytes ∧ decode bytes = some crdt

/-- A value on the wire: inline bytes, as they are read, or a reference to a blob. -/
inductive IpcValue (C : Type) where
  | inline (state : Option C)
  | blob
  deriving DecidableEq

/-- One CRDT cell op: the state of a node, under the stamp that produced it. -/
structure CrdtOp (C : Type) where
  node : NodeId
  key : Option NodeKey
  stamp : HlcStamp
  state : IpcValue C
  deriving DecidableEq

structure CrdtSync (C : Type) where
  frontier : List (PeerId × HlcStamp)
  ops : List (CrdtOp C)

/-- The nodes each peer may read; a peer without an entry may read nothing. -/
structure PeerPermissions where
  readable : PeerId → Option (List NodeId)

def PeerPermissions.canRead (permissions : PeerPermissions) (peer : PeerId) (node : NodeId) :
    Bool :=
  (permissions.readable peer).any fun nodes => node ∈ nodes

/-- The frame for a peer: ops of nodes it may not read are left out, the frontier stays. -/
def CrdtSync.filterReadable {C : Type} (sync : CrdtSync C) (permissions : PeerPermissions)
    (peer : PeerId) : CrdtSync C :=
  ⟨sync.frontier, sync.ops.filter fun op => permissions.canRead peer op.node⟩

/-- What a family makes of the state of an entry that is unknown here. -/
structure FamilyFactory (C : Type) where
  namespaceName : Str
  materialize : C → Option C

/-- The family of last-writer-wins registers under a namespace. -/
def lwwFamilyFactory {T : Type} (name : Str) : FamilyFactory (LwwRegister T) := ⟨name, some⟩

/-- Registers of numbers, by their four numbers. -/
instance : StateCodec (LwwRegister Nat) where
  Bytes := List Nat
  encode r := some [r.value, r.stamp.wallTime, r.stamp.logical, r.stamp.peer]
  decode
    | [value, wallTime, logical, peer] => some ⟨value, ⟨wallTime, logical, peer⟩⟩
    | _ => none

/-! ## The registry -/

/-- Private node ids of family entries start here. -/
def familyNodeBase : Nat := 2 ^ 48

/-- The runtime without its log. Every key that resolves names a cell. -/
structure Registry (C V : Type) where
  plane : CrdtPlane
  cells : Std.ExtTreeMap NodeId (ReplicatedCell C V)
  keys : KeyIndex
  families : List (FamilyFactory C)
  familyMembers : Str → List NodeKey
  membershipEpoch : Option Nat
  nextFamilyNode : Nat
  resolves : ∀ k n, keys.nodeForKey k = some n → n ∈ cells

namespace Registry

variable {C V : Type} [CellCrdt C V] (reg : Registry C V)

/-- The cell of a key. -/
def cellOf (key : NodeKey) : Option (ReplicatedCell C V) :=
  (reg.keys.nodeForKey key).bind fun n => reg.cells[n]?

/-- The first candidate that names no cell. Each candidate that is passed is the id of a cell, so a
fuel of the number of cells is enough. -/
def mintFrom (cells : Std.ExtTreeMap NodeId (ReplicatedCell C V)) : Nat → NodeId → NodeId
  | 0, candidate => candidate
  | fuel + 1, candidate =>
    if candidate ∈ cells then mintFrom cells fuel (candidate + 1) else candidate

def mintFamilyNode : NodeId :=
  mintFrom reg.cells reg.cells.size reg.nextFamilyNode

/-- Replace the state of a cell that is there, or add one. -/
def putCell (node : NodeId) (cell : ReplicatedCell C V) : Registry C V :=
  { reg with
    cells := reg.cells.insert node cell
    resolves := fun k n h => by
      rw [Std.ExtTreeMap.mem_insert]
      exact .inr (reg.resolves k n h) }

def putKeyed (node : NodeId) (key : NodeKey) (cell : ReplicatedCell C V) : Registry C V :=
  { reg with
    cells := reg.cells.insert node cell
    keys := reg.keys.insert key node
    resolves := fun k n h => by
      rw [Std.ExtTreeMap.mem_insert]
      by_cases hk : k = key
      · subst hk
        rw [KeyIndex.nodeForKey_insert_self] at h
        cases h
        exact .inl (by simp)
      · rw [KeyIndex.nodeForKey_insert_ne _ hk] at h
        split at h
        · cases h
        · exact .inr (reg.resolves k n h) }

def recordFamilyMember (name : Str) (key : NodeKey) : Registry C V :=
  { reg with
    familyMembers := Function.update reg.familyMembers name
      (if key ∈ reg.familyMembers name then reg.familyMembers name
        else reg.familyMembers name ++ [key]) }

def bumpMembershipEpoch : Registry C V :=
  { reg with membershipEpoch := reg.membershipEpoch.map fun e => (e + 1) % 2 ^ 64 }

/-- Materialize a family entry under a fresh private node. -/
def addFamilyEntry (name : Str) (key : NodeKey) (crdt : C) : Registry C V :=
  let node := reg.mintFamilyNode
  let reg := { reg with nextFamilyNode := node + 1 }
  ((reg.putKeyed node key (.bind crdt)).recordFamilyMember name key).bumpMembershipEpoch

/-- Merge a wire state into a cell; bytes that do not decode change nothing. -/
def mergeState (cell : ReplicatedCell C V) (state : Option C) : ReplicatedCell C V :=
  match state with
  | some remote => (cell.mergeRemote remote).1
  | none => cell

variable (op : CrdtOp C)

/-- The node an op is applied to: that of its key, else the raw one it carries. -/
def target : NodeId :=
  (op.key.bind reg.keys.nodeForKey).getD op.node

/-- A keyed op that names no cell here becomes an entry of the family its key belongs to. -/
def materialize (state : Option C) : Registry C V :=
  match op.key with
  | none => reg
  | some key =>
    match key.segments.head? with
    | none => reg
    | some name =>
      match reg.families.find? fun f => f.namespaceName = name with
      | none => reg
      | some family =>
        match state.bind family.materialize with
        | none => reg
        | some crdt => reg.addFamilyEntry name key crdt

/-- Merge an op into the cell it is for, or materialize it. -/
def route : Registry C V :=
  match op.state with
  | .blob => reg
  | .inline state =>
    match reg.cells[reg.target op]? with
    | some cell => reg.putCell (reg.target op) (mergeState cell state)
    | none => reg.materialize op state

/-- What `ingest` does with one op that the log has not seen. -/
def applyOp (nowMicros : Nat) (reg : Registry C V) (stamp : HlcStamp) (op : CrdtOp C) :
    Registry C V :=
  route { reg with plane := (reg.plane.observeRemote stamp nowMicros).1 } op

end Registry

/-! ## The runtime -/

/-- The runtime of one replica: the registry and the op log. -/
structure CrdtPlaneRuntime (C V : Type) extends Registry C V where
  log : OpLog (CrdtOp C)

namespace CrdtPlaneRuntime

variable {C V : Type} [CellCrdt C V]

def new (peer : PeerId) : CrdtPlaneRuntime C V where
  plane := .new peer
  cells := ∅
  keys := .new
  families := []
  familyMembers := fun _ => []
  membershipEpoch := none
  nextFamilyNode := familyNodeBase
  resolves := by simp [KeyIndex.new, KeyIndex.nodeForKey]
  log := .new

variable (rt : CrdtPlaneRuntime C V)

def addPeer (peer : PeerId) : CrdtPlaneRuntime C V :=
  { rt with plane := rt.plane.addPeer peer }

/-- Register a root cell under a node, with a wire-stable key if there is one. -/
def register (node : NodeId) (key : Option NodeKey) (crdt : C) : CrdtPlaneRuntime C V :=
  { rt with
    toRegistry := match key with
      | some key => rt.putKeyed node key (.bind crdt)
      | none => rt.putCell node (.bind crdt) }

def registerFamily (family : FamilyFactory C) : CrdtPlaneRuntime C V :=
  { rt with
    families := rt.families ++ [family]
    membershipEpoch := some (rt.membershipEpoch.getD 0) }

/-- The op for the state of a cell, if the state can be written. -/
def opFor [StateCodec C] (node : NodeId) (key : Option NodeKey) (stamp : HlcStamp) (crdt : C) :
    Option (CrdtOp C) :=
  (StateCodec.encode crdt).map fun bytes => ⟨node, key, stamp, .inline (StateCodec.decode bytes)⟩

def emit (op : Option (CrdtOp C)) : CrdtPlaneRuntime C V × Option (CrdtOp C) :=
  (op.elim rt fun op => { rt with log := (rt.log.record op.stamp op).1 }, op)

variable [StateCodec C]

/-- Apply a local edit to the cell of a node; the op to broadcast if the value changed. A state that
cannot be written stays where it is, without an op. -/
def localUpdate [DecidableEq V] (rt : CrdtPlaneRuntime C V) (node : NodeId) (nowMicros : Nat)
    (mutate : C → HlcStamp → C) : CrdtPlaneRuntime C V × Option (CrdtOp C) :=
  let stamp := (rt.plane.tick nowMicros).2
  let rt := { rt with plane := (rt.plane.tick nowMicros).1 }
  match rt.cells[node]? with
  | none => (rt, none)
  | some cell =>
    let r := cell.update fun c => mutate c stamp
    let rt := { rt with toRegistry := rt.putCell node r.1 }
    if r.2 then rt.emit (opFor node (rt.keys.keyForNode node) stamp r.1.crdt) else (rt, none)

/-- Insert or update a family entry: a first insert seeds a fresh cell, any other is a local
edit. -/
def familySet [DecidableEq V] (rt : CrdtPlaneRuntime C V) (name suffix : Str)
    (seed : HlcStamp → C) (mutate : C → HlcStamp → C) (nowMicros : Nat) :
    CrdtPlaneRuntime C V × Option (CrdtOp C) :=
  match NodeKey.fromSegments [name, suffix] with
  | .error _ => (rt, none)
  | .ok key =>
    match rt.keys.nodeForKey key with
    | some node => rt.localUpdate node nowMicros mutate
    | none =>
      let stamp := (rt.plane.tick nowMicros).2
      let rt := { rt with plane := (rt.plane.tick nowMicros).1 }
      let node := rt.mintFamilyNode
      let rt := { rt with toRegistry := rt.addFamilyEntry name key (seed stamp) }
      rt.emit (opFor node (some key) stamp (seed stamp))

def familySetLww {T : Type} [DecidableEq T] [StateCodec (LwwRegister T)]
    (rt : CrdtPlaneRuntime (LwwRegister T) T)
    (name suffix : Str) (value : T) (nowMicros : Nat) :
    CrdtPlaneRuntime (LwwRegister T) T × Option (CrdtOp (LwwRegister T)) :=
  rt.familySet name suffix (fun stamp => ⟨value, stamp⟩) (fun r stamp => (r.set value stamp).1)
    nowMicros

omit [StateCodec C]

/-- Observe the frontier a frame advertises. -/
def observeFrontier (plane : CrdtPlane) (frontier : List (PeerId × HlcStamp)) (nowMicros : Nat) :
    CrdtPlane :=
  frontier.foldl (fun plane e =>
    if e.2.peer ≠ plane.peer then (plane.observeRemote e.2 nowMicros).1 else plane) plane

/-- Ingest a frame: observe its frontier, then fold its unseen ops in; their number. -/
def ingest (sync : CrdtSync C) (nowMicros : Nat) : CrdtPlaneRuntime C V × Nat :=
  let reg := { rt.toRegistry with plane := observeFrontier rt.plane sync.frontier nowMicros }
  let r := rt.log.applyRemote (sync.ops.map fun op => (op.stamp, op))
    (Registry.applyOp nowMicros) reg
  (⟨r.2.1, r.1⟩, r.2.2)

/-- The frontier that this replica advertises: the one of its plane. -/
def wireFrontier : List (PeerId × HlcStamp) := rt.plane.frontier.toList

def syncFrameSince (since : StampFrontier) : CrdtSync C :=
  ⟨rt.wireFrontier, (rt.log.missingSince since).map Prod.snd⟩

def syncFrame : CrdtSync C := rt.syncFrameSince ∅

/-- Lift an advertised frontier back. -/
def wireFrontierToStamp (frontier : List (PeerId × HlcStamp)) : StampFrontier :=
  frontier.foldl (fun w e => (w.observe e.1 e.2).1) ∅

/-- Reply to a request with the ops that its frontier lacks. -/
def syncReply (request : CrdtSync C) : CrdtSync C :=
  rt.syncFrameSince (wireFrontierToStamp request.frontier)

end CrdtPlaneRuntime

end Lazily.Crdt
