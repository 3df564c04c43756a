import Lazily.Ingress.Core
import Lazily.Lib.SortedMap

/-!
# The boundary adapter (`boundary_ingress_core.rs`)

`BoundaryIngressCore` owns the subscription facts around an ingress plane: producer generation,
snapshot and event cursor, keyed membership, validation, freshness and delivery receipts. It stores
no values: accepted payloads leave as actions for the plane.

Member names and receipt ids are strings in the source and one ordered type here. Cursors are
natural numbers: a cursor at the last `u64` has no buffered successor to look for, so the wrap of
`cursor + 1` is not seen. The counters of stale events and revisions wrap.
-/

namespace Lazily.Boundary

open Lib Ingress
open scoped SortedSet

/-! ## Values -/

structure BoundaryIngressConfig where
  maxBuffered : Nat
  freshnessHorizon : Nat
  deriving DecidableEq, Repr

def BoundaryIngressConfig.default : BoundaryIngressConfig := ⟨64, 1000⟩

inductive BoundaryIngressPhase where
  | detached | bootstrapping | live | replayRequired | backpressured | invalid
  deriving DecidableEq, Repr

inductive BoundaryValidation where
  | valid | invalid
  deriving DecidableEq, Repr

inductive BoundaryFreshness where
  | unknown | fresh | stale
  deriving DecidableEq, Repr

inductive BoundaryIngressEffectIntent where
  | idle
  | subscribe (generation : Nat)
  | coldReplay (generation fromCursor : Nat)
  deriving DecidableEq, Repr

inductive BoundaryIngressPayload (K T : Type) where
  | upsert (envelope : IngressEnvelope K T)
  | remove (key : K)
  | validate (validation : BoundaryValidation)
  deriving DecidableEq, Repr

/-- One frame of the event channel, fenced by its generation. -/
structure BoundaryIngressEvent (K T : Type) where
  generation : Nat
  cursor : Nat
  stampedAt : Nat
  payload : BoundaryIngressPayload K T
  deriving DecidableEq, Repr

/-- A covering snapshot: `cursor` is the last event it includes. -/
structure BoundaryIngressSnapshot (K T N : Type) where
  generation : Nat
  cursor : Nat
  stampedAt : Nat
  entries : List (IngressEnvelope K T)
  members : List N
  validation : BoundaryValidation

structure BoundaryDeliveryReceipt (N : Type) [LinearOrder N] where
  receiptId : N
  targets : SortedSet N
  acknowledged : SortedSet N

inductive BoundaryIngressAction (K T : Type) where
  | admitEnvelope (envelope : IngressEnvelope K T)
  | close (key : K)
  deriving DecidableEq, Repr

structure BoundaryIngressTransition (K T : Type) where
  actions : List (BoundaryIngressAction K T)
  changed : Bool

def BoundaryIngressTransition.unchanged {K T : Type} : BoundaryIngressTransition K T := ⟨[], false⟩

/-! ## The projection -/

structure BoundaryIngressProjection (K N : Type) [LinearOrder N] where
  phase : BoundaryIngressPhase
  generation : Nat
  cursor : Option Nat
  bufferedCursors : List Nat
  sourceKeys : List K
  members : List N
  validation : BoundaryValidation
  freshness : BoundaryFreshness
  replayFrom : Option Nat
  staleEvents : Nat
  activeDelivery : Option (BoundaryDeliveryReceipt N)
  revision : Nat

variable {K T N : Type} [LinearOrder K] [LinearOrder N]

namespace BoundaryIngressProjection

omit [LinearOrder K]

def effectIntent (p : BoundaryIngressProjection K N) : BoundaryIngressEffectIntent :=
  match p.phase with
  | .bootstrapping => .subscribe p.generation
  | .replayRequired | .backpressured => .coldReplay p.generation (p.replayFrom.getD 0)
  | .detached | .live | .invalid => .idle

end BoundaryIngressProjection

/-! ## The core -/

structure BoundaryIngressCore (K T N : Type) [LinearOrder K] [LinearOrder N] where
  config : BoundaryIngressConfig
  phase : BoundaryIngressPhase
  generation : Nat
  cursor : Option Nat
  buffered : SortedMap Nat (BoundaryIngressEvent K T)
  sourceKeys : SortedSet K
  members : SortedSet N
  validation : BoundaryValidation
  replayFrom : Option Nat
  staleEvents : Nat
  deliveries : SortedMap N (BoundaryDeliveryReceipt N)
  activeDelivery : Option N
  lastStampedAt : Option Nat
  now : Nat
  revision : Nat

namespace BoundaryIngressCore

def new (config : BoundaryIngressConfig) : BoundaryIngressCore K T N where
  config := config
  phase := .detached
  generation := 0
  cursor := none
  buffered := ∅
  sourceKeys := ∅
  members := ∅
  validation := .valid
  replayFrom := none
  staleEvents := 0
  deliveries := ∅
  activeDelivery := none
  lastStampedAt := none
  now := 0
  revision := 0

variable (c : BoundaryIngressCore K T N)

def bump : BoundaryIngressCore K T N :=
  { c with revision := (c.revision + 1) % 2 ^ 64 }

/-- A frame of an older generation is counted and changes nothing else. -/
def countStale : BoundaryIngressCore K T N × BoundaryIngressTransition K T :=
  (bump { c with staleEvents := (c.staleEvents + 1) % 2 ^ 64 }, ⟨[], true⟩)

/-- Hot-subscribe to a generation that is not older than the current one. -/
def subscribe (generation : Nat) : BoundaryIngressCore K T N × BoundaryIngressTransition K T :=
  if generation < c.generation then (c, .unchanged)
  else
    (bump { c with
      generation := generation
      cursor := none
      buffered := ∅
      sourceKeys := ∅
      members := ∅
      validation := .valid
      replayFrom := none
      phase := .bootstrapping }, ⟨[], true⟩)

def settledPhase (validation : BoundaryValidation) : BoundaryIngressPhase :=
  if validation = .valid then .live else .invalid

variable (event : BoundaryIngressEvent K T) (actions : List (BoundaryIngressAction K T))

def applyPayload : BoundaryIngressCore K T N × List (BoundaryIngressAction K T) :=
  let c := { c with cursor := some event.cursor, lastStampedAt := some event.stampedAt }
  match event.payload with
  | .upsert envelope =>
    ({ c with sourceKeys := c.sourceKeys.insert envelope.key },
      actions ++ [.admitEnvelope envelope])
  | .remove key => ({ c with sourceKeys := c.sourceKeys.erase key }, actions ++ [.close key])
  | .validate validation => ({ c with validation := validation }, actions)

/-- The loop of `drainContiguous`. Every round takes an event out of the buffer, so a fuel of its
size is enough. -/
def drainLoop : Nat → BoundaryIngressCore K T N → List (BoundaryIngressAction K T) →
    BoundaryIngressCore K T N × List (BoundaryIngressAction K T)
  | 0, c, actions => (c, actions)
  | fuel + 1, c, actions =>
    match c.cursor with
    | none => (c, actions)
    | some cursor =>
      match c.buffered[cursor + 1]? with
      | none => (c, actions)
      | some event =>
        let (c, actions) :=
          applyPayload { c with buffered := c.buffered.erase (cursor + 1) } event actions
        drainLoop fuel c actions

/-- Apply every buffered successor of the cursor, then set the phase by what is left. -/
def drainContiguous : BoundaryIngressCore K T N × List (BoundaryIngressAction K T) :=
  let (c, actions) := drainLoop c.buffered.size c actions
  match c.cursor with
  | none => (c, actions)
  | some cursor =>
    if c.buffered.isEmpty then
      ({ c with replayFrom := none, phase := settledPhase c.validation }, actions)
    else ({ c with replayFrom := some (cursor + 1), phase := .replayRequired }, actions)

variable (snapshot : BoundaryIngressSnapshot K T N)

def snapshotKeys : SortedSet K :=
  SortedSet.insertAll ∅ (snapshot.entries.map (·.key))

/-- The state of a snapshot, with the buffered events beyond it. -/
def install : BoundaryIngressCore K T N :=
  let buffered := if c.generation < snapshot.generation then ∅ else c.buffered
  { c with
    generation := snapshot.generation
    sourceKeys := snapshotKeys snapshot
    members := SortedSet.insertAll ∅ snapshot.members
    validation := snapshot.validation
    cursor := some snapshot.cursor
    lastStampedAt := some snapshot.stampedAt
    replayFrom := none
    phase := settledPhase snapshot.validation
    buffered := buffered.filter fun cursor _ => snapshot.cursor < cursor }

/-- Install a covering snapshot and every contiguous buffered successor. Keys that are no longer
there are closed. -/
def applySnapshot : BoundaryIngressCore K T N × BoundaryIngressTransition K T :=
  if snapshot.generation < c.generation then c.countStale
  else
    let closed := (c.sourceKeys.filter (!(snapshotKeys snapshot).contains ·)).toList
    let (c, actions) := (c.install snapshot).drainContiguous
      (closed.map BoundaryIngressAction.close ++
        snapshot.entries.map BoundaryIngressAction.admitEnvelope)
    (c.bump, ⟨actions, true⟩)

/-- A frame of a newer generation restarts the bootstrap under it. The validation stays. -/
def handoff (generation : Nat) : BoundaryIngressCore K T N :=
  if c.generation < generation then
    { c with
      generation := generation
      cursor := none
      buffered := ∅
      sourceKeys := ∅
      members := ∅
      phase := .bootstrapping
      replayFrom := none }
  else c

/-- An event before the covering snapshot: buffered while there is room. -/
def bufferBootstrap : BoundaryIngressCore K T N × BoundaryIngressTransition K T :=
  if c.config.maxBuffered ≤ c.buffered.size ∧ event.cursor ∉ c.buffered then
    (bump { c with phase := .backpressured, replayFrom := some 0 }, ⟨[], true⟩)
  else
    let changed : Bool := event.cursor ∉ c.buffered
    let c := { c with buffered := c.buffered.insert event.cursor event }
    (if changed then c.bump else c, ⟨[], changed⟩)

/-- An event after the snapshot at `cursor`: applied if it is the next one, else buffered while
there is room. -/
def sequenceEvent (cursor : Nat) (event : BoundaryIngressEvent K T) :
    BoundaryIngressCore K T N × BoundaryIngressTransition K T :=
  if event.cursor ≤ cursor ∨ event.cursor ∈ c.buffered then (c, .unchanged)
  else if event.cursor = cursor + 1 then
    let (c, actions) := c.applyPayload event []
    let (c, actions) := c.drainContiguous actions
    (c.bump, ⟨actions, true⟩)
  else if c.config.maxBuffered ≤ c.buffered.size then
    (bump { c with phase := .backpressured, replayFrom := some (cursor + 1) }, ⟨[], true⟩)
  else
    (bump { c with
      buffered := c.buffered.insert event.cursor event
      phase := .replayRequired
      replayFrom := some (cursor + 1) }, ⟨[], true⟩)

/-- Publish one frame of the event channel. -/
def applyEvent : BoundaryIngressCore K T N × BoundaryIngressTransition K T :=
  if event.generation < c.generation then c.countStale
  else
    let c := c.handoff event.generation
    match c.cursor with
    | none => c.bufferBootstrap event
    | some cursor => c.sequenceEvent cursor event

/-! ## Membership, deliveries, time -/

def memberJoin (member : N) : BoundaryIngressCore K T N × Bool :=
  if member ∈ c.members then (c, false)
  else
    let deliveries :=
      match c.activeDelivery with
      | none => c.deliveries
      | some receiptId =>
        match c.deliveries[receiptId]? with
        | none => c.deliveries
        | some receipt =>
          if receipt.targets.isEmpty then
            c.deliveries.insert receiptId { receipt with targets := receipt.targets.insert member }
          else c.deliveries
    (bump { c with members := c.members.insert member, deliveries := deliveries }, true)

/-- Captured receipts keep their targets. -/
def memberLeave (member : N) : BoundaryIngressCore K T N × Bool :=
  if member ∉ c.members then (c, false)
  else (bump { c with members := c.members.erase member }, true)

def openDelivery (receiptId : N) : BoundaryIngressCore K T N × Bool :=
  if receiptId ∈ c.deliveries then ({ c with activeDelivery := some receiptId }, false)
  else
    (bump { c with
      deliveries := c.deliveries.insert receiptId ⟨receiptId, c.members, ∅⟩
      activeDelivery := some receiptId }, true)

def acknowledge (receiptId member : N) : BoundaryIngressCore K T N × Bool :=
  match c.deliveries[receiptId]? with
  | none => (c, false)
  | some receipt =>
    if member ∉ receipt.targets ∨ member ∈ receipt.acknowledged then (c, false)
    else
      (bump { c with
        deliveries := c.deliveries.insert receiptId
          { receipt with acknowledged := receipt.acknowledged.insert member } }, true)

def freshness : BoundaryFreshness :=
  match c.lastStampedAt with
  | none => .unknown
  | some stampedAt => if c.now - stampedAt ≤ c.config.freshnessHorizon then .fresh else .stale

/-- Only a freshness edge advances the revision. -/
def tick (now : Nat) : BoundaryIngressCore K T N × Bool :=
  let c' := { c with now := now }
  if c'.freshness = c.freshness then (c', false) else (c'.bump, true)

def projection : BoundaryIngressProjection K N where
  phase := c.phase
  generation := c.generation
  cursor := c.cursor
  bufferedCursors := c.buffered.keys
  sourceKeys := c.sourceKeys.toList
  members := c.members.toList
  validation := c.validation
  freshness := c.freshness
  replayFrom := c.replayFrom
  staleEvents := c.staleEvents
  activeDelivery := c.activeDelivery.bind (c.deliveries[·]?)
  revision := c.revision

end BoundaryIngressCore

/-! ## Runs -/

inductive BoundaryOp (K T N : Type) where
  | subscribe (generation : Nat)
  | applySnapshot (snapshot : BoundaryIngressSnapshot K T N)
  | applyEvent (event : BoundaryIngressEvent K T)
  | memberJoin (member : N)
  | memberLeave (member : N)
  | openDelivery (receiptId : N)
  | acknowledge (receiptId member : N)
  | tick (now : Nat)

namespace BoundaryIngressCore

/-- The state after an operation and its transition; the operations on members, deliveries and time
only report whether they changed anything. -/
def step (c : BoundaryIngressCore K T N) :
    BoundaryOp K T N → BoundaryIngressCore K T N × BoundaryIngressTransition K T
  | .subscribe generation => c.subscribe generation
  | .applySnapshot snapshot => c.applySnapshot snapshot
  | .applyEvent event => c.applyEvent event
  | .memberJoin member => ((c.memberJoin member).1, ⟨[], (c.memberJoin member).2⟩)
  | .memberLeave member => ((c.memberLeave member).1, ⟨[], (c.memberLeave member).2⟩)
  | .openDelivery receiptId => ((c.openDelivery receiptId).1, ⟨[], (c.openDelivery receiptId).2⟩)
  | .acknowledge receiptId member =>
    ((c.acknowledge receiptId member).1, ⟨[], (c.acknowledge receiptId member).2⟩)
  | .tick now => ((c.tick now).1, ⟨[], (c.tick now).2⟩)

def run (c : BoundaryIngressCore K T N) (ops : List (BoundaryOp K T N)) :
    BoundaryIngressCore K T N :=
  ops.foldl (fun c op => (c.step op).1) c

end BoundaryIngressCore

end Lazily.Boundary
