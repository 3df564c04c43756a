import Lazily.Sync.Outbox

/-!
# The reliable-sync loop driver

`SyncDriver` drives one peer connection: it replays the outbox after a reconnect, drains enqueued
frames into outbox and sink, routes inbound frames and advertises its cursor (`reliable_sync.rs`).

The transport is the environment. The sink is a function that answers the `n`-th send of the driver;
the driver records its sends with the answers in `log`. A tick reads the source up to the first time
it has nothing more (`none`) or fails (`some err`), so what the source gives in one tick is a list
of frames and that end.
-/

namespace Lazily.Sync

variable {σ α κ : Type}

/-- What one tick accomplished. -/
structure Progress (σ α κ : Type) where
  sent : Nat
  applied : List (IpcMessage σ α κ)
  resyncRequested : Bool
  snapshotsServed : Nat
  peerAckedThrough : Nat
  retained : Nat
  deriving DecidableEq, Repr

def Progress.default : Progress σ α κ := ⟨0, [], false, 0, 0, 0⟩

structure SyncDriver (σ α κ O : Type) where
  outbox : O
  coordinator : ResyncCoordinator
  pending : List (Nat × IpcMessage σ α κ)
  peerAckedThrough : Nat
  ackOwed : Bool
  replayPending : Bool
  stalledSince : Option Nat
  /-- Observation only: every frame handed to the sink, with its answer, oldest first. -/
  log : List (IpcMessage σ α κ × Bool)
  /-- Observation only: how many sends there had been when the last gap was detected. -/
  gapAt : Nat

/-- The environment of a driver: the sink's answer to the `n`-th send, and the host's snapshots. -/
structure Host (σ α κ : Type) where
  accepts : Nat → IpcMessage σ α κ → Bool
  snapshot : Nat → IpcMessage σ α κ

namespace SyncDriver

variable {O : Type}

/-- A driver whose receiver has applied through `lastEpoch`. -/
def withEpoch (outbox : O) (lastEpoch : Nat) : SyncDriver σ α κ O where
  outbox := outbox
  coordinator := .withEpoch lastEpoch
  pending := []
  peerAckedThrough := 0
  ackOwed := false
  replayPending := false
  stalledSince := none
  log := []
  gapAt := 0

def enqueue (d : SyncDriver σ α κ O) (epoch : Nat) (msg : IpcMessage σ α κ) : SyncDriver σ α κ O :=
  { d with pending := d.pending ++ [(epoch, msg)] }

def onReconnect (d : SyncDriver σ α κ O) : SyncDriver σ α κ O :=
  { d with replayPending := true, ackOwed := true, stalledSince := none }

def send (host : Host σ α κ) (d : SyncDriver σ α κ O) (msg : IpcMessage σ α κ) :
    SyncDriver σ α κ O × Bool :=
  let ok := host.accepts d.log.length msg
  ({ d with log := d.log ++ [(msg, ok)] }, ok)

/-- The replay of the unacked suffix, up to the first failure. -/
def replayLoop (host : Host σ α κ) (now : Nat) :
    List (Nat × IpcMessage σ α κ) → SyncDriver σ α κ O → Nat → SyncDriver σ α κ O × Nat
  | [], d, sent => (d, sent)
  | (_, msg) :: rest, d, sent =>
    match d.send host msg with
    | (d, true) => replayLoop host now rest d (sent + 1)
    | (d, false) => ({ d with stalledSince := some now, replayPending := true }, sent)

variable [DurableOutbox O (IpcMessage σ α κ)]

def replay (host : Host σ α κ) (now : Nat) (d : SyncDriver σ α κ O) : SyncDriver σ α κ O × Nat :=
  if d.replayPending then
    replayLoop host now (DurableOutbox.replayFrom d.outbox d.peerAckedThrough)
      { d with replayPending := false } 0
  else (d, 0)

/-- Append before send; a failure keeps the frame in the outbox and stops the drain. The list is the
driver's own queue, which it pops as it goes. -/
def drainLoop (host : Host σ α κ) (now : Nat) :
    List (Nat × IpcMessage σ α κ) → SyncDriver σ α κ O → Nat → SyncDriver σ α κ O × Nat
  | [], d, sent => (d, sent)
  | (epoch, msg) :: rest, d, sent =>
    let d := { d with outbox := DurableOutbox.append d.outbox epoch msg, pending := rest }
    match d.send host msg with
    | (d, true) => drainLoop host now rest { d with stalledSince := none } (sent + 1)
    | (d, false) => ({ d with stalledSince := some now }, sent)

def drain (host : Host σ α κ) (now : Nat) (d : SyncDriver σ α κ O) (sent : Nat) :
    SyncDriver σ α κ O × Nat :=
  if d.stalledSince.isNone then drainLoop host now d.pending d sent else (d, sent)

/-- Feed a frame of state through the coordinator. -/
def receiveState (host : Host σ α κ) (now : Nat) (d : SyncDriver σ α κ O)
    (progress : Progress σ α κ) (msg : IpcMessage σ α κ) : SyncDriver σ α κ O × Progress σ α κ :=
  match d.coordinator.ingest msg with
  | (c, .apply) =>
    ({ d with coordinator := c, ackOwed := true },
      { progress with applied := progress.applied ++ [msg] })
  | (c, .requestSnapshot fromEpoch) =>
    match ({ d with coordinator := c, gapAt := d.log.length } : SyncDriver σ α κ O).send host
        (.resyncRequest fromEpoch) with
    | (d, true) => (d, { progress with resyncRequested := true })
    | (d, false) => ({ d with stalledSince := some now }, progress)
  | (c, .ignore) => ({ d with coordinator := c }, progress)

/-- Route one inbound frame. -/
def receive (host : Host σ α κ) (now : Nat) (s : SyncDriver σ α κ O × Progress σ α κ)
    (msg : IpcMessage σ α κ) : SyncDriver σ α κ O × Progress σ α κ :=
  let (d, progress) := s
  match msg with
  | .outboxAck throughEpoch =>
    ({ d with
      peerAckedThrough := max d.peerAckedThrough throughEpoch
      outbox := DurableOutbox.ackThrough d.outbox throughEpoch }, progress)
  | .resyncRequest fromEpoch =>
    match d.send host (host.snapshot fromEpoch) with
    | (d, true) => (d, { progress with snapshotsServed := progress.snapshotsServed + 1 })
    | (d, false) => ({ d with stalledSince := some now }, progress)
  | .crdtSync _ | .deltaSinceRequest _ =>
    (d, { progress with applied := progress.applied ++ [msg] })
  | .snapshot _ | .delta _ => receiveState host now d progress msg

/-- Advertise the cursor; what is owed stays owed until a send succeeds. -/
def advertise (host : Host σ α κ) (d : SyncDriver σ α κ O) : SyncDriver σ α κ O :=
  if d.ackOwed then
    match d.send host d.coordinator.ack with
    | (d, true) => { d with ackOwed := false }
    | (d, false) => d
  else d

/-- What the source does in one tick: the frames it gives, and how the reading ends. -/
structure Inbound (σ α κ ε : Type) where
  frames : List (IpcMessage σ α κ)
  failure : Option ε

/-- The outbound half of a pass: replay after a reconnect, then the drain. -/
def outbound (host : Host σ α κ) (now : Nat) (d : SyncDriver σ α κ O) : SyncDriver σ α κ O × Nat :=
  (d.replay host now).1.drain host now (d.replay host now).2

/-- The reads of a pass, up to the end or the failure. -/
def receiveAll {ε : Type} (host : Host σ α κ) (now : Nat) (inbound : Inbound σ α κ ε)
    (d : SyncDriver σ α κ O) : SyncDriver σ α κ O × Progress σ α κ :=
  inbound.frames.foldl (receive host now)
    ((d.outbound host now).1, { Progress.default with sent := (d.outbound host now).2 })

/-- One loop pass. A failed read returns at once: what was collected is dropped. -/
def tick {ε : Type} (host : Host σ α κ) (now : Nat) (inbound : Inbound σ α κ ε)
    (d : SyncDriver σ α κ O) : SyncDriver σ α κ O × Except ε (Progress σ α κ) :=
  let (d, progress) := d.receiveAll host now inbound
  match inbound.failure with
  | some err => (d, .error err)
  | none =>
    let d := d.advertise host
    (d, .ok { progress with
      peerAckedThrough := d.peerAckedThrough
      retained := (DurableOutbox.retainedEpochs d.outbox).length })

inductive Action (σ α κ ε : Type) where
  | enqueue (epoch : Nat) (msg : IpcMessage σ α κ)
  | onReconnect
  | tick (now : Nat) (inbound : Inbound σ α κ ε)

section Run

variable {ε : Type} (host : Host σ α κ)

def step (d : SyncDriver σ α κ O) : Action σ α κ ε → SyncDriver σ α κ O
  | .enqueue epoch msg => d.enqueue epoch msg
  | .onReconnect => d.onReconnect
  | .tick now inbound => (d.tick host now inbound).1

def run (d : SyncDriver σ α κ O) (actions : List (Action σ α κ ε)) : SyncDriver σ α κ O :=
  actions.foldl (step host) d

/-- The frames that a step hands to the caller: the `applied` list of a tick that returned `Ok`. -/
def handedBy (d : SyncDriver σ α κ O) : Action σ α κ ε → List (IpcMessage σ α κ)
  | .tick now inbound =>
    match (d.tick host now inbound).2 with
    | .ok progress => progress.applied
    | .error _ => []
  | _ => []

/-- All frames handed to the caller in a run. -/
def handed (d : SyncDriver σ α κ O) : List (Action σ α κ ε) → List (IpcMessage σ α κ)
  | [] => []
  | a :: actions => d.handedBy host a ++ handed (d.step host a) actions

/-- The frames on which a coordinator advances, out of those it is given. -/
def acceptedFrames (c : ResyncCoordinator) : List (IpcMessage σ α κ) → List (IpcMessage σ α κ)
  | [] => []
  | msg :: msgs =>
    if (c.ingest msg).2 = .apply then msg :: acceptedFrames (c.ingest msg).1 msgs
    else acceptedFrames (c.ingest msg).1 msgs

def acceptedBy (d : SyncDriver σ α κ O) : Action σ α κ ε → List (IpcMessage σ α κ)
  | .tick _ inbound => acceptedFrames d.coordinator inbound.frames
  | _ => []

/-- Whether a step is a tick whose source fails. -/
def Action.fails : Action σ α κ ε → Bool
  | .tick _ inbound => inbound.failure.isSome
  | _ => false

/-- All inbound frames of a run on which the driver's coordinator advanced. -/
def accepted (d : SyncDriver σ α κ O) : List (Action σ α κ ε) → List (IpcMessage σ α κ)
  | [] => []
  | a :: actions => d.acceptedBy a ++ accepted (d.step host a) actions

/-- No tick of the run accepts a frame and then fails to read on. -/
def ReadsThrough (d : SyncDriver σ α κ O) : List (Action σ α κ ε) → Prop
  | [] => True
  | a :: actions =>
    (a.fails → d.acceptedBy a = []) ∧ ReadsThrough (d.step host a) actions

end Run

end SyncDriver

end Lazily.Sync
