import Mathlib.Algebra.Ring.Nat
import Mathlib.Tactic.Common

/-!
# The reliable-sync receiver

`ResyncCoordinator` decides for every inbound frame whether it is applied, whether a snapshot is
requested, or whether it is dropped (`reliable_sync.rs`). Frames are those of the message plane: `σ`
is the image a snapshot carries, `α` one op of a delta, `κ` the content of the frames of the CRDT
plane, which pass through here unread.
-/

namespace Lazily.Sync

/-- An incremental update from `baseEpoch` to `epoch`. -/
structure Delta (α : Type) where
  baseEpoch : Nat
  epoch : Nat
  ops : List α
  deriving DecidableEq, Repr

structure Snapshot (σ : Type) where
  epoch : Nat
  image : σ
  deriving DecidableEq, Repr

inductive IpcMessage (σ α κ : Type) where
  | snapshot (s : Snapshot σ)
  | delta (d : Delta α)
  | crdtSync (frame : κ)
  | resyncRequest (fromEpoch : Nat)
  | outboxAck (throughEpoch : Nat)
  | deltaSinceRequest (frame : κ)
  deriving DecidableEq, Repr

/-- The receiver's decision for an inbound frame. -/
inductive ResyncAction where
  | apply
  | requestSnapshot (fromEpoch : Nat)
  | ignore
  deriving DecidableEq, Repr

/-- The receiver: the highest epoch applied, and whether a snapshot request is outstanding. -/
structure ResyncCoordinator where
  lastEpoch : Nat
  resyncing : Bool
  deriving DecidableEq, Repr

/-- `u64::saturating_add(1)`. -/
def saturatingSucc (n : Nat) : Nat := min (n + 1) (2 ^ 64 - 1)

namespace ResyncCoordinator

variable {σ α κ : Type}

def new : ResyncCoordinator := ⟨0, false⟩

def withEpoch (lastEpoch : Nat) : ResyncCoordinator := ⟨lastEpoch, false⟩

variable (c : ResyncCoordinator)

def ingestDelta (d : Delta α) : ResyncCoordinator × ResyncAction :=
  if d.baseEpoch = c.lastEpoch then
    -- contiguous: any span of at least one epoch is accepted
    if saturatingSucc d.baseEpoch ≤ d.epoch then (⟨d.epoch, false⟩, .apply) else (c, .ignore)
  else if d.baseEpoch < c.lastEpoch then (c, .ignore)
  else if c.resyncing then (c, .ignore)
  else ({ c with resyncing := true }, .requestSnapshot c.lastEpoch)

def ingestSnapshot (_c : ResyncCoordinator) (snapshotEpoch : Nat) :
    ResyncCoordinator × ResyncAction :=
  (⟨snapshotEpoch, false⟩, .apply)

/-- Classify an inbound frame; control frames and those of the CRDT plane are not for it. -/
def ingest : IpcMessage σ α κ → ResyncCoordinator × ResyncAction
  | .snapshot s => c.ingestSnapshot s.epoch
  | .delta d => c.ingestDelta d
  | .crdtSync _ | .resyncRequest _ | .outboxAck _ | .deltaSinceRequest _ => (c, .ignore)

def ack : IpcMessage σ α κ := .outboxAck c.lastEpoch

/-! ## What a frame can do -/

variable {c c' : ResyncCoordinator} {d : Delta α} {action : ResyncAction}

theorem ingestDelta_cases (h : c.ingestDelta d = (c', action)) :
    d.baseEpoch = c.lastEpoch ∧ c' = ⟨d.epoch, false⟩ ∧ action = .apply ∨
      action = .ignore ∧ c' = c ∨
      c' = ⟨c.lastEpoch, true⟩ ∧ action = .requestSnapshot c.lastEpoch := by
  unfold ingestDelta at h
  split at h
  · split at h
    · cases h
      exact .inl ⟨‹_›, rfl, rfl⟩
    · cases h
      exact .inr (.inl ⟨rfl, rfl⟩)
  · split at h
    · cases h
      exact .inr (.inl ⟨rfl, rfl⟩)
    · split at h
      · cases h
        exact .inr (.inl ⟨rfl, rfl⟩)
      · cases h
        exact .inr (.inr ⟨rfl, rfl⟩)

end ResyncCoordinator

end Lazily.Sync
