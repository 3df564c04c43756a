import Lazily.Lib.SortedMap

/-!
# The durable owner (`durable_owner.rs`)

A durable owner has one authoritative position and one of two state models: an append-only event
history or a replaceable snapshot. A commit binds the state advance, the inbox identity, the outbox
effects and receipts in one step; `recover` rebuilds the owner from the image a crash left.

Identities are non-empty strings of four kinds in the source, and four ordered types here.
Positions, fences and versions are natural numbers; a position is a `u64`, and advancing past its
last value is an error.
-/

namespace Lazily.Durable

open Lib
open scoped SortedSet

/-! ## Values -/

/-- Opaque bytes with their schema and codec versions. -/
structure VersionedBytes where
  schemaVersion : Nat
  codecVersion : Nat
  bytes : List UInt8
  deriving DecidableEq, Repr

inductive DurableOwnerMode where
  | eventHistory | snapshot
  deriving DecidableEq, Repr

structure DurableRecord where
  position : Nat
  payload : VersionedBytes
  deriving DecidableEq, Repr

inductive DurableStateMutation where
  | appendEvents (events : List VersionedBytes)
  | replaceSnapshot (payload : VersionedBytes)
  deriving DecidableEq, Repr

structure DurableEffectIntent (E : Type) where
  identity : E
  payload : VersionedBytes
  deriving DecidableEq, Repr

/-- A persisted effect, with the position that accepted it. -/
structure DurableEffect (E : Type) where
  identity : E
  acceptedAt : Nat
  payload : VersionedBytes
  deriving DecidableEq, Repr

inductive DurableEffectOutcome where
  | applied | rejected
  deriving DecidableEq, Repr

structure DurableReceiptIntent (E R : Type) where
  identity : R
  effectIdentity : E
  outcome : DurableEffectOutcome
  payload : VersionedBytes
  deriving DecidableEq, Repr

/-- The durable fact that an effect was applied or rejected outside. -/
structure DurableReceipt (E R : Type) where
  identity : R
  effectIdentity : E
  outcome : DurableEffectOutcome
  recordedAt : Nat
  fence : Nat
  payload : VersionedBytes
  deriving DecidableEq, Repr

/-- One proposed transaction. -/
structure DurableCommit (O I E R : Type) where
  ownerId : O
  expectedPosition : Nat
  fence : Nat
  inboxIdentity : I
  ingressFingerprint : List UInt8
  state : DurableStateMutation
  effects : List (DurableEffectIntent E)
  receipts : List (DurableReceiptIntent E R)

structure DurableInboxRecord (I : Type) where
  identity : I
  ingressFingerprint : List UInt8
  committedThrough : Nat
  deriving DecidableEq, Repr

inductive DurableCommitOutcome where
  | committed (through : Nat)
  | duplicate (through : Nat)
  deriving DecidableEq, Repr

inductive DurableReceiptOutcome where
  | recorded | duplicate
  deriving DecidableEq, Repr

inductive DurableContractError (I E R : Type) where
  | ownerMismatch
  | positionOverflow
  | positionConflict (expected actual : Nat)
  | staleFence (attempted current : Nat)
  | fenceDidNotAdvance (attempted current : Nat)
  | stateModeMismatch
  | emptyEventBatch
  | inboxIdentityConflict (identity : I)
  | effectIdentityConflict (identity : E)
  | unknownEffect (identity : E)
  | receiptIdentityConflict (identity : R)
  | effectAlreadyReceipted (identity : E)
  | corruptImage (reason : String)
  deriving DecidableEq, Repr

variable {O I E R : Type} [DecidableEq O] [LinearOrder I] [LinearOrder E] [LinearOrder R]

def DurableEffectIntent.accept (effect : DurableEffectIntent E) (position : Nat) :
    DurableEffect E :=
  ⟨effect.identity, position, effect.payload⟩

def DurableReceiptIntent.record (receipt : DurableReceiptIntent E R) (position fence : Nat) :
    DurableReceipt E R :=
  ⟨receipt.identity, receipt.effectIdentity, receipt.outcome, position, fence, receipt.payload⟩

/-- The authoritative image. -/
structure DurableOwnerImage (O I E R : Type) [LinearOrder I] [LinearOrder E] [LinearOrder R] where
  ownerId : O
  mode : DurableOwnerMode
  position : Nat
  fence : Nat
  history : List DurableRecord
  snapshot : Option DurableRecord
  inbox : SortedMap I (DurableInboxRecord I)
  outbox : SortedMap E (DurableEffect E)
  receipts : SortedMap R (DurableReceipt E R)

/-- The in-memory reference authority. -/
structure DurableOwnerCore (O I E R : Type) [LinearOrder I] [LinearOrder E] [LinearOrder R] where
  image : DurableOwnerImage O I E R

namespace DurableOwnerCore

def new (ownerId : O) (mode : DurableOwnerMode) (fence : Nat) : DurableOwnerCore O I E R :=
  ⟨⟨ownerId, mode, 0, fence, [], none, ∅, ∅, ∅⟩⟩

/-! ## Recovery -/

/-- Whether the state of an image fits its position; the text names what does not. -/
def checkState (image : DurableOwnerImage O I E R) : Except (DurableContractError I E R) Unit :=
  match image.mode with
  | .eventHistory =>
    if image.snapshot.isSome then .error (.corruptImage "event-history owner carries a snapshot")
    else if image.history.length ≠ image.position ∨
        image.history.map (·.position) ≠ (List.range image.history.length).map (· + 1) then
      .error (.corruptImage "event history is not a contiguous prefix through owner position")
    else .ok ()
  | .snapshot =>
    if image.history ≠ [] ∨ image.position = 0 ∧ image.snapshot.isSome ∨
        image.position ≠ 0 ∧ image.snapshot.map (·.position) ≠ some image.position then
      .error (.corruptImage "snapshot state does not match owner position")
    else .ok ()

/-- Reconstruct from the image left by a prior process. -/
def recover (image : DurableOwnerImage O I E R) :
    Except (DurableContractError I E R) (DurableOwnerCore O I E R) :=
  match checkState image with
  | .error e => .error e
  | .ok () =>
    if (∃ record ∈ image.inbox.vals, image.position < record.committedThrough) ∨
        (∃ effect ∈ image.outbox.vals, image.position < effect.acceptedAt) ∨
        ∃ receipt ∈ image.receipts.vals, image.position < receipt.recordedAt ∨
          receipt.effectIdentity ∉ image.outbox then
      .error (.corruptImage "inbox, outbox, or receipt points beyond the durable image")
    else if ¬(image.receipts.vals.map (·.effectIdentity)).Nodup then
      .error (.corruptImage "more than one terminal receipt names an effect")
    else .ok ⟨image⟩

/-! ## Effects -/

def receipted (image : DurableOwnerImage O I E R) : SortedSet E :=
  SortedSet.insertAll ∅ (image.receipts.vals.map (·.effectIdentity))

/-- The effects without a receipt, by the position that accepted them and by identity. -/
def pendingEffects (c : DurableOwnerCore O I E R) : List (DurableEffect E) :=
  (c.image.outbox.vals.filter (!(receipted c.image).contains ·.identity)).insertionSort
    fun left right => left.acceptedAt < right.acceptedAt ∨
      left.acceptedAt = right.acceptedAt ∧ left.identity ≤ right.identity

/-! ## Commits -/

/-- No effect identity is used twice, in the commit or in the outbox. -/
def checkEffects (outbox : SortedMap E (DurableEffect E)) (identities : SortedSet E) :
    List (DurableEffectIntent E) → Except (DurableContractError I E R) Unit
  | [] => .ok ()
  | effect :: effects =>
    if effect.identity ∈ identities ∨ effect.identity ∈ outbox then
      .error (.effectIdentityConflict effect.identity)
    else checkEffects outbox (identities.insert effect.identity) effects

/-- Receipt identities are new, and each receipt is the first for an effect that is known. -/
def checkReceipts (receipts : SortedMap R (DurableReceipt E R)) (effectIdentities : SortedSet E)
    (receiptIdentities : SortedSet R) (receiptedEffects : SortedSet E) :
    List (DurableReceiptIntent E R) → Except (DurableContractError I E R) Unit
  | [] => .ok ()
  | receipt :: rest =>
    if receipt.identity ∈ receiptIdentities ∨ receipt.identity ∈ receipts then
      .error (.receiptIdentityConflict receipt.identity)
    else if receipt.effectIdentity ∉ effectIdentities then
      .error (.unknownEffect receipt.effectIdentity)
    else if receipt.effectIdentity ∈ receiptedEffects then
      .error (.effectAlreadyReceipted receipt.effectIdentity)
    else checkReceipts receipts effectIdentities (receiptIdentities.insert receipt.identity)
      (receiptedEffects.insert receipt.effectIdentity) rest

def appendEvents (image : DurableOwnerImage O I E R) :
    List VersionedBytes → Except (DurableContractError I E R) (DurableOwnerImage O I E R)
  | [] => .ok image
  | payload :: payloads =>
    if image.position + 1 < 2 ^ 64 then
      appendEvents { image with
        position := image.position + 1
        history := image.history ++ [⟨image.position + 1, payload⟩] } payloads
    else .error .positionOverflow

/-- The state advance of a commit. -/
def advanceState (image : DurableOwnerImage O I E R) (state : DurableStateMutation) :
    Except (DurableContractError I E R) (DurableOwnerImage O I E R) :=
  match image.mode, state with
  | .eventHistory, .appendEvents events =>
    if events = [] then .error .emptyEventBatch else appendEvents image events
  | .snapshot, .replaceSnapshot payload =>
    if image.position + 1 < 2 ^ 64 then
      .ok { image with
        position := image.position + 1
        snapshot := some ⟨image.position + 1, payload⟩ }
    else .error .positionOverflow
  | _, _ => .error .stateModeMismatch

/-- Effects, receipts and the inbox record, at the position the state has reached. -/
def bindCommit (image : DurableOwnerImage O I E R) (commit : DurableCommit O I E R) :
    DurableOwnerImage O I E R :=
  { image with
    outbox := SortedMap.insertAll image.outbox
      (commit.effects.map fun effect => (effect.identity, effect.accept image.position))
    receipts := SortedMap.insertAll image.receipts
      (commit.receipts.map fun receipt =>
        (receipt.identity, receipt.record image.position image.fence))
    inbox := image.inbox.insert commit.inboxIdentity
      ⟨commit.inboxIdentity, commit.ingressFingerprint, image.position⟩ }

/-- What a commit of a new inbox identity leads to. -/
def candidate (image : DurableOwnerImage O I E R) (commit : DurableCommit O I E R) :
    Except (DurableContractError I E R) (DurableOwnerImage O I E R) :=
  if commit.fence ≠ image.fence then .error (.staleFence commit.fence image.fence)
  else if commit.expectedPosition ≠ image.position then
    .error (.positionConflict commit.expectedPosition image.position)
  else
    match checkEffects image.outbox ∅ commit.effects with
    | .error e => .error e
    | .ok () =>
      match checkReceipts image.receipts
          (SortedSet.insertAll ∅ (commit.effects.map (·.identity) ++ image.outbox.keys)) ∅
          (receipted image) commit.receipts with
      | .error e => .error e
      | .ok () =>
        match advanceState image commit.state with
        | .error e => .error e
        | .ok advanced => .ok (bindCommit advanced commit)

/-- One atomic commit. The inbox is looked up before the fence and the position. -/
def commit (c : DurableOwnerCore O I E R) (commit : DurableCommit O I E R) :
    DurableOwnerCore O I E R × Except (DurableContractError I E R) DurableCommitOutcome :=
  if commit.ownerId ≠ c.image.ownerId then (c, .error .ownerMismatch)
  else
    match c.image.inbox[commit.inboxIdentity]? with
    | some previous =>
      if previous.ingressFingerprint = commit.ingressFingerprint then
        (c, .ok (.duplicate previous.committedThrough))
      else (c, .error (.inboxIdentityConflict commit.inboxIdentity))
    | none =>
      match candidate c.image commit with
      | .error e => (c, .error e)
      | .ok image => (⟨image⟩, .ok (.committed image.position))

/-! ## Receipts and fences -/

def recordReceipt (c : DurableOwnerCore O I E R) (fence : Nat)
    (receipt : DurableReceiptIntent E R) :
    DurableOwnerCore O I E R × Except (DurableContractError I E R) DurableReceiptOutcome :=
  match c.image.receipts[receipt.identity]? with
  | some previous =>
    if previous.effectIdentity = receipt.effectIdentity ∧ previous.outcome = receipt.outcome ∧
        previous.payload = receipt.payload then (c, .ok .duplicate)
    else (c, .error (.receiptIdentityConflict receipt.identity))
  | none =>
    if fence ≠ c.image.fence then (c, .error (.staleFence fence c.image.fence))
    else if receipt.effectIdentity ∉ c.image.outbox then
      (c, .error (.unknownEffect receipt.effectIdentity))
    else if ∃ known ∈ c.image.receipts.vals, known.effectIdentity = receipt.effectIdentity then
      (c, .error (.effectAlreadyReceipted receipt.effectIdentity))
    else
      let known := receipt.record c.image.position fence
      (⟨{ c.image with receipts := c.image.receipts.insert receipt.identity known }⟩, .ok .recorded)

def advanceFence (c : DurableOwnerCore O I E R) (fence : Nat) :
    DurableOwnerCore O I E R × Except (DurableContractError I E R) Unit :=
  if fence ≤ c.image.fence then (c, .error (.fenceDidNotAdvance fence c.image.fence))
  else (⟨{ c.image with fence := fence }⟩, .ok ())

end DurableOwnerCore

/-! ## Runs -/

/-- What can happen to an owner; `crash` loses the process and recovers from the image. -/
inductive OwnerOp (O I E R : Type) where
  | commit (commit : DurableCommit O I E R)
  | recordReceipt (fence : Nat) (receipt : DurableReceiptIntent E R)
  | advanceFence (fence : Nat)
  | crash

def OwnerOp.isCrash {O I E R : Type} : OwnerOp O I E R → Bool
  | .crash => true
  | _ => false

def DurableStateMutation.payloads : DurableStateMutation → List VersionedBytes
  | .appendEvents events => events
  | .replaceSnapshot payload => [payload]

inductive OwnerAnswer (I E R : Type) where
  | commit (answer : Except (DurableContractError I E R) DurableCommitOutcome)
  | receipt (answer : Except (DurableContractError I E R) DurableReceiptOutcome)
  | fence (answer : Except (DurableContractError I E R) Unit)

/-- An owner with what its callers were told: every answer, for every commit that was accepted its
inbox identity and payloads, the effects these commits bound, and the receipts that were recorded.
The owner runs until a recovery fails. -/
structure OwnerHistory (O I E R : Type) [LinearOrder I] [LinearOrder E] [LinearOrder R] where
  core : DurableOwnerCore O I E R
  running : Bool
  answers : List (OwnerAnswer I E R)
  accepted : List (I × List VersionedBytes)
  effects : List (DurableEffect E)
  receipts : List (DurableReceipt E R)

namespace OwnerHistory

def start (ownerId : O) (mode : DurableOwnerMode) (fence : Nat) : OwnerHistory O I E R :=
  ⟨.new ownerId mode fence, true, [], [], [], []⟩

def answered (h : OwnerHistory O I E R) (core : DurableOwnerCore O I E R)
    (answer : OwnerAnswer I E R) : OwnerHistory O I E R :=
  { h with core := core, answers := h.answers ++ [answer] }

def step (h : OwnerHistory O I E R) : OwnerOp O I E R → OwnerHistory O I E R
  | .commit commit =>
    let (core, answer) := h.core.commit commit
    let h := h.answered core (.commit answer)
    match answer with
    | .ok (.committed through) =>
      { h with
        accepted := h.accepted ++ [(commit.inboxIdentity, commit.state.payloads)]
        effects := h.effects ++ commit.effects.map (·.accept through)
        receipts := h.receipts ++ commit.receipts.map (·.record through commit.fence) }
    | _ => h
  | .recordReceipt fence receipt =>
    let known := receipt.record h.core.image.position fence
    let (core, answer) := h.core.recordReceipt fence receipt
    let h := h.answered core (.receipt answer)
    match answer with
    | .ok .recorded => { h with receipts := h.receipts ++ [known] }
    | _ => h
  | .advanceFence fence =>
    let (core, answer) := h.core.advanceFence fence
    h.answered core (.fence answer)
  | .crash =>
    match DurableOwnerCore.recover h.core.image with
    | .ok core => { h with core := core }
    | .error _ => { h with running := false }

/-- A lost owner answers no more. -/
def run (h : OwnerHistory O I E R) (ops : List (OwnerOp O I E R)) : OwnerHistory O I E R :=
  ops.foldl (fun h op => if h.running then h.step op else h) h

end OwnerHistory

end Lazily.Durable
