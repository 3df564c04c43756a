import Lazily.Lib.SortedMap

/-!
# The work queue (`work_queue_core.rs`)

Competing consumers lease items from a pending queue: a lease is settled by an ack, returned by a
nack, or reaped when its deadline has passed; an item whose delivery budget is spent goes to the
dead letters. Every mutation returns the counts before and after it.

The live leases are keyed by delivery id. The source keeps them in a hash map and sorts the ids
where order matters; here the map iterates in order.
-/

namespace Lazily.Queue

open Lib
open scoped SortedSet

variable {T I : Type}

/-! ## Values -/

/-- A queued item; `attempts` counts the leases already issued for it. -/
structure WorkQueueItem (T : Type) where
  itemId : Nat
  value : T
  attempts : Nat
  deriving DecidableEq, Repr

structure WorkQueueDelivery (T I : Type) where
  deliveryId : Nat
  itemId : Nat
  value : T
  worker : I
  attempt : Nat
  deadline : Nat
  deriving DecidableEq, Repr

inductive WorkQueueDeadLetterReason where
  | nack | expired
  deriving DecidableEq, Repr

structure WorkQueueDeadLetter (T : Type) where
  itemId : Nat
  value : T
  attempts : Nat
  reason : WorkQueueDeadLetterReason
  deriving DecidableEq, Repr

/-- The size observations of the reader kinds. -/
structure Counts where
  pending : Nat
  inFlight : Nat
  deadLetters : Nat
  deriving DecidableEq, Repr

/-- A completed mutation. -/
structure Transition where
  before : Counts
  after : Counts
  deriving DecidableEq, Repr

/-- The two knobs of redelivery, with what the constructor asserts of them and the width of the
`u32` one. -/
structure WorkQueuePolicy where
  visibilityTimeout : Nat
  maxDeliveries : Nat
  timeoutPositive : 0 < visibilityTimeout
  deliversOnce : 1 ≤ maxDeliveries
  deliveriesFit : maxDeliveries < 2 ^ 32

inductive WorkQueuePanic where
  | itemIdExhausted | deliveryIdExhausted
  deriving DecidableEq, Repr

/-! ## The core -/

structure WorkQueueCore (T I : Type) where
  policy : WorkQueuePolicy
  pending : List (WorkQueueItem T)
  inFlight : SortedMap Nat (WorkQueueDelivery T I)
  deadLetters : List (WorkQueueDeadLetter T)
  nextItemId : Nat
  nextDeliveryId : Nat

namespace WorkQueueCore

def new (policy : WorkQueuePolicy) : WorkQueueCore T I := ⟨policy, [], ∅, [], 0, 0⟩

variable (c : WorkQueueCore T I)

def counts : Counts :=
  ⟨c.pending.length, c.inFlight.size, c.deadLetters.length⟩

/-- Requeue at the tail while the budget lasts, else dead-letter. -/
def failDelivery (delivery : WorkQueueDelivery T I)
    (reason : WorkQueueDeadLetterReason) : WorkQueueCore T I :=
  if delivery.attempt < c.policy.maxDeliveries then
    { c with pending := c.pending ++ [⟨delivery.itemId, delivery.value, delivery.attempt⟩] }
  else
    { c with deadLetters :=
        c.deadLetters ++ [⟨delivery.itemId, delivery.value, delivery.attempt, reason⟩] }

/-- Append an item. Item ids are `u64`: the last one cannot be followed, and the call panics before
it changes anything. -/
def push (value : T) : Except WorkQueuePanic (WorkQueueCore T I × Nat × Transition) :=
  if c.nextItemId + 1 < 2 ^ 64 then
    let c' := { c with
      nextItemId := c.nextItemId + 1
      pending := c.pending ++ [⟨c.nextItemId, value, 0⟩] }
    .ok (c', c.nextItemId, ⟨c.counts, c'.counts⟩)
  else .error .itemIdExhausted

/-- Lease the oldest pending item, under a fresh delivery id. -/
def claim (worker : I) (now : Nat) :
    Except WorkQueuePanic (Option (WorkQueueCore T I × WorkQueueDelivery T I × Transition)) :=
  match c.pending with
  | [] => .ok none
  | item :: rest =>
    if c.nextDeliveryId + 1 < 2 ^ 64 then
      let delivery : WorkQueueDelivery T I :=
        { deliveryId := c.nextDeliveryId
          itemId := item.itemId
          value := item.value
          worker := worker
          attempt := min (item.attempts + 1) (2 ^ 32 - 1)
          deadline := min (now + c.policy.visibilityTimeout) (2 ^ 64 - 1) }
      let c' := { c with
        pending := rest
        nextDeliveryId := c.nextDeliveryId + 1
        inFlight := c.inFlight.insert c.nextDeliveryId delivery }
      .ok (some (c', delivery, ⟨c.counts, c'.counts⟩))
    else .error .deliveryIdExhausted

section Settle

variable [DecidableEq I] (c : WorkQueueCore T I)

def owns (worker : I) (deliveryId : Nat) : Bool :=
  c.inFlight[deliveryId]?.any (·.worker = worker)

def ack (worker : I) (deliveryId : Nat) : Option (WorkQueueCore T I × Transition) :=
  if c.owns worker deliveryId then
    let c' := { c with inFlight := c.inFlight.erase deliveryId }
    some (c', ⟨c.counts, c'.counts⟩)
  else none

def nack (worker : I) (deliveryId : Nat) : Option (WorkQueueCore T I × Transition) :=
  if c.owns worker deliveryId then
    match c.inFlight[deliveryId]? with
    | some delivery =>
      let c' := failDelivery { c with inFlight := c.inFlight.erase deliveryId } delivery .nack
      some (c', ⟨c.counts, c'.counts⟩)
    | none => none -- an owned delivery is live
  else none

end Settle

variable (c : WorkQueueCore T I)

/-- The ids of the leases whose deadline has passed, in order. -/
def expired (now : Nat) : List Nat :=
  (c.inFlight.filter fun _ delivery => delivery.deadline < now).keys

/-- One round of the reaper. Its ids are distinct, so the delivery is there. -/
def reapOne (deliveryId : Nat) : WorkQueueCore T I :=
  match c.inFlight[deliveryId]? with
  | some delivery =>
    failDelivery { c with inFlight := c.inFlight.erase deliveryId } delivery .expired
  | none => c

/-- Requeue or dead-letter every lease whose deadline has passed, in order of the delivery ids. -/
def reapExpired (now : Nat) : Option (WorkQueueCore T I × Nat × Transition) :=
  let expired := c.expired now
  if expired = [] then none
  else
    let c' := expired.foldl reapOne c
    some (c', expired.length, ⟨c.counts, c'.counts⟩)

end WorkQueueCore

/-! ## Runs -/

inductive WorkOp (T I : Type) where
  | push (value : T)
  | claim (worker : I) (now : Nat)
  | ack (worker : I) (deliveryId : Nat)
  | nack (worker : I) (deliveryId : Nat)
  | reapExpired (now : Nat)

/-- A queue with what its callers saw: the items pushed, the deliveries handed out, and those of
them that were acknowledged. -/
structure WorkHistory (T I : Type) where
  core : WorkQueueCore T I
  pushed : List (Nat × T)
  issued : List (WorkQueueDelivery T I)
  acknowledged : List (WorkQueueDelivery T I)

namespace WorkHistory

variable [DecidableEq I]

def start (policy : WorkQueuePolicy) : WorkHistory T I := ⟨.new policy, [], [], []⟩

/-- A call that panics leaves the queue as it was. -/
def step (h : WorkHistory T I) : WorkOp T I → WorkHistory T I
  | .push value =>
    match h.core.push value with
    | .ok (core, itemId, _) => { h with core := core, pushed := h.pushed ++ [(itemId, value)] }
    | .error _ => h
  | .claim worker now =>
    match h.core.claim worker now with
    | .ok (some (core, delivery, _)) =>
      { h with core := core, issued := h.issued ++ [delivery] }
    | .ok none => h
    | .error _ => h
  | .ack worker deliveryId =>
    match h.core.ack worker deliveryId, h.core.inFlight[deliveryId]? with
    | some (core, _), some delivery =>
      { h with core := core, acknowledged := h.acknowledged ++ [delivery] }
    | _, _ => h
  | .nack worker deliveryId =>
    match h.core.nack worker deliveryId with
    | some (core, _) => { h with core := core }
    | none => h
  | .reapExpired now =>
    match h.core.reapExpired now with
    | some (core, _, _) => { h with core := core }
    | none => h

def run (h : WorkHistory T I) (ops : List (WorkOp T I)) : WorkHistory T I := ops.foldl step h

end WorkHistory

end Lazily.Queue
