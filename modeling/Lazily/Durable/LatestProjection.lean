import Lazily.Lib.SortedMap

/-!
# The latest-value projection (`latest_durable_projection_core.rs`)

A durable sink that converges to the latest desired value of each key. A key has a pending desire, a
single projection in flight and the epoch through which the sink is durable; a newer desire
supersedes what is pending. Every transition reports whether the observable snapshot changed.
-/

namespace Lazily.Durable

open Lib Function
open scoped SortedSet

variable {K V : Type}

/-! ## Values -/

structure LatestDurableRevision (V : Type) where
  epoch : Nat
  value : V
  deriving DecidableEq, Repr

/-- The projection attempt handed to a sink. -/
structure LatestDurableEnvelope (K V : Type) where
  generation : Nat
  key : K
  epoch : Nat
  value : V
  deriving DecidableEq, Repr

inductive LatestDurableUpsert where
  | accepted
  | unchanged
  | alreadyDurable (durableThrough : Nat)
  | staleEpoch (current : Nat)
  | epochConflict
  deriving DecidableEq, Repr

inductive LatestDurableClaim (K V : Type) where
  | claimed (envelope : LatestDurableEnvelope K V)
  | empty
  | busy
  | staleGeneration (current : Nat)
  deriving DecidableEq, Repr

inductive LatestDurableAck where
  | advanced (durableThrough : Nat)
  | unchanged (durableThrough : Nat)
  | unknownEpoch
  | staleGeneration (current : Nat)
  deriving DecidableEq, Repr

inductive LatestDurableFailure where
  | pending
  | superseded
  | unknownEpoch
  | staleGeneration (current : Nat)
  deriving DecidableEq, Repr

inductive LatestDurableReconnect where
  | advanced (generation requeued superseded : Nat)
  | unchanged (generation : Nat)
  | staleGeneration (current : Nat)
  deriving DecidableEq, Repr

/-! ## One key -/

structure Entry (K V : Type) where
  desired : Option (LatestDurableRevision V)
  inflight : Option (LatestDurableEnvelope K V)
  durableThrough : Option Nat

namespace Entry

def default : Entry K V := ⟨none, none, none⟩

variable (e : Entry K V)

/-- The newest revision the entry retains; the one in flight wins a tie. -/
def newest : Option (LatestDurableRevision V) :=
  match e.desired, e.inflight with
  | desired, none => desired
  | none, some envelope => some ⟨envelope.epoch, envelope.value⟩
  | some desired, some envelope =>
    some (if envelope.epoch < desired.epoch then desired else ⟨envelope.epoch, envelope.value⟩)

variable (envelope : LatestDurableEnvelope K V)

/-- Is there a desire newer than the envelope? -/
def supersedes : Bool :=
  e.desired.any fun desired => envelope.epoch < desired.epoch

/-- Give up what is in flight: it is desired again, unless a newer desire has superseded it. -/
def release : Entry K V :=
  { e with
    inflight := none
    desired := if e.supersedes envelope then e.desired else some ⟨envelope.epoch, envelope.value⟩ }

def reconnected : Entry K V :=
  match e.inflight with
  | none => e
  | some envelope => e.release envelope

end Entry

/-! ## The core -/

structure LatestDurableProjectionCore (K V : Type) [LinearOrder K] where
  generation : Nat
  keys : SortedMap K (Entry K V)

namespace LatestDurableProjectionCore

variable [LinearOrder K]

def new (generation : Nat) : LatestDurableProjectionCore K V := ⟨generation, ∅⟩

variable (c : LatestDurableProjectionCore K V) (key : K)

def entry : Entry K V := c.keys[key]?.getD .default

def setEntry (e : Entry K V) : LatestDurableProjectionCore K V :=
  { c with keys := c.keys.insert key e }

/-- Replace the pending desire when the epoch advances. A desire is refused only for a key that has
an entry, so nothing is written then. -/
def upsertDesired [BEq V] (c : LatestDurableProjectionCore K V) (key : K) (epoch : Nat)
    (value : V) : LatestDurableProjectionCore K V × Bool × LatestDurableUpsert :=
  let e := c.entry key
  let accepted := (c.setEntry key { e with desired := some ⟨epoch, value⟩ }, true,
    LatestDurableUpsert.accepted)
  let undurable :=
    match e.newest with
    | none => accepted
    | some current =>
      if epoch < current.epoch then (c, false, .staleEpoch current.epoch)
      else if epoch = current.epoch then
        (c, false, if value == current.value then .unchanged else .epochConflict)
      else accepted
  match e.durableThrough with
  | some durable => if epoch ≤ durable then (c, false, .alreadyDurable durable) else undurable
  | none => undurable

/-- Move the pending revision into the in-flight slot. -/
def claim (generation : Nat) : LatestDurableProjectionCore K V × Bool × LatestDurableClaim K V :=
  if generation ≠ c.generation then (c, false, .staleGeneration c.generation)
  else
    match c.keys[key]? with
    | none => (c, false, .empty)
    | some e =>
      if e.inflight.isSome then (c, false, .busy)
      else
        match e.desired with
        | none => (c, false, .empty)
        | some desired =>
          let envelope := ⟨generation, key, desired.epoch, desired.value⟩
          (c.setEntry key { e with desired := none, inflight := some envelope }, true,
            .claimed envelope)

def ackApplied (generation epoch : Nat) :
    LatestDurableProjectionCore K V × Bool × LatestDurableAck :=
  if generation ≠ c.generation then (c, false, .staleGeneration c.generation)
  else
    match c.keys[key]? with
    | none => (c, false, .unknownEpoch)
    | some e =>
      if e.inflight.map (·.epoch) ≠ some epoch then
        (c, false, match e.durableThrough with
          | some durable => if epoch ≤ durable then .unchanged durable else .unknownEpoch
          | none => .unknownEpoch)
      else
        let durableThrough := e.durableThrough.elim epoch (max · epoch)
        (c.setEntry key { e with inflight := none, durableThrough := some durableThrough }, true,
          if e.durableThrough.any (epoch ≤ ·) then .unchanged durableThrough
          else .advanced durableThrough)

def failRetryable (generation epoch : Nat) :
    LatestDurableProjectionCore K V × Bool × LatestDurableFailure :=
  if generation ≠ c.generation then (c, false, .staleGeneration c.generation)
  else
    match c.keys[key]? with
    | none => (c, false, .unknownEpoch)
    | some e =>
      match e.inflight with
      | none => (c, false, .unknownEpoch)
      | some envelope =>
        if envelope.epoch ≠ epoch then (c, false, .unknownEpoch)
        else
          (c.setEntry key (e.release envelope), true,
            if e.supersedes envelope then .superseded else .pending)

/-- Fence the previous sink and requeue what it had in flight. -/
def reconnect (newGeneration : Nat) :
    LatestDurableProjectionCore K V × Bool × LatestDurableReconnect :=
  if newGeneration < c.generation then (c, false, .staleGeneration c.generation)
  else if newGeneration = c.generation then (c, false, .unchanged c.generation)
  else
    let busy := c.keys.toList.filterMap fun p => p.2.inflight.map (p.2.supersedes ·)
    (⟨newGeneration, c.keys.map fun _ e => e.reconnected⟩, true,
      .advanced newGeneration (busy.count false) (busy.count true))

end LatestDurableProjectionCore

/-! ## Runs -/

inductive ProjectionOp (K V : Type) where
  | upsertDesired (key : K) (epoch : Nat) (value : V)
  | claim (key : K) (generation : Nat)
  | ackApplied (key : K) (generation epoch : Nat)
  | failRetryable (key : K) (generation epoch : Nat)
  | reconnect (generation : Nat)

/-- A core with what was seen of each key: the revisions that were accepted, the envelopes that were
handed out and not settled since, and the epochs acknowledged while they were in flight. -/
structure ProjectionHistory (K V : Type) [LinearOrder K] where
  core : LatestDurableProjectionCore K V
  accepted : K → List (LatestDurableRevision V)
  outstanding : K → List (LatestDurableEnvelope K V)
  acked : K → List Nat

namespace ProjectionHistory

variable [LinearOrder K] [BEq V]

def start (generation : Nat) : ProjectionHistory K V :=
  ⟨.new generation, fun _ => [], fun _ => [], fun _ => []⟩

/-- The sink that the core is connected to reports on the envelope in flight. -/
def concerns (c : LatestDurableProjectionCore K V) (key : K) (generation epoch : Nat) : Bool :=
  generation = c.generation && (c.entry key).inflight.any (·.epoch = epoch)

/-- The envelopes of a key that are left when the one of an epoch is settled. -/
def settle (h : ProjectionHistory K V) (key : K) (epoch : Nat) :
    K → List (LatestDurableEnvelope K V) :=
  Function.update h.outstanding key ((h.outstanding key).filter (·.epoch ≠ epoch))

/-- Desires are accepted and envelopes handed out by what the calls return; an ack, a failure and a
reconnect count by the call and the state before it. -/
def step (h : ProjectionHistory K V) : ProjectionOp K V → ProjectionHistory K V
  | .upsertDesired key epoch value =>
    let (core, _, outcome) := h.core.upsertDesired key epoch value
    { h with
      core := core
      accepted := if outcome = .accepted then
          Function.update h.accepted key (h.accepted key ++ [⟨epoch, value⟩])
        else h.accepted }
  | .claim key generation =>
    let (core, _, outcome) := h.core.claim key generation
    { h with
      core := core
      outstanding := match outcome with
        | .claimed envelope => Function.update h.outstanding key (h.outstanding key ++ [envelope])
        | _ => h.outstanding }
  | .ackApplied key generation epoch =>
    let core := (h.core.ackApplied key generation epoch).1
    if concerns h.core key generation epoch then
      { h with
        core := core
        outstanding := h.settle key epoch
        acked := Function.update h.acked key (epoch :: h.acked key) }
    else { h with core := core }
  | .failRetryable key generation epoch =>
    let core := (h.core.failRetryable key generation epoch).1
    if concerns h.core key generation epoch then
      { h with core := core, outstanding := h.settle key epoch }
    else { h with core := core }
  | .reconnect generation =>
    { h with
      core := (h.core.reconnect generation).1
      outstanding := if h.core.generation < generation then fun _ => [] else h.outstanding }

def run (h : ProjectionHistory K V) (ops : List (ProjectionOp K V)) : ProjectionHistory K V :=
  ops.foldl step h

end ProjectionHistory

end Lazily.Durable
