import Lazily.Lib.SortedMap

/-!
# The broadcast topic (`topic_core.rs`)

A retained log at an absolute base offset and one absolute cursor per subscriber. Durable cursors
hold the log back from `gc`, ephemeral ones do not.

Offsets are natural numbers: a log of `2 ^ 64` elements is out of reach. The subscriptions are a
hash map in the source, so the order in which `publish` lists the subscribers to notify is not fixed
there; here it is the order of the identities.
-/

namespace Lazily.Queue

open Lib
open scoped SortedSet

inductive TopicDurability where
  | durable | ephemeral
  deriving DecidableEq, Repr

/-- A subscription, live or in a snapshot: the source has two structures of these fields. -/
structure TopicSubscription where
  cursor : Nat
  durability : TopicDurability
  connected : Bool
  deriving DecidableEq, Repr

inductive TopicSubscribeOutcome where
  | created | reconnected | alreadyConnected
  deriving DecidableEq, Repr

variable {T I : Type} [LinearOrder I]

structure TopicSnapshot (T I : Type) [LinearOrder I] where
  baseOffset : Nat
  elements : List T
  subscriptions : SortedMap I TopicSubscription

structure TopicCore (T I : Type) [LinearOrder I] where
  baseOffset : Nat
  elements : List T
  subscriptions : SortedMap I TopicSubscription

namespace TopicCore

def new : TopicCore T I := ⟨0, [], ∅⟩

/-- What `fromSnapshot` asserts of a subscription. -/
def Restorable (snapshot : TopicSnapshot T I) (sub : TopicSubscription) : Prop :=
  (snapshot.baseOffset ≤ sub.cursor ∧ sub.cursor ≤ snapshot.baseOffset + snapshot.elements.length) ∧
  (sub.durability ≠ .ephemeral ∨ sub.connected = true)

instance (snapshot : TopicSnapshot T I) : DecidablePred (Restorable snapshot) := fun _ =>
  inferInstanceAs (Decidable (_ ∧ _))

/-- Rebuild from a durable snapshot; `none` is the panic of a failed assertion. -/
def fromSnapshot (snapshot : TopicSnapshot T I) : Option (TopicCore T I) :=
  if ∀ sub ∈ snapshot.subscriptions.vals, Restorable snapshot sub then
    some ⟨snapshot.baseOffset, snapshot.elements, snapshot.subscriptions⟩
  else none

variable (c : TopicCore T I)

def endOffset : Nat := c.baseOffset + c.elements.length

variable (id : I)

def setSubscription (sub : TopicSubscription) : TopicCore T I :=
  { c with subscriptions := c.subscriptions.insert id sub }

/-- Create a cursor at the tail, or reconnect an identity where it is. The flag is whether the
subscriber's reader must be cleared. -/
def subscribe (durability : TopicDurability) : TopicCore T I × TopicSubscribeOutcome × Bool :=
  match c.subscriptions[id]? with
  | some sub =>
    if sub.connected then (c, .alreadyConnected, false)
    else (c.setSubscription id { sub with connected := true }, .reconnected, true)
  | none => (c.setSubscription id ⟨c.endOffset, durability, true⟩, .created, false)

/-- Durable records stay, offline; ephemeral ones are removed. The flag is whether the reader's
handle goes too; `none` if nothing changed. -/
def disconnect : Option (TopicCore T I × Bool) :=
  match c.subscriptions[id]? with
  | none => none
  | some sub =>
    if !sub.connected then none
    else if sub.durability = .ephemeral then
      some ({ c with subscriptions := c.subscriptions.erase id }, true)
    else some (c.setSubscription id { sub with connected := false }, false)

/-- Append an element. Returns its offset and the connected subscribers whose unread suffix grew. -/
def publish (value : T) : TopicCore T I × Nat × List I :=
  let offset := c.endOffset
  ({ c with elements := c.elements ++ [value] }, offset,
    (c.subscriptions.filter fun _ sub => sub.connected && decide (sub.cursor ≤ offset)).keys)

/-- Where in the retained log a cursor reads. The subtraction saturates. -/
def index (sub : TopicSubscription) : Nat := sub.cursor - c.baseOffset

/-- Advance a connected cursor by one and return the element. -/
def advance : Option (TopicCore T I × T) :=
  match c.subscriptions[id]? with
  | none => none
  | some sub =>
    if !sub.connected ∨ c.endOffset ≤ sub.cursor then none
    else
      match c.elements[c.index sub]? with
      | none => none
      | some value => some (c.setSubscription id { sub with cursor := sub.cursor + 1 }, value)

/-- The minimum durable cursor, or the tail if there is none. -/
def frontier : Nat :=
  ((c.subscriptions.vals.filter (·.durability = .durable)).map (·.cursor)).min?.getD c.endOffset

/-- Drop the prefix below the frontier. Returns how many elements went. -/
def gc : TopicCore T I × Nat :=
  let remove := c.frontier - c.baseOffset
  ({ c with baseOffset := c.frontier, elements := c.elements.drop remove }, remove)

/-- The unread suffix of a connected subscriber. -/
def readSuffix : List T :=
  match c.subscriptions[id]? with
  | none => []
  | some sub => if !sub.connected then [] else c.elements.drop (c.index sub)

def snapshot : TopicSnapshot T I := ⟨c.baseOffset, c.elements, c.subscriptions⟩

end TopicCore

/-! ## Runs -/

inductive TopicOp (T I : Type) where
  | publish (value : T)
  | subscribe (id : I) (durability : TopicDurability)
  | disconnect (id : I)
  | advance (id : I)
  | gc

/-- A topic with what its callers saw: every element it held or was given, with its offset, and what
each subscriber was handed, with the offset it was read from, since its record was created. -/
structure TopicHistory (T I : Type) [LinearOrder I] where
  core : TopicCore T I
  log : List (Nat × T)
  delivered : I → List (Nat × T)

namespace TopicHistory

def start (core : TopicCore T I) : TopicHistory T I where
  core := core
  log := core.elements.mapIdx fun i value => (core.baseOffset + i, value)
  delivered _ := []

def step (h : TopicHistory T I) : TopicOp T I → TopicHistory T I
  | .publish value =>
    let (core, offset, _) := h.core.publish value
    { h with core := core, log := h.log ++ [(offset, value)] }
  | .subscribe id durability =>
    let (core, outcome, _) := h.core.subscribe id durability
    { h with
      core := core
      delivered := if outcome = .created then Function.update h.delivered id [] else h.delivered }
  | .disconnect id =>
    match h.core.disconnect id with
    | some (core, _) => { h with core := core }
    | none => h
  | .advance id =>
    match h.core.advance id, h.core.subscriptions[id]? with
    | some (core, value), some sub =>
      { h with
        core := core
        delivered := Function.update h.delivered id
          (h.delivered id ++ [(h.core.baseOffset + h.core.index sub, value)]) }
    | _, _ => h
  | .gc => { h with core := h.core.gc.1 }

def run (h : TopicHistory T I) (ops : List (TopicOp T I)) : TopicHistory T I := ops.foldl step h

end TopicHistory

end Lazily.Queue
