import Lazily.Lib.SortedMap

/-!
# The delivery authority behind the egress cells (`egress_core.rs`)

`EgressCore` assigns sequences, holds the unacknowledged window and the monotone acknowledgement
watermark, and counts retries against a budget. Every transition returns which reader kinds it
dirtied (`EgressChange`) with its outcome; `apply_sound_iff` says when it leaves none out.

Sequences, generations and watermarks are natural numbers; where the source saturates a `u64` or a
`u32`, so does the model.
-/

namespace Lazily.Egress

open Lib Std.ExtTreeMap
open scoped SortedSet

/-! ## Values -/

structure EgressPolicy where
  inflightLimit : Nat
  retryBudget : Nat
  retryBase : Nat
  retryCeiling : Nat
  deriving DecidableEq, Repr

def EgressPolicy.default : EgressPolicy where
  inflightLimit := 64
  retryBudget := 3
  retryBase := 10
  retryCeiling := 1000

inductive EgressConfigError where
  | zeroInflightLimit | zeroRetryBase | retryCeilingBelowBase
  deriving DecidableEq, Repr

/-- One send attempt; `(generation, sequence)` is the idempotency identity of the transport. -/
structure EgressEnvelope (T : Type) where
  generation : Nat
  sequence : Nat
  attempt : Nat
  payload : T
  deriving DecidableEq, Repr

structure EgressRetry where
  sequence : Nat
  attempt : Nat
  backoff : Nat
  exhausted : Bool
  deriving DecidableEq, Repr

inductive EgressClaim (T : Type) where
  | claimed (envelope : EgressEnvelope T)
  | empty
  | windowFull
  | staleGeneration (current : Nat)
  deriving DecidableEq, Repr

inductive EgressAck where
  | advanced (through : Nat)
  | unchanged (through : Option Nat)
  | staleGeneration (current : Nat)
  deriving DecidableEq, Repr

inductive EgressFailure where
  | retrying (retry : EgressRetry)
  | exhausted (retry : EgressRetry)
  | unknownSequence
  | staleGeneration (current : Nat)
  deriving DecidableEq, Repr

inductive EgressRetryAction where
  | scheduled (sequence : Nat)
  | unknownSequence
  | staleGeneration (current : Nat)
  deriving DecidableEq, Repr

inductive EgressReconnect where
  | advanced (generation replayed : Nat)
  | unchanged (generation : Nat)
  | staleGeneration (current : Nat)
  deriving DecidableEq, Repr

/-- The reader kinds one transition dirtied. -/
structure EgressChange where
  pending : Bool
  inflight : Bool
  ackedThrough : Bool
  retry : Bool
  deriving DecidableEq, Repr

def EgressChange.default : EgressChange := ⟨false, false, false, false⟩

/-- A value on its way out: what `Record` and its envelope hold are the same four fields. -/
abbrev Record := EgressEnvelope

def EgressEnvelope.under {T : Type} (record : Record T) (generation : Nat) : Record T :=
  { record with generation := generation }

/-! ## The core -/

structure EgressCore (T : Type) where
  policy : EgressPolicy
  generation : Nat
  nextSequence : Nat
  ackedThrough : Option Nat
  pending : List (Record T)
  inflight : SortedMap Nat (Record T)
  failed : SortedMap Nat (Record T)
  retry : Option EgressRetry

namespace EgressCore

variable {T : Type}

def new (generation : Nat) (policy : EgressPolicy) : Except EgressConfigError (EgressCore T) :=
  if policy.inflightLimit = 0 then .error .zeroInflightLimit
  else if policy.retryBase = 0 then .error .zeroRetryBase
  else if policy.retryCeiling < policy.retryBase then .error .retryCeilingBelowBase
  else .ok ⟨policy, generation, 0, none, [], ∅, ∅, none⟩

/-- `insert_pending_ordered`: before the first record of a higher sequence. -/
def insertPendingOrdered (pending : List (Record T)) (record : Record T) : List (Record T) :=
  pending.orderedInsert (fun a b => a.sequence < b.sequence) record

variable (c : EgressCore T)

/-- `backoff`: doubling from the base, in saturating `u64`, up to the ceiling. -/
def backoff (attempt : Nat) : Nat :=
  min (min (c.policy.retryBase * 2 ^ min (attempt - 1) 63) (2 ^ 64 - 1)) c.policy.retryCeiling

def enqueue (payload : T) : EgressCore T × EgressChange × Nat :=
  ({ c with
      nextSequence := min (c.nextSequence + 1) (2 ^ 64 - 1)
      pending := c.pending ++ [⟨c.generation, c.nextSequence, 0, payload⟩] },
    { EgressChange.default with pending := true }, c.nextSequence)

/-- The retry marker goes when it is about `sequence`. -/
def clearsRetry (sequence : Nat) : Bool := c.retry.any (·.sequence == sequence)

variable (generation : Nat)

def claim : EgressCore T × EgressChange × EgressClaim T :=
  if generation ≠ c.generation then (c, .default, .staleGeneration c.generation)
  else if c.policy.inflightLimit ≤ c.inflight.size then (c, .default, .windowFull)
  else
    match c.pending with
    | [] => (c, .default, .empty)
    | front :: rest =>
      let record := { front with
        generation := c.generation
        attempt := min (front.attempt + 1) (2 ^ 32 - 1) }
      ({ c with
          pending := rest
          inflight := c.inflight.insert record.sequence record
          retry := if c.clearsRetry record.sequence then none else c.retry },
        { pending := true, inflight := true, ackedThrough := false,
          retry := c.clearsRetry record.sequence },
        .claimed record)

def ack (through : Nat) : EgressCore T × EgressChange × EgressAck :=
  if generation ≠ c.generation then (c, .default, .staleGeneration c.generation)
  else if c.ackedThrough.any (through ≤ ·) then (c, .default, .unchanged c.ackedThrough)
  else
    let inflight := c.inflight.filter fun sequence _ => through < sequence
    let pending := c.pending.filter fun record => through < record.sequence
    let retryChanged := c.retry.any (·.sequence ≤ through)
    ({ c with
        ackedThrough := some through
        inflight := inflight
        failed := c.failed.filter fun sequence _ => through < sequence
        pending := pending
        retry := if retryChanged then none else c.retry },
      { pending := pending.length ≠ c.pending.length, inflight := inflight.size ≠ c.inflight.size,
        ackedThrough := true, retry := retryChanged },
      .advanced through)

/-- Park a failed in-flight record while its budget lasts; after that it is dropped. -/
def fail (sequence : Nat) : EgressCore T × EgressChange × EgressFailure :=
  if generation ≠ c.generation then (c, .default, .staleGeneration c.generation)
  else
    match c.inflight[sequence]? with
    | none => (c, .default, .unknownSequence)
    | some record =>
      let exhausted : Bool := c.policy.retryBudget < record.attempt
      let retry : EgressRetry := ⟨sequence, record.attempt, c.backoff record.attempt, exhausted⟩
      ({ c with
          inflight := c.inflight.erase sequence
          failed := if exhausted then c.failed else c.failed.insert sequence record
          retry := some retry },
        { pending := false, inflight := true, ackedThrough := false, retry := true },
        if exhausted then .exhausted retry else .retrying retry)

def retryNow (sequence : Nat) : EgressCore T × EgressChange × EgressRetryAction :=
  if generation ≠ c.generation then (c, .default, .staleGeneration c.generation)
  else
    match c.failed[sequence]? with
    | none => (c, .default, .unknownSequence)
    | some record =>
      ({ c with
          failed := c.failed.erase sequence
          pending := insertPendingOrdered c.pending record
          retry := if c.clearsRetry sequence then none else c.retry },
        { EgressChange.default with pending := true, retry := c.clearsRetry sequence },
        .scheduled sequence)

def requeue (pending records : List (Record T)) : List (Record T) :=
  records.foldl (fun pending record => insertPendingOrdered pending (record.under generation))
    pending

/-- Fence the previous attachment: what is in flight or parked is pending again. -/
def reconnect : EgressCore T × EgressChange × EgressReconnect :=
  if generation < c.generation then (c, .default, .staleGeneration c.generation)
  else if generation = c.generation then (c, .default, .unchanged c.generation)
  else
    let replayed := c.inflight.size + c.failed.size
    let pending := requeue generation (requeue generation c.pending c.inflight.vals)
      c.failed.vals
    ({ c with
        generation := generation
        inflight := ∅
        failed := ∅
        pending := pending.map (·.under generation)
        retry := none },
      { pending := 0 < replayed, inflight := 0 < replayed, ackedThrough := false,
        retry := c.retry.isSome },
      .advanced generation replayed)

end EgressCore

/-! ## Runs -/

inductive Op (T : Type) where
  | enqueue (payload : T)
  | claim (generation : Nat)
  | ack (generation through : Nat)
  | fail (generation sequence : Nat)
  | retryNow (generation sequence : Nat)
  | reconnect (generation : Nat)

/-- The state and the change flags an operation returns. -/
def EgressCore.apply {T : Type} (c : EgressCore T) : Op T → EgressCore T × EgressChange
  | .enqueue payload => ((c.enqueue payload).1, (c.enqueue payload).2.1)
  | .claim generation => ((c.claim generation).1, (c.claim generation).2.1)
  | .ack generation through => ((c.ack generation through).1, (c.ack generation through).2.1)
  | .fail generation sequence => ((c.fail generation sequence).1, (c.fail generation sequence).2.1)
  | .retryNow generation sequence =>
    ((c.retryNow generation sequence).1, (c.retryNow generation sequence).2.1)
  | .reconnect generation => ((c.reconnect generation).1, (c.reconnect generation).2.1)

def Op.isEnqueue {T : Type} : Op T → Bool
  | .enqueue _ => true
  | _ => false

/-- A core with what its callers saw: the sequences `enqueue` returned, and those `fail` reported as
exhausted. -/
structure History (T : Type) where
  core : EgressCore T
  issued : List Nat
  exhausted : List Nat

namespace History

variable {T : Type}

def step (h : History T) : Op T → History T
  | .enqueue payload =>
    let (core, _, sequence) := h.core.enqueue payload
    { h with core := core, issued := h.issued ++ [sequence] }
  | .claim generation => { h with core := (h.core.claim generation).1 }
  | .ack generation through => { h with core := (h.core.ack generation through).1 }
  | .fail generation sequence =>
    let (core, _, outcome) := h.core.fail generation sequence
    { h with
      core := core
      exhausted := match outcome with
        | .exhausted retry => h.exhausted ++ [retry.sequence]
        | _ => h.exhausted }
  | .retryNow generation sequence => { h with core := (h.core.retryNow generation sequence).1 }
  | .reconnect generation => { h with core := (h.core.reconnect generation).1 }

def run (h : History T) (ops : List (Op T)) : History T := ops.foldl step h

end History

/-! ## Change flags -/

/-- A projection that is not flagged is as before. -/
structure EgressChange.Sound {T : Type} (change : EgressChange) (c c' : EgressCore T) : Prop where
  pending : change.pending = false → c'.pending = c.pending
  inflight : change.inflight = false → c'.inflight.vals = c.inflight.vals
  ackedThrough : change.ackedThrough = false → c'.ackedThrough = c.ackedThrough
  retry : change.retry = false → c'.retry = c.retry

namespace EgressCore

variable {T : Type} {c : EgressCore T}

/-- A reconnect that replays nothing but stamps pending records with the new generation. -/
def Restamps (c : EgressCore T) : Op T → Prop
  | .reconnect generation => c.generation < generation ∧ c.inflight.size + c.failed.size = 0 ∧
      ∃ record ∈ c.pending, record.generation ≠ generation
  | _ => False

theorem sound_self (change : EgressChange) : change.Sound c c :=
  ⟨fun _ => rfl, fun _ => rfl, fun _ => rfl, fun _ => rfl⟩

section

variable (generation : Nat)

theorem sound_claim : (c.claim generation).2.1.Sound c (c.claim generation).1 := by
  unfold claim
  split
  · exact sound_self _
  split
  · exact sound_self _
  split
  · exact sound_self _
  · exact ⟨nofun, nofun, fun _ => rfl, fun h => if_neg (by simpa using h)⟩

/-- What a filter of the same size keeps is everything. -/
theorem sound_ack (through : Nat) :
    (c.ack generation through).2.1.Sound c (c.ack generation through).1 := by
  unfold ack
  split
  · exact sound_self _
  split
  · exact sound_self _
  refine ⟨fun h => ?_, fun h => ?_, nofun, fun h => if_neg (by simpa using h)⟩
  · exact List.filter_eq_self.2
      (List.length_filter_eq_length_iff.1 (not_not.1 (of_decide_eq_false h)))
  · exact congrArg SortedMap.vals (filter_eq_self_iff.2
      (size_filter_eq_size_iff.1 (not_not.1 (of_decide_eq_false h))))

theorem sound_fail (sequence : Nat) :
    (c.fail generation sequence).2.1.Sound c (c.fail generation sequence).1 := by
  unfold fail
  split
  · exact sound_self _
  split
  · exact sound_self _
  · exact ⟨fun _ => rfl, nofun, fun _ => rfl, nofun⟩

theorem sound_retryNow (sequence : Nat) :
    (c.retryNow generation sequence).2.1.Sound c (c.retryNow generation sequence).1 := by
  unfold retryNow
  split
  · exact sound_self _
  split
  · exact sound_self _
  · exact ⟨nofun, fun _ => rfl, fun _ => rfl, fun h => if_neg (by simpa using h)⟩

theorem map_under_eq_self_iff (pending : List (Record T)) :
    pending.map (·.under generation) = pending ↔
      ∀ record ∈ pending, record.generation = generation := by
  induction pending with
  | nil => simp
  | cons record rest ih =>
    have hrecord : record.under generation = record ↔ record.generation = generation :=
      ⟨fun h => (congrArg EgressEnvelope.generation h).symm, fun h => by subst h; rfl⟩
    simp [ih, hrecord]

theorem sound_reconnect_iff : (c.reconnect generation).2.1.Sound c (c.reconnect generation).1 ↔
      ¬ c.Restamps (.reconnect generation) := by
  unfold reconnect
  split
  · exact iff_of_true (sound_self _) fun h => by have := h.1; omega
  split
  · exact iff_of_true (sound_self _) fun h => by have := h.1; omega
  have hlt : c.generation < generation := by omega
  have hretry : c.retry.isSome = false → none = c.retry := by cases c.retry <;> simp
  by_cases hnone : c.inflight.size + c.failed.size = 0
  · have hinflight : c.inflight = ∅ := eq_empty_iff_size_eq_zero.2 (by omega)
    have hfailed : c.failed = ∅ := eq_empty_iff_size_eq_zero.2 (by omega)
    have hpending : requeue generation (requeue generation c.pending c.inflight.vals)
        c.failed.vals = c.pending := by rw [hinflight, hfailed]; rfl
    have hkept : ¬ c.Restamps (.reconnect generation) ↔
        c.pending.map (·.under generation) = c.pending := by
      simp [Restamps, hlt, hnone, map_under_eq_self_iff]
    simp only [hkept, hpending]
    exact ⟨fun h => h.pending (by simp [hnone]),
      fun h => ⟨fun _ => h, fun _ => by rw [hinflight], fun _ => rfl, hretry⟩⟩
  · have hreplayed : 0 < c.inflight.size + c.failed.size := by omega
    refine iff_of_true ⟨?_, ?_, fun _ => rfl, hretry⟩ fun h => hnone h.2.1
    · simp [hreplayed]
    · simp [hreplayed]

end

/-- The flags of every operation are sound in every state, except those of a reconnect that replays
nothing while values are pending under another generation. -/
theorem apply_sound_iff (c : EgressCore T) (op : Op T) :
    (c.apply op).2.Sound c (c.apply op).1 ↔ ¬ c.Restamps op := by
  cases op with
  | enqueue payload => exact iff_of_true ⟨nofun, fun _ => rfl, fun _ => rfl, fun _ => rfl⟩ id
  | claim generation => exact iff_of_true (sound_claim generation) id
  | ack generation through => exact iff_of_true (sound_ack generation through) id
  | fail generation sequence => exact iff_of_true (sound_fail generation sequence) id
  | retryNow generation sequence => exact iff_of_true (sound_retryNow generation sequence) id
  | reconnect generation => exact sound_reconnect_iff generation

/-- A value enqueued before a reconnect is pending under the new generation, and nothing says so. -/
theorem reconnect_restamps_unflagged :
    let c := ((⟨.default, 0, 0, none, [], ∅, ∅, none⟩ : EgressCore Nat).enqueue 7).1
    c.pending = [⟨0, 0, 0, 7⟩] ∧ (c.reconnect 1).1.pending = [⟨1, 0, 0, 7⟩] ∧
      (c.reconnect 1).2.1 = .default ∧ ¬ (c.reconnect 1).2.1.Sound c (c.reconnect 1).1 := by
  refine ⟨by decide, by decide, by decide, fun h => ?_⟩
  exact absurd (h.pending (by decide)) (by decide)

end EgressCore

end Lazily.Egress
