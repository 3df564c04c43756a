import Lazily.Lib.Table
import Lazily.Merge
import Mathlib.Algebra.Ring.Nat

/-!
# The admission algebra behind the ingress cells

`IngressCore` holds keyed lifecycle scopes and a bounded receipt log (`ingress_core.rs`). Every
transition returns an `IngressChange`: the reader kinds it dirtied, per scope and per receipt
channel. A shell clears exactly these. `observed_refused_iff`: when an envelope that is refused
leaves every scope as an observer finds it.

Keys and payloads are generic. Counters of type `u64` are natural numbers; where the source
saturates, so does the model. A scope also records the payloads that were delivered into its window
with the generation they were delivered under (`delivered`, cut by a drain, a close and a
`DropOldest` eviction); no transition reads this record.
-/

namespace Lazily.Ingress

/-! ## Values -/

structure IngressPolicy where
  reorderWindow : Nat
  freshnessHorizon : Nat
  highWater : Nat
  overflow : Overflow
  receiptCapacity : Nat
  retryBase : Nat
  retryCeiling : Nat
  deriving DecidableEq, Repr

def IngressPolicy.default : IngressPolicy where
  reorderWindow := 8
  freshnessHorizon := 1000
  highWater := 64
  overflow := .conflate
  receiptCapacity := 256
  retryBase := 10
  retryCeiling := 10000

inductive IngressConfigError where
  | conflateNotBounding | zeroReceiptCapacity
  deriving DecidableEq, Repr

structure IngressEnvelope (K T : Type) where
  key : K
  generation : Nat
  sequence : Nat
  stampedAt : Nat
  payload : T
  deriving DecidableEq, Repr

inductive IngressDropReason where
  | staleGeneration | duplicateSequence | duplicateBuffered | reorderWindowOverflow | expired
  | backpressure | scopeClosed
  deriving DecidableEq, Repr

inductive IngressError where
  | transportClosed | decodeFailed | authorityLost
  deriving DecidableEq, Repr

inductive IngressAdmission where
  | accepted (deliveredThrough : Nat)
  | conflated (deliveredThrough : Nat)
  | buffered (gapFrom : Nat)
  | generationHandoff (old new : Nat)
  | dropped (reason : IngressDropReason)
  | blocked
  deriving DecidableEq, Repr

inductive IngressLifecycle where
  | opening | live | suspended | closed
  deriving DecidableEq, Repr

inductive IngressReadiness where
  | unknown | warming | ready | stale | suspended | closed
  deriving DecidableEq, Repr

structure IngressAuthority where
  generation : Nat
  deliveredThrough : Option Nat
  stampedAt : Nat
  deriving DecidableEq, Repr

structure IngressRetry where
  attempt : Nat
  backoff : Nat
  resumeFrom : Nat
  deriving DecidableEq, Repr

structure ReplayRequest where
  generation : Nat
  fromSequence : Nat
  deriving DecidableEq, Repr

inductive IngressReceiptChannel where
  | accepted | dropped | error
  deriving DecidableEq, Repr

inductive IngressReceiptOutcome where
  | accepted (deliveredThrough : Nat) (conflated : Bool)
  | dropped (reason : IngressDropReason)
  | error (error : IngressError)
  deriving DecidableEq, Repr

structure IngressReceipt (K : Type) where
  offset : Nat
  key : K
  generation : Nat
  sequence : Option Nat
  outcome : IngressReceiptOutcome
  deriving DecidableEq, Repr

def IngressReceiptOutcome.channel : IngressReceiptOutcome → IngressReceiptChannel
  | .accepted _ _ => .accepted
  | .dropped _ => .dropped
  | .error _ => .error

def IngressReceipt.channel {K : Type} (r : IngressReceipt K) : IngressReceiptChannel :=
  r.outcome.channel

/-! ## Invalidation sets -/

/-- Which of a scope's reader kinds a transition dirtied. -/
structure IngressScopeChange where
  value : Bool
  readiness : Bool
  authority : Bool
  retry : Bool
  deriving DecidableEq, Repr

namespace IngressScopeChange

def default : IngressScopeChange := ⟨false, false, false, false⟩

def isEmpty (c : IngressScopeChange) : Bool := !(c.value || c.readiness || c.authority || c.retry)

def all : IngressScopeChange := ⟨true, true, true, true⟩

def readinessOnly : IngressScopeChange := { default with readiness := true }

def valueOnly : IngressScopeChange := { default with value := true }

def retryOnly : IngressScopeChange := { default with retry := true }

/-- What the first appearance of a scope changes. -/
def creation : IngressScopeChange := { default with readiness := true, authority := true }

def union (c d : IngressScopeChange) : IngressScopeChange :=
  ⟨c.value || d.value, c.readiness || d.readiness, c.authority || d.authority, c.retry || d.retry⟩

end IngressScopeChange

/-- The invalidation set of one transition. -/
structure IngressChange (K : Type) where
  scopes : List (K × IngressScopeChange)
  acceptedReceipts : Bool
  droppedReceipts : Bool
  errorReceipts : Bool
  deriving DecidableEq, Repr

namespace IngressChange

variable {K : Type}

def default : IngressChange K := ⟨[], false, false, false⟩

variable (c : IngressChange K)

def mark (key : K) (change : IngressScopeChange) : IngressChange K :=
  if change.isEmpty then c else { c with scopes := c.scopes ++ [(key, change)] }

def markChannel : IngressReceiptChannel → IngressChange K
  | .accepted => { c with acceptedReceipts := true }
  | .dropped => { c with droppedReceipts := true }
  | .error => { c with errorReceipts := true }

/-- Whether the reader of a receipt channel is cleared. -/
def channel : IngressReceiptChannel → Bool
  | .accepted => c.acceptedReceipts
  | .dropped => c.droppedReceipts
  | .error => c.errorReceipts

end IngressChange

/-! ## One scope -/

structure Scope (T : Type) where
  lifecycle : IngressLifecycle
  generation : Nat
  deliveredThrough : Option Nat
  stampedAt : Nat
  pending : AList fun _ : Nat => T × Nat
  window : Option T
  windowDepth : Nat
  consecutiveErrors : Nat
  /-- Observation only: what was delivered into the window, with its generation. -/
  delivered : List (Nat × T)

/-- The read-only projection that every derive is computed from. -/
structure ScopeView where
  lifecycle : IngressLifecycle
  generation : Nat
  deliveredThrough : Option Nat
  stampedAt : Nat
  buffered : Nat
  windowDepth : Nat
  consecutiveErrors : Nat
  observedNow : Nat
  policy : IngressPolicy

namespace ScopeView

variable (v : ScopeView)

def isFresh : Bool := v.observedNow - v.stampedAt ≤ v.policy.freshnessHorizon

def readiness : IngressReadiness :=
  match v.lifecycle with
  | .closed => .closed
  | .suspended => .suspended
  | .opening => .warming
  | .live => if v.deliveredThrough.isNone then .warming else if v.isFresh then .ready else .stale

def authority : Option IngressAuthority :=
  if v.lifecycle = .closed then none
  else some ⟨v.generation, v.deliveredThrough, v.stampedAt⟩

def resumeFrom : Nat := v.deliveredThrough.elim 0 (· + 1)

def hasGap : Bool := 0 < v.buffered

/-- Exponential backoff in saturating `u64`, clamped to the ceiling. -/
def retry : Option IngressRetry :=
  if v.consecutiveErrors = 0 then none
  else
    let shift := min (v.consecutiveErrors - 1) 31
    some ⟨v.consecutiveErrors,
      min (min (v.policy.retryBase * 2 ^ shift) (2 ^ 64 - 1)) v.policy.retryCeiling, v.resumeFrom⟩

end ScopeView

namespace Scope

variable {T : Type}

def new (generation : Nat) : Scope T where
  lifecycle := .opening
  generation := generation
  deliveredThrough := none
  stampedAt := 0
  pending := ∅
  window := none
  windowDepth := 0
  consecutiveErrors := 0
  delivered := []

variable (s : Scope T)

def view (observedNow : Nat) (policy : IngressPolicy) : ScopeView where
  lifecycle := s.lifecycle
  generation := s.generation
  deliveredThrough := s.deliveredThrough
  stampedAt := s.stampedAt
  buffered := s.pending.keys.length
  windowDepth := s.windowDepth
  consecutiveErrors := s.consecutiveErrors
  observedNow := observedNow
  policy := policy

def nextExpected : Nat := s.deliveredThrough.elim 0 (· + 1)

def liveOrOpening : IngressLifecycle :=
  if s.deliveredThrough.isSome then .live else .opening

end Scope

inductive Decision where
  | refuse (reason : IngressDropReason)
  | block
  | buffered (gapFrom : Nat)
  | delivered (deliveredThrough : Nat) (conflated : Bool) (handoff : Option (Nat × Nat))
  deriving DecidableEq, Repr

namespace Scope

variable {T : Type} (M : MergePolicy T) {motive : Scope T × Decision → Prop} {s : Scope T}
    {payload : T}

/-- Merge one payload into the hot head; whether it coalesced with an existing window. -/
def mergeInto (s : Scope T) (payload : T) (stampedAt : Nat) : Scope T × Bool :=
  let s' := { s with
    windowDepth := s.windowDepth + 1
    stampedAt := max s.stampedAt stampedAt
    delivered := s.delivered ++ [(s.generation, payload)] }
  match s.window with
  | none => ({ s' with window := some payload }, false)
  | some current => ({ s' with window := some (M.merge current payload) }, true)

/-- Flush the buffered successors of what has been delivered. Every round takes one out of the
buffer, so a fuel of its size is enough. -/
def flush : Nat → Scope T → Nat → Bool → Scope T × Nat × Bool
  | 0, s, deliveredThrough, conflated => (s, deliveredThrough, conflated)
  | fuel + 1, s, deliveredThrough, conflated =>
    let next := s.nextExpected
    match s.pending.lookup next with
    | none => (s, deliveredThrough, conflated)
    | some (buffered, bufferedStamp) =>
      let (s, c) := mergeInto M { s with pending := s.pending.erase next } buffered bufferedStamp
      flush fuel { s with deliveredThrough := some next } next (conflated || c)

/-- A newer producer incarnation takes over: a baseline reset. -/
def handoff (s : Scope T) (generation : Nat) : Scope T :=
  { s with
    generation := generation
    deliveredThrough := none
    pending := ∅
    window := none
    windowDepth := 0 }

/-- An envelope in order, once backpressure has let it through. -/
def deliver (s : Scope T) (sequence stampedAt : Nat) (payload : T) (handoff : Option (Nat × Nat)) :
    Scope T × Decision :=
  let (s, conflated) := mergeInto M s payload stampedAt
  let s := { s with deliveredThrough := some sequence, lifecycle := .live, consecutiveErrors := 0 }
  let (s, deliveredThrough, conflated) := flush M s.pending.keys.length s sequence conflated
  (s, .delivered deliveredThrough conflated handoff)

variable (policy : IngressPolicy)

/-- Dedupe, ordering and backpressure, behind the generation fence. -/
def sequenced (s : Scope T) (sequence stampedAt : Nat) (payload : T)
    (handoff : Option (Nat × Nat)) : Scope T × Decision :=
  let expected := s.nextExpected
  if sequence < expected then (s, .refuse .duplicateSequence)
  else if expected < sequence then
    if (s.pending.lookup sequence).isSome then (s, .refuse .duplicateBuffered)
    else if policy.reorderWindow ≤ s.pending.keys.length then (s, .refuse .reorderWindowOverflow)
    else
      ({ s with pending := s.pending.insert sequence (payload, stampedAt) }, .buffered expected)
  else if policy.highWater ≤ s.windowDepth then
    match policy.overflow with
    | .block => (s, .block)
    | .dropNewest => (s, .refuse .backpressure)
    | .dropOldest =>
      deliver M { s with window := none, windowDepth := 0, delivered := [] } sequence stampedAt
        payload handoff
    | .conflate | .spill => deliver M s sequence stampedAt payload handoff
  else deliver M s sequence stampedAt payload handoff

/-- The envelope is the next one, and backpressure lets it through. -/
def InOrder (s : Scope T) (sequence : Nat) : Prop :=
  sequence = s.nextExpected ∧
    (s.windowDepth < policy.highWater ∨ policy.overflow ≠ .block ∧ policy.overflow ≠ .dropNewest)

/-- The envelope is ahead of its turn, and the reorder buffer has room for it. -/
def Ahead (s : Scope T) (sequence : Nat) : Prop :=
  s.nextExpected < sequence ∧ s.pending.lookup sequence = none ∧
    s.pending.keys.length < policy.reorderWindow

/-- The ways `sequenced` can end: the scope as it was, the envelope in the buffer, or a delivery,
which `dropOldest` makes room for. -/
theorem sequenced_cases {sequence stampedAt : Nat} {handoff : Option (Nat × Nat)}
    (refuse : ¬(s.InOrder policy sequence ∨ s.Ahead policy sequence) →
      ∀ reason, motive (s, .refuse reason))
    (block : ¬(s.InOrder policy sequence ∨ s.Ahead policy sequence) → motive (s, .block))
    (buffered : s.Ahead policy sequence → ∀ expected, motive
      ({ s with pending := s.pending.insert sequence (payload, stampedAt) }, .buffered expected))
    (dropOldest : s.InOrder policy sequence →
      motive (deliver M { s with window := none, windowDepth := 0, delivered := [] }
        sequence stampedAt payload handoff)) (delivered : s.InOrder policy sequence →
      motive (deliver M s sequence stampedAt payload handoff)) :
    motive (sequenced M policy s sequence stampedAt payload handoff) := by
  unfold InOrder Ahead at *
  simp only [sequenced]
  split
  · exact refuse (by omega) _
  · split
    · rename_i hahead
      split
      · rename_i hbuf
        exact refuse (by rintro (h | ⟨-, h, -⟩) <;> [omega; simp [h] at hbuf]) _
      · rename_i hbuf
        split
        · exact refuse (by omega) _
        · exact buffered ⟨hahead, by simpa using hbuf, by omega⟩ _
    · have hseq : sequence = s.nextExpected := by omega
      split
      · split <;> rename_i ho
        · exact block (by simp [ho]; omega)
        · exact refuse (by simp [ho]; omega) _
        · exact dropOldest ⟨hseq, .inr (by simp [ho])⟩
        · exact delivered ⟨hseq, .inr (by simp [ho])⟩
        · exact delivered ⟨hseq, .inr (by simp [ho])⟩
      · exact delivered ⟨hseq, .inl (by omega)⟩

/-- The admission algebra proper: lifecycle, fence, freshness, then the sequence. -/
def decide (observedNow : Nat) (s : Scope T)
    (generation sequence stampedAt : Nat) (payload : T) : Scope T × Decision :=
  if s.lifecycle = .closed then (s, .refuse .scopeClosed)
  else if generation < s.generation then (s, .refuse .staleGeneration)
  else if policy.freshnessHorizon < observedNow - stampedAt then (s, .refuse .expired)
  else if s.generation < generation then
    sequenced M policy (s.handoff generation) sequence stampedAt payload
      (some (s.generation, generation))
  else sequenced M policy s sequence stampedAt payload none

/-- The scope that the sequence of an envelope is checked against. -/
def baseline (s : Scope T) (generation : Nat) : Scope T :=
  if s.generation < generation then s.handoff generation else s

/-- The envelope passes lifecycle, fence and freshness. -/
def Admits (now : Nat) (s : Scope T) (generation stampedAt : Nat) : Prop :=
  s.lifecycle ≠ .closed ∧ s.generation ≤ generation ∧ now - stampedAt ≤ policy.freshnessHorizon

/-- An envelope is refused by the checks before its sequence, or its sequence decides. -/
theorem decide_cases {now : Nat} {generation sequence stampedAt : Nat}
    (refuse : ¬s.Admits policy now generation stampedAt → ∀ reason, motive (s, .refuse reason))
    (sequenced : s.Admits policy now generation stampedAt → ∀ handoff, motive
      (sequenced M policy (s.baseline generation) sequence stampedAt payload handoff)) :
    motive (s.decide M policy now generation sequence stampedAt payload) := by
  unfold decide
  split_ifs with hclosed hfence hfresh hgeneration
  · exact refuse (fun h => h.1 hclosed) _
  · exact refuse (fun h => Nat.not_le.2 hfence h.2.1) _
  · exact refuse (fun h => Nat.not_le.2 hfresh h.2.2) _
  · have h := sequenced ⟨hclosed, Nat.not_lt.1 hfence, Nat.not_lt.1 hfresh⟩
    rw [baseline, if_pos hgeneration] at h
    exact h _
  · have h := sequenced ⟨hclosed, Nat.not_lt.1 hfence, Nat.not_lt.1 hfresh⟩
    rw [baseline, if_neg hgeneration] at h
    exact h _

/-! ## The transitions of one scope

What each transition does to the scope of its key, and which reader kinds it marks. -/

/-- `open`: a closed scope starts over, any other keeps its window. -/
def reopen (generation : Nat) : Option (Scope T) → Scope T × IngressScopeChange
  | none => (.new generation, .creation)
  | some s =>
    let s' : Scope T :=
      if s.lifecycle = .closed then .new generation
      else if s.generation < generation then
        { s with
          lifecycle := s.liveOrOpening
          generation := generation
          deliveredThrough := none
          pending := ∅ }
      else { s with lifecycle := s.liveOrOpening }
    (s', if (s.lifecycle, s.generation, s.deliveredThrough) ≠
        (s'.lifecycle, s'.generation, s'.deliveredThrough) then
      { value := false, readiness := s.lifecycle ≠ s'.lifecycle, authority := true, retry := false }
      else .default)

/-- `suspend`, of a scope that is neither suspended nor closed. -/
def suspend (s : Scope T) : Scope T × IngressScopeChange × ReplayRequest :=
  ({ s with lifecycle := .suspended }, .readinessOnly, ⟨s.generation, s.nextExpected⟩)

/-- `reconnect`: the error streak ends; a higher generation is a handoff. -/
def reconnect (generation : Nat) (scope : Option (Scope T)) :
    Scope T × IngressScopeChange × ReplayRequest :=
  let s := scope.getD (.new generation)
  let isHandoff : Bool := s.generation < generation
  let s₁ := if isHandoff then s.handoff generation else s
  let s₂ := { s₁ with lifecycle := s₁.liveOrOpening, consecutiveErrors := 0 }
  let base : IngressScopeChange :=
    { value := isHandoff && s.window.isSome
      readiness := s.lifecycle ≠ s₂.lifecycle
      authority := isHandoff
      retry := 0 < s.consecutiveErrors }
  (s₂, if scope.isNone then base.union .creation else base, ⟨s₂.generation, s₂.nextExpected⟩)

/-- `close`, of a scope that is not closed. -/
def close (s : Scope T) : Scope T × IngressScopeChange :=
  ({ s with
      lifecycle := .closed
      pending := ∅
      window := none
      windowDepth := 0
      consecutiveErrors := 0
      delivered := [] },
    { value := s.window.isSome
      readiness := true
      authority := true
      retry := 0 < s.consecutiveErrors })

/-- `fail`: the error streak grows (saturating `u32`). -/
def fail (scope : Option (Scope T)) : Scope T × IngressScopeChange :=
  let s := scope.getD (.new 0)
  ({ s with consecutiveErrors := min (s.consecutiveErrors + 1) (2 ^ 32 - 1) },
    if scope.isNone then IngressScopeChange.retryOnly.union .creation else .retryOnly)

/-- What `admit` marks for an envelope that is buffered. -/
def bufferedChange (before : Option (Scope T)) (after : Scope T) : IngressScopeChange :=
  match before with
  | none => .creation
  | some s =>
    { value := s.window.isSome ≠ after.window.isSome
      readiness := s.lifecycle ≠ after.lifecycle ||
        s.deliveredThrough.isNone ≠ after.deliveredThrough.isNone
      authority := s.generation ≠ after.generation || s.deliveredThrough ≠ after.deliveredThrough
      retry := false }

end Scope

/-! ## The core -/

/-- Keyed scopes and a bounded receipt log. -/
structure IngressCore (K T : Type) where
  policy : IngressPolicy
  scopes : AList fun _ : K => Scope T
  receiptLog : List (IngressReceipt K)
  nextReceiptOffset : Nat
  observedNow : Nat

namespace IngressCore

variable {K T : Type} [DecidableEq K] (M : MergePolicy T)

def new (policy : IngressPolicy) : Except IngressConfigError (IngressCore K T) :=
  if policy.overflow = .conflate ∧ M.conflates = false then .error .conflateNotBounding
  else if policy.receiptCapacity = 0 then .error .zeroReceiptCapacity
  else .ok ⟨policy, ∅, [], 0, 0⟩

variable (c : IngressCore K T) (key : K)

def view : Option ScopeView :=
  (c.scopes.lookup key).map fun s => s.view c.observedNow c.policy

def readiness : IngressReadiness :=
  (c.view key).elim .unknown ScopeView.readiness

def authority : Option IngressAuthority :=
  (c.view key).bind ScopeView.authority

def retry : Option IngressRetry := (c.view key).bind ScopeView.retry

def peek : Option T := (c.scopes.lookup key).bind Scope.window

def receipts (channel : IngressReceiptChannel) : List (IngressReceipt K) :=
  c.receiptLog.filter fun r => r.channel = channel

def setScope (s : Scope T) : IngressCore K T :=
  { c with scopes := c.scopes.insert key s }

variable (generation : Nat)

/-- Mint a receipt; the oldest ones beyond the capacity are evicted. -/
def pushReceipt (sequence : Option Nat) (outcome : IngressReceiptOutcome) : IngressCore K T :=
  let log := c.receiptLog ++ [⟨c.nextReceiptOffset, key, generation, sequence, outcome⟩]
  { c with
    receiptLog := log.drop (log.length - c.policy.receiptCapacity)
    nextReceiptOffset := c.nextReceiptOffset + 1 }

def openScope : IngressCore K T × IngressChange K :=
  let (s, change) := Scope.reopen generation (c.scopes.lookup key)
  (c.setScope key s, IngressChange.default.mark key change)

def suspend : IngressCore K T × IngressChange K × Option ReplayRequest :=
  match c.scopes.lookup key with
  | none => (c, .default, none)
  | some s =>
    if s.lifecycle = .suspended ∨ s.lifecycle = .closed then (c, .default, none)
    else
      let (s, change, request) := s.suspend
      (c.setScope key s, IngressChange.default.mark key change, some request)

def reconnect : IngressCore K T × IngressChange K × ReplayRequest :=
  let (s, change, request) := Scope.reconnect generation (c.scopes.lookup key)
  (c.setScope key s, IngressChange.default.mark key change, request)

def close : IngressCore K T × IngressChange K :=
  match c.scopes.lookup key with
  | none => (c, .default)
  | some s =>
    if s.lifecycle = .closed then (c, .default)
    else
      let (s, change) := s.close
      (c.setScope key s, IngressChange.default.mark key change)

/-- Advance logical time: the scopes whose readiness differs are marked. -/
def tick (now : Nat) : IngressCore K T × IngressChange K :=
  if now = c.observedNow then (c, .default)
  else
    ({ c with observedNow := now },
      c.scopes.entries.foldl (fun change e =>
        if (e.2.view c.observedNow c.policy).readiness ≠ (e.2.view now c.policy).readiness then
          change.mark e.1 .readinessOnly
        else change) .default)

def fail (error : IngressError) : IngressCore K T × IngressChange K :=
  let (s, change) := Scope.fail (c.scopes.lookup key)
  ((c.setScope key s).pushReceipt key s.generation none (.error error),
    (IngressChange.default.mark key change).markChannel .error)

def drain : IngressCore K T × IngressChange K × Option T :=
  match c.scopes.lookup key with
  | none => (c, .default, none)
  | some s =>
    match s.window with
    | none => (c, .default, none)
    | some value =>
      (c.setScope key { s with window := none, windowDepth := 0, delivered := [] },
        IngressChange.default.mark key .valueOnly, some value)

variable (e : IngressEnvelope K T)

/-- The decision for an envelope, with the scope it leads to (a new one for an unknown key). -/
def decided : Scope T × Decision :=
  ((c.scopes.lookup e.key).getD (.new e.generation)).decide M c.policy c.observedNow
    e.generation e.sequence e.stampedAt e.payload

/-- A refused envelope: the scope is written back, unless it was only made for this envelope. -/
def refused (s : Scope T) (reason : IngressDropReason) : IngressCore K T :=
  if (c.scopes.lookup e.key).isNone then
    c.pushReceipt e.key e.generation (some e.sequence) (.dropped reason)
  else
    (c.setScope e.key s).pushReceipt e.key s.generation (some e.sequence) (.dropped reason)

def admitEnvelope : IngressCore K T × IngressChange K × IngressAdmission :=
  let s := (c.decided M e).1
  match (c.decided M e).2 with
  | .refuse reason =>
    (c.refused e s reason, IngressChange.default.markChannel .dropped, .dropped reason)
  | .block =>
    (c.refused e s .backpressure, IngressChange.default.markChannel .dropped, .blocked)
  | .buffered gapFrom =>
    (c.setScope e.key s,
      IngressChange.default.mark e.key (Scope.bufferedChange (c.scopes.lookup e.key) s),
      .buffered gapFrom)
  | .delivered deliveredThrough conflated handoff =>
    ((c.setScope e.key s).pushReceipt e.key s.generation (some e.sequence)
        (.accepted deliveredThrough conflated),
      (IngressChange.default.mark e.key .all).markChannel .accepted,
      match handoff with
      | some (old, new) => .generationHandoff old new
      | none => if conflated then .conflated deliveredThrough else .accepted deliveredThrough)

/-! ## Runs -/

inductive Transition (K T : Type) where
  | openScope (key : K) (generation : Nat)
  | suspend (key : K)
  | reconnect (key : K) (generation : Nat)
  | close (key : K)
  | tick (now : Nat)
  | fail (key : K) (error : IngressError)
  | drain (key : K)
  | admitEnvelope (envelope : IngressEnvelope K T)

def step : Transition K T → IngressCore K T × IngressChange K
  | .openScope key generation => c.openScope key generation
  | .suspend key => ((c.suspend key).1, (c.suspend key).2.1)
  | .reconnect key generation => ((c.reconnect key generation).1, (c.reconnect key generation).2.1)
  | .close key => c.close key
  | .tick now => c.tick now
  | .fail key error => c.fail key error
  | .drain key => ((c.drain key).1, (c.drain key).2.1)
  | .admitEnvelope envelope => ((c.admitEnvelope M envelope).1, (c.admitEnvelope M envelope).2.1)

def run (ts : List (Transition K T)) : IngressCore K T :=
  ts.foldl (fun c t => (c.step M t).1) c

/-- What a transition makes of the scope of its key. -/
inductive Moves (policy : IngressPolicy) (now : Nat) :
    K → Transition K T → Option (Scope T) → Scope T → Prop
  | openScope (key : K) (generation : Nat) (before : Option (Scope T)) :
    Moves policy now key (.openScope key generation) before (Scope.reopen generation before).1
  | suspend (key : K) (s : Scope T) : Moves policy now key (.suspend key) (some s) s.suspend.1
  | reconnect (key : K) (generation : Nat) (before : Option (Scope T)) :
    Moves policy now key (.reconnect key generation) before (Scope.reconnect generation before).1
  | close (key : K) (s : Scope T) : Moves policy now key (.close key) (some s) s.close.1
  | fail (key : K) (error : IngressError) (before : Option (Scope T)) :
    Moves policy now key (.fail key error) before (Scope.fail before).1
  | drain (key : K) (s : Scope T) : Moves policy now key (.drain key) (some s)
      { s with window := none, windowDepth := 0, delivered := [] }
  | admitEnvelope (e : IngressEnvelope K T) (before : Option (Scope T)) :
    Moves policy now e.key (.admitEnvelope e) before
      ((before.getD (.new e.generation)).decide M policy now e.generation e.sequence e.stampedAt
        e.payload).1

theorem lookup_setScope {c : IngressCore K T} {key k : K} {s : Scope T} :
    (c.setScope key s).scopes.lookup k = if k = key then some s else c.scopes.lookup k :=
  Lib.Table.lookup_insert_if

/-- After a transition a scope is as it was, or what the transition makes of it. -/
theorem lookup_step (t : Transition K T) (k : K) :
    (c.step M t).1.scopes.lookup k = c.scopes.lookup k ∨
      ∃ s, (c.step M t).1.scopes.lookup k = some s ∧
        Moves M c.policy c.observedNow k t (c.scopes.lookup k) s := by
  have hset : ∀ {key s}, Moves M c.policy c.observedNow key t (c.scopes.lookup key) s →
      (c.setScope key s).scopes.lookup k = c.scopes.lookup k ∨
        ∃ s', (c.setScope key s).scopes.lookup k = some s' ∧
          Moves M c.policy c.observedNow k t (c.scopes.lookup k) s' := by
    intro key s hmove
    rw [lookup_setScope]
    split
    · rename_i heq
      exact .inr ⟨s, rfl, heq ▸ hmove⟩
    · exact .inl rfl
  cases t with
  | openScope key generation => exact hset (.openScope ..)
  | reconnect key generation => exact hset (.reconnect ..)
  | suspend key | close key | drain key =>
    simp only [step, suspend, close, drain]
    cases hk : c.scopes.lookup key with
    | none => exact .inl rfl
    | some s =>
      dsimp only
      split
      · exact .inl rfl
      · exact hset (by rw [hk]; constructor)
  | tick now =>
    simp only [step, tick]
    split <;> exact .inl rfl
  | fail key error => exact hset (.fail ..)
  | admitEnvelope e =>
    have hmove := hset (.admitEnvelope e (c.scopes.lookup e.key))
    simp only [step, admitEnvelope, refused]
    split
    · split
      · exact .inl rfl
      · exact hmove
    · split
      · exact .inl rfl
      · exact hmove
    · exact hmove
    · exact hmove

end IngressCore

def emptyCore : IngressCore Nat Nat := ⟨.default, ∅, [], 0, 0⟩

/-!
## What an admission leaves

A refused envelope leaves a scope as it was, unless it came from a newer producer incarnation: the
handoff is made before the checks that may still refuse.
-/

variable {K T : Type} [DecidableEq K] (M : MergePolicy T)

/-! ## Refusals -/

def Decision.Refuses : Decision → Prop
  | .refuse _ | .block => True
  | .buffered _ | .delivered _ _ _ => False

/-- The sequence checks leave the scope of a refused envelope as it is. -/
theorem Scope.sequenced_refused {policy : IngressPolicy} {s : Scope T} {sequence stampedAt : Nat}
    {payload : T} {handoff : Option (Nat × Nat)}
    (h : (sequenced M policy s sequence stampedAt payload handoff).2.Refuses) :
    (sequenced M policy s sequence stampedAt payload handoff).1 = s := by
  revert h
  refine sequenced_cases M (motive := fun r => r.2.Refuses → r.1 = s) policy ?_ ?_ ?_ ?_ ?_ <;>
    simp [Decision.Refuses, deliver]

namespace IngressCore

/-- What can be observed of the scope of a key: its view, the buffer and the latest value. -/
def observed (c : IngressCore K T) (key : K) :
    Option (ScopeView × (AList fun _ : Nat => T × Nat) × Option T) :=
  (c.scopes.lookup key).map fun s => (s.view c.observedNow c.policy, s.pending, s.window)

/-- The envelope passes the lifecycle, the fence and the freshness checks of a scope that an older
incarnation holds. -/
def HandsOff (c : IngressCore K T) (e : IngressEnvelope K T) : Prop :=
  ∃ s, c.scopes.lookup e.key = some s ∧ s.lifecycle ≠ .closed ∧ s.generation < e.generation ∧
    c.observedNow - e.stampedAt ≤ c.policy.freshnessHorizon

variable {c : IngressCore K T} {e : IngressEnvelope K T}

theorem decided_refused (h : (c.decided M e).2.Refuses) {s : Scope T}
    (hs : c.scopes.lookup e.key = some s) :
    (c.HandsOff e ∧ (c.decided M e).1.generation ≠ s.generation) ∨
      (¬ c.HandsOff e ∧ (c.decided M e).1 = s) := by
  simp only [HandsOff, decided, hs, Option.getD_some, Scope.decide, Option.some.injEq,
    exists_eq_left'] at h ⊢
  split_ifs at h ⊢ with hclosed hfence hfresh hgeneration
  · exact .inr ⟨fun hh => hh.1 hclosed, rfl⟩
  · exact .inr ⟨fun hh => by omega, rfl⟩
  · exact .inr ⟨fun hh => by omega, rfl⟩
  · rw [Scope.sequenced_refused M h]
    exact .inl ⟨⟨hclosed, hgeneration, by omega⟩, Nat.ne_of_gt hgeneration⟩
  · rw [Scope.sequenced_refused M h]
    exact .inr ⟨fun hh => hgeneration hh.2.1, rfl⟩

/-- A refused envelope leaves every observable of every scope as it was, unless it hands the scope
over to a newer incarnation. -/
theorem observed_refused_iff (c : IngressCore K T) (e : IngressEnvelope K T)
    (h : (c.admitEnvelope M e).2.2 = .blocked ∨
      ∃ reason, (c.admitEnvelope M e).2.2 = .dropped reason) :
    (∀ key, (c.admitEnvelope M e).1.observed key = c.observed key) ↔ ¬ c.HandsOff e := by
  have hrefused : (c.decided M e).2.Refuses ∧ ∃ reason,
      (c.admitEnvelope M e).1 = c.refused e (c.decided M e).1 reason := by
    simp only [admitEnvelope] at h ⊢
    generalize (c.decided M e).2 = d at h ⊢
    cases d with
    | refuse reason => exact ⟨trivial, reason, rfl⟩
    | block => exact ⟨trivial, _, rfl⟩
    | buffered gapFrom => simp at h
    | delivered through conflated handoff =>
      dsimp only at h
      split at h <;> [skip; split at h] <;> simp at h
  obtain ⟨hd, reason, hafter⟩ := hrefused
  rw [hafter, refused]
  cases hs : c.scopes.lookup e.key with
  | none => exact iff_of_true (fun _ => rfl) (by simp [HandsOff, hs])
  | some s =>
    have hobserved : ∀ key s' generation, ((c.setScope e.key s').pushReceipt e.key generation
        (some e.sequence) (.dropped reason)).observed key = if key = e.key then
          some (s'.view c.observedNow c.policy, s'.pending, s'.window) else c.observed key := by
      intro key s' generation
      simp only [observed, pushReceipt, lookup_setScope]
      split <;> rfl
    simp only [Option.isNone_some, Bool.false_eq_true, if_false, hobserved]
    rcases decided_refused M hd hs with ⟨hh, hg⟩ | ⟨hh, heq⟩
    · refine iff_of_false (fun hall => hg ?_) (not_not_intro hh)
      simpa [observed, hs, Scope.view] using congrArg (·.map (·.1.generation)) (hall e.key)
    · refine iff_of_true (fun key => ?_) hh
      rw [heq]
      split
      · rename_i hkey
        rw [hkey, observed, hs, Option.map_some]
      · rfl

/-- The second of two equal envelopes leaves no trace. -/
theorem observed_refused_duplicate :
    let e : IngressEnvelope Nat Nat := ⟨0, 0, 0, 0, 5⟩
    let c := (emptyCore.admitEnvelope sumPolicy e).1
    ∀ key, (c.admitEnvelope sumPolicy e).1.observed key = c.observed key := by
  refine (observed_refused_iff sumPolicy _ _ (.inr ⟨.duplicateSequence, by decide⟩)).2 ?_
  rintro ⟨s, hs, -, hg, -⟩
  obtain rfl := Option.some.inj hs
  exact absurd hg (by decide)

/-- A first envelope of a newer incarnation that overflows the reorder window is dropped, but the
value that the older one had delivered is gone. -/
theorem handoff_dropped_loses_value :
    let policy := { IngressPolicy.default with reorderWindow := 0 }
    let c := (({ emptyCore with policy := policy } : IngressCore Nat Nat).admitEnvelope sumPolicy
      ⟨0, 0, 0, 0, 5⟩).1
    let r := c.admitEnvelope sumPolicy ⟨0, 1, 1, 0, 6⟩
    r.2.2 = .dropped .reorderWindowOverflow ∧ c.peek 0 = some 5 ∧ r.1.peek 0 = none ∧
      c.readiness 0 = .ready ∧ r.1.readiness 0 = .warming := by
  decide

end IngressCore

end Lazily.Ingress
