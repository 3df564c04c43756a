import Lazily.Lib.SortedMap

/-!
# The command projection (`command.rs`)

Commands are submitted, report progress by events and end by a terminal causal receipt. The
projection folds submissions, events, cancels and receipts into one entry for each command; after a
reconnect it folds the image another projection gives of itself. A call of the RPC facade reads its
outcome off the entry.

Replicas exchange images by any route and at any later time: a `CommandHistory` keeps every image
that was taken.
-/

namespace Lazily.Command

open Lib
open scoped SortedSet

variable {P K I : Type}

/-! ## Messages -/

structure CommandSubmit (K : Type) where
  commandId : K
  authorityGeneration : Nat
  deriving DecidableEq, Repr

/-- A cancel request; `causationId` is the id of the request itself. -/
structure CommandCancel (K I : Type) where
  commandId : K
  causationId : I
  authorityGeneration : Nat
  deriving DecidableEq, Repr

inductive CommandEventKind where
  | observed | accepted | started | progress | cancelled | superseded | timedOut
  deriving DecidableEq, Repr

structure CommandEvent (K I : Type) where
  eventId : I
  commandId : K
  kind : CommandEventKind
  generation : Nat
  deriving DecidableEq, Repr

inductive ReceiptOutcome where
  | observed | accepted | applied | rejected
  deriving DecidableEq, Repr

def ReceiptOutcome.isTerminal : ReceiptOutcome → Bool
  | .applied | .rejected => true
  | .observed | .accepted => false

structure CausalReceipt (K I : Type) where
  receiptId : I
  causationId : K
  generation : Nat
  outcome : ReceiptOutcome
  reason : Option String
  deriving DecidableEq, Repr

/-! ## Entries -/

inductive CommandStatus where
  | submitted | accepted | running | applied | rejected | cancelled | superseded | timedOut
  deriving DecidableEq, Repr

/-- The folded state of one command. -/
structure CommandProjectionEntry (K I : Type) where
  commandId : K
  status : CommandStatus
  terminal : Bool
  generation : Nat
  reason : Option String
  terminalReceiptId : Option I
  lastEventId : Option I
  deriving DecidableEq, Repr

/-- An image of a projection, also the resync frame of a reconnect. -/
structure CommandProjectionImage (K I : Type) where
  generation : Nat
  commands : List (CommandProjectionEntry K I)
  deriving DecidableEq, Repr

inductive CommandApplyStatus (K : Type) where
  | recorded
  | duplicate
  | unknown
  | staleGeneration (expected actual : Nat)
  | terminalConflict (commandId : K) (existing incoming : CommandStatus)
  deriving DecidableEq, Repr

/-- The status of a terminal outcome. The reason only refines a rejection. -/
def terminalStatusOf (outcome : ReceiptOutcome) (reason : Option String) : CommandStatus :=
  match outcome with
  | .applied => .applied
  | .rejected =>
    if reason = some "cancelled" then .cancelled
    else if reason = some "superseded" then .superseded
    else if reason = some "timed_out" then .timedOut
    else .rejected
  | .observed | .accepted => .accepted

/-- The non-terminal status an event advances to, if any. -/
def progressStatusOf : CommandEventKind → Option CommandStatus
  | .observed | .accepted => some .accepted
  | .started | .progress => some .running
  | .cancelled | .superseded | .timedOut => none

def phaseRank : CommandStatus → Nat
  | .submitted => 0
  | .accepted => 1
  | .running => 2
  | _ => 3

namespace CommandProjectionEntry

variable (entry : CommandProjectionEntry K I)

/-- Progress to a status; a terminal entry and a later phase stay. -/
def advance (next : CommandStatus) : CommandProjectionEntry K I :=
  if entry.terminal = false ∧ phaseRank entry.status ≤ phaseRank next then
    { entry with status := next }
  else entry

def recordEvent (event : CommandEvent K I) : CommandProjectionEntry K I :=
  let entry := { entry with lastEventId := some event.eventId }
  match progressStatusOf event.kind with
  | some next => entry.advance next
  | none => entry

def complete (receipt : CausalReceipt K I) : CommandProjectionEntry K I :=
  { entry with
    terminal := true
    status := terminalStatusOf receipt.outcome receipt.reason
    reason := receipt.reason
    terminalReceiptId := some receipt.receiptId }

end CommandProjectionEntry

/-! ## The projection -/

structure CommandProjection (K I : Type) [LinearOrder K] [LinearOrder I] where
  generation : Nat
  entries : SortedMap K (CommandProjectionEntry K I)
  seenEventIds : SortedSet I
  seenReceiptIds : SortedSet I
  seenCancelIds : SortedSet I
  conflicts : SortedSet K

inductive CallState (K I : Type) where
  | pending
  | resolved (entry : CommandProjectionEntry K I)
  | conflict
  deriving DecidableEq, Repr

variable [LinearOrder K] [LinearOrder I]

namespace CommandProjection

def new : CommandProjection K I := ⟨0, ∅, ∅, ∅, ∅, ∅⟩

variable (p : CommandProjection K I)

def submit (submit : CommandSubmit K) : CommandProjection K I × CommandApplyStatus K :=
  if submit.commandId ∈ p.entries then (p, .duplicate)
  else
    ({ p with
        generation := max p.generation submit.authorityGeneration
        entries := (p.entries.insert submit.commandId
          ⟨submit.commandId, .submitted, false, submit.authorityGeneration, none, none, none⟩) },
      .recorded)

def event (event : CommandEvent K I) : CommandProjection K I × CommandApplyStatus K :=
  if event.eventId ∈ p.seenEventIds then (p, .duplicate)
  else
    match p.entries[event.commandId]? with
    | none => (p, .unknown)
    | some entry =>
      if event.generation ≠ entry.generation then
        (p, .staleGeneration entry.generation event.generation)
      else
        ({ p with
            seenEventIds := p.seenEventIds.insert event.eventId
            entries := p.entries.insert event.commandId (entry.recordEvent event) },
          .recorded)

/-- A cancel is not terminal by itself. -/
def cancel (cancel : CommandCancel K I) : CommandProjection K I × CommandApplyStatus K :=
  if cancel.causationId ∈ p.seenCancelIds then (p, .duplicate)
  else
    match p.entries[cancel.commandId]? with
    | none => (p, .unknown)
    | some entry =>
      if cancel.authorityGeneration ≠ entry.generation then
        (p, .staleGeneration entry.generation cancel.authorityGeneration)
      else ({ p with seenCancelIds := p.seenCancelIds.insert cancel.causationId }, .recorded)

/-- Fold a receipt. Another terminal outcome for a terminal command is a conflict. -/
def observeReceipt (receipt : CausalReceipt K I) : CommandProjection K I × CommandApplyStatus K :=
  if receipt.receiptId ∈ p.seenReceiptIds then (p, .duplicate)
  else
    match p.entries[receipt.causationId]? with
    | none => (p, .unknown)
    | some entry =>
      let seen := p.seenReceiptIds.insert receipt.receiptId
      let incoming := terminalStatusOf receipt.outcome receipt.reason
      if receipt.generation ≠ entry.generation then
        (p, .staleGeneration entry.generation receipt.generation)
      else if receipt.outcome.isTerminal = false then
        ({ p with
            seenReceiptIds := seen
            entries := p.entries.insert receipt.causationId (entry.advance .accepted) },
          .recorded)
      else if entry.terminal then
        if entry.status = incoming then ({ p with seenReceiptIds := seen }, .recorded)
        else
          ({ p with conflicts := p.conflicts.insert receipt.causationId },
            .terminalConflict receipt.causationId entry.status incoming)
      else
        ({ p with
            seenReceiptIds := seen
            entries := p.entries.insert receipt.causationId (entry.complete receipt) },
          .recorded)

/-- Fold a resync image: its entries replace those held. -/
def applyProjection (image : CommandProjectionImage K I) :
    CommandProjection K I × CommandApplyStatus K :=
  ({ p with
      generation := max p.generation image.generation
      entries := (p.entries.insertAll (image.commands.map fun entry => (entry.commandId, entry)))
      seenEventIds := (p.seenEventIds.insertAll (image.commands.filterMap (·.lastEventId)))
      seenReceiptIds :=
        (p.seenReceiptIds.insertAll (image.commands.filterMap (·.terminalReceiptId))) },
    .recorded)

variable (commandId : K)

def entry : Option (CommandProjectionEntry K I) :=
  p.entries[commandId]?

def terminalFor : Option (CommandProjectionEntry K I) :=
  p.entries[commandId]?.filter (·.terminal)

def hasConflict : Bool := p.conflicts.contains commandId

def toImage : CommandProjectionImage K I :=
  ⟨p.generation, p.entries.vals⟩

/-- What a unary call of the RPC facade sees of its command. -/
def pollCall : CallState K I :=
  if p.hasConflict commandId then .conflict
  else
    match p.terminalFor commandId with
    | some entry => .resolved entry
    | none => .pending

end CommandProjection

/-! ## Replicas -/

/-- What can happen at a replica. An image is taken by `toImage` and applied by its number. -/
inductive CommandOp (P K I : Type) where
  | submit (r : P) (submit : CommandSubmit K)
  | event (r : P) (event : CommandEvent K I)
  | cancel (r : P) (cancel : CommandCancel K I)
  | observeReceipt (r : P) (receipt : CausalReceipt K I)
  | toImage (r : P)
  | applyProjection (r : P) (index : Nat)

/-- The replicas, every image taken with the replica it was taken of, the terminal receipts each
replica has recorded, and the images each replica has applied. -/
structure CommandHistory (P K I : Type) [LinearOrder K] [LinearOrder I] where
  replicas : P → CommandProjection K I
  images : List (P × CommandProjectionImage K I)
  folded : List (P × CausalReceipt K I)
  applied : List (P × P × CommandProjectionImage K I)

namespace CommandHistory

def start : CommandHistory P K I := ⟨fun _ => .new, [], [], []⟩

variable [DecidableEq P] (h : CommandHistory P K I)

def update (r : P) (p : CommandProjection K I) : CommandHistory P K I :=
  { h with replicas := Function.update h.replicas r p }

def step : CommandOp P K I → CommandHistory P K I
  | .submit r submit => h.update r ((h.replicas r).submit submit).1
  | .event r event => h.update r ((h.replicas r).event event).1
  | .cancel r cancel => h.update r ((h.replicas r).cancel cancel).1
  | .observeReceipt r receipt =>
    let result := (h.replicas r).observeReceipt receipt
    { h.update r result.1 with
      folded := if result.2 = .recorded ∧ receipt.outcome.isTerminal then
        h.folded ++ [(r, receipt)] else h.folded }
  | .toImage r => { h with images := h.images ++ [(r, (h.replicas r).toImage)] }
  | .applyProjection r index =>
    match h.images[index]? with
    | some (origin, image) =>
      { h.update r ((h.replicas r).applyProjection image).1 with
        applied := h.applied ++ [(r, origin, image)] }
    | none => h

def run (ops : List (CommandOp P K I)) : CommandHistory P K I :=
  ops.foldl step h

end CommandHistory

end Lazily.Command
