import Lazily.Context.Refresh
import Mathlib.Data.List.Sort

/-!
# Push side: writes, batches, effects and their drain

`set_source`, `batch`, `effect`, `run_effect` and `flush_effects`. An effect closure can write,
batch and create effects, so most of these functions call `flush_effects`, which calls them back;
they take it as the argument `flush`. Inside a drain the call returns at its guard (`flushNested`),
which is what ties the knot: the closures run by `flushEffects` are given `flushNested`.
-/

namespace Lazily

open Lib

variable {τ V : Type}

/-- `sort_unstable`, then `dedup`. -/
def sortDedup (ids : List SlotId) : List SlotId := (ids.insertionSort (· ≤ ·)).destutter (· ≠ ·)

namespace Context

variable (c : Context τ V) (id : SlotId)

/-- The invalidation roots one changed or cleared source contributes to a batch. -/
def sourceDependents : List SlotId :=
  match c.nodes id with
  | some (.source s) => s.dependents
  | _ => []

def clearBatched : Context τ V :=
  { c with batchedCells := [], batchedCellClears := [], batchedSlots := [] }

/-- The walks of `flush_batched_invalidations` in the push engine: changed cells, cleared cells,
cleared slots. The effects of all three are scheduled at the end. -/
def walkBatched : Context τ V :=
  let cells := sortDedup c.batchedCells
  let cellClears := sortDedup c.batchedCellClears
  let slots := sortDedup c.batchedSlots
  let c := c.clearBatched
  let marked := c.markFrontier (cells.flatMap c.sourceDependents)
  let cleared := marked.1.clearFrontier (cellClears.flatMap marked.1.sourceDependents)
  let slotsCleared := cleared.1.clearFrontier slots
  slotsCleared.1.scheduleEffects (marked.2 ++ cleared.2 ++ slotsCleared.2)

/-- Is an effect stale by the scan of `flush_effects_revision`? Only computed dependencies count. -/
def staleEffect : Bool :=
  match c.nodes id with
  | some (.effect e) =>
    (e.dependencies.any fun d =>
      match c.nodes d with
      | some (.computed s) => decide (s.verifiedAt < c.revision)
      | _ => false) || e.forceRun
  | _ => false

def isSlotNode : Bool :=
  match c.nodes id with
  | some (.computed _) => true
  | _ => false

/-- The report of a drain that spent its budget: the busiest effects, at most eight. -/
def drainExhaustionReport (iterations : Nat) : DrainExhaustion where
  iterations := iterations
  budget := c.drainBudget
  topEffects :=
    ((((List.range c.nextId).filter fun id => decide (0 < c.drainRuns id)).map fun id =>
      (id, c.drainRuns id)).insertionSort fun a b => b.2 < a.2 ∨ a.2 = b.2 ∧ a.1 ≤ b.1).take 8

/-- Count one run for the attribution buffer, a `u32` that saturates. -/
def countRun : Context τ V :=
  { c with drainRuns := fun i =>
      if i = id then min (c.drainRuns id + 1) (2 ^ 32 - 1) else c.drainRuns i }

def runCleanup : Option Nat → Context τ V
  | some token => { c with cleanupLog := c.cleanupLog ++ [token] }
  | none => c

/-- The effect is about to run: its edges, cleanup and force flag are taken off. -/
def startRun : Context τ V :=
  (c.detach id).modifyEffect id fun e =>
    { e with cleanup := none, forceRun := false, observed := [], runs := e.runs + 1 }

def observe (self id : SlotId) (v : V) : Context τ V :=
  c.modifyEffect self fun e => { e with observed := e.observed ++ [(id, v)] }

/-- Store the cleanup a run returned, or call it if the effect is gone. -/
def storeCleanup (cleanup : Option Nat) : Context τ V :=
  match c.nodes id with
  | some (.effect e) => c.setNode id (some (.effect { e with cleanup := cleanup }))
  | _ => c.runCleanup cleanup

end Context

open Context

/-! ## Writes -/

def flushEffectsRevision (flush : M τ V Unit) : M τ V Unit := fun c =>
  flush (c.scheduleEffects ((c.allEffectIds.filter c.staleEffect).map (·, true)))

section Write

variable [DecidableEq τ] [BEq V] (flush : M τ V Unit)

/-- The end of `set_source`: what a changed value sets off. -/
def propagateSource (id : SlotId) : M τ V Unit := fun c =>
  if 0 < c.batchDepth then .ok () { c with batchedCells := c.batchedCells ++ [id] }
  else if c.revisionMode then flushEffectsRevision flush { c with revision := c.revision + 1 }
  else if (c.invalidateDependentsNow id).1 then flush (c.invalidateDependentsNow id).2
  else .ok () (c.invalidateDependentsNow id).2

def setSource (h : Source τ) (value : V) : M τ V Unit := fun c =>
  match c.nodes h.id with
  | some (.source s) =>
    if s.typeId = h.tag then
      if s.value != value then
        propagateSource flush h.id (c.setNode h.id (some (.source { s with value := value })))
      else .ok () c
    else .error .typeMismatch c
  | _ => .error .setOnNonCell c

/-- `merge_source`: fold `op` into the current value under the cell's merge policy. -/
def mergeSource (h : Source τ) (policy : V → V → V) (op : V) : M τ V Unit := fun c =>
  match c.nodes h.id with
  | some (.source s) =>
    if s.typeId = h.tag then setSource flush h (policy s.value op) c
    else .error .typeMismatch c
  | _ => .error .mergeOnNonCell c

end Write

/-! ## Batches -/

section Batch

variable (flush : M τ V Unit)

def flushBatchedInvalidations : M τ V Unit := fun c =>
  if c.revisionMode then
    match flushEffectsRevision flush { c with revision := c.revision + 1 } with
    | .ok () c => .ok () c.clearBatched
    | .error e c => .error e c
  else flush c.walkBatched

def beginBatch : M τ V Unit := modify fun c => { c with batchDepth := c.batchDepth + 1 }

def finishBatch : M τ V Unit := fun c =>
  if 0 < c.batchDepth then
    let c := { c with batchDepth := c.batchDepth - 1 }
    if c.batchDepth = 0 then flushBatchedInvalidations flush c else .ok () c
  else .error .finishBatchWithoutBatch c

/-- `batch`: the guard finishes the batch when the body returns and when it unwinds. A second panic
while unwinding aborts. -/
def batch {α : Type} (body : M τ V α) : M τ V α := fun c =>
  match body { c with batchDepth := c.batchDepth + 1 } with
  | .ok a c =>
    match finishBatch flush c with
    | .ok () c => .ok a c
    | .error e c => .error e c
  | .error e c =>
    match finishBatch flush c with
    | .ok () c => .error e c
    | .error _ c => .error .abort c

/-! ## Constructors -/

/-- `cell`, and with it `source` and `source_with`. -/
def newSource (value : V) (tag : τ) : M τ V (Source τ) := fun c =>
  let (id, c) := c.allocId
  .ok ⟨id, c.generation id, tag⟩
    (c.setNode id (some (.source { value := value, typeId := tag, dependents := [] })))

variable (compute : ComputeFn τ V)

def slotWithEquals (equals : Option (V → V → Bool)) (tag : τ) : M τ V (Computed τ) := fun c =>
  let (id, c) := c.allocId
  .ok ⟨id, c.generation id, tag⟩ (c.setNode id (some (.computed
    { value := none, typeId := tag, compute := compute, equals := equals, dependencies := [],
      dependents := [], dirty := false, forceRecompute := false, inProgress := false,
      eager := false, verifiedAt := 0 })))

/-- `slot`: a pass-through slot, without a guard. -/
def newSlot (tag : τ) : M τ V (Computed τ) :=
  slotWithEquals compute none tag

/-- `computed`: guarded by the equality of the value type. -/
def newComputed [BEq V] (compute : ComputeFn τ V) (tag : τ) : M τ V (Computed τ) :=
  slotWithEquals compute (some (· == ·)) tag

/-- `computed_ripple_when`: guarded by the negation of a change predicate. -/
def computedRippleWhen (changed : V → V → Bool) (tag : τ) : M τ V (Computed τ) :=
  slotWithEquals compute (some fun old new => !changed old new) tag

/-- `effect`: the new effect is scheduled and the queue drained. -/
def newEffect (run : EffectFn τ V) : M τ V Effect := fun c =>
  let (id, c) := c.allocId
  let c := c.setNode id (some (.effect
    { run := run, dependencies := [], cleanup := none, forceRun := true, observed := [],
      runs := 0 }))
  let c := { c with allEffectIds := c.allEffectIds ++ [id] }
  match flush (c.scheduleEffect id false) with
  | .ok () c' => .ok ⟨id, c.generation id⟩ c'
  | .error e c' => .error e c'

end Batch

/-! ## Running effects -/

section Effects

variable [DecidableEq τ]

/-- Does one of the dependencies change when refreshed? Stops at the first that does. -/
def anyChanged : List SlotId → M τ V Bool
  | [] => pure false
  | d :: ds => fun c =>
    if c.isSlotNode d then
      match refresh d c with
      | .ok true c => .ok true c
      | .ok false c => anyChanged ds c
      | .error e c => .error e c
    else anyChanged ds c

def effectShouldRun (id : SlotId) : M τ V Bool := fun c =>
  match c.nodes id with
  | some (.effect e) => if e.forceRun then .ok true c else anyChanged e.dependencies c
  | _ => .ok false c

variable [BEq V] (flush : M τ V Unit)

/-- Run an effect closure for node `self`. -/
def runBody (self : SlotId) : EffectFn τ V → M τ V (Option Nat × List V)
  | .done cleanup result => pure (cleanup, result)
  | .get h next => do
    let v ← readTracked refresh self h
    modify (·.observe self h.id v)
    runBody self (next v)
  | .set h value next => do
    setSource flush h value
    runBody self next
  | .batch body next => do
    let result ← batch flush (runBody self body)
    runBody self (next result.2)
  | .source value tag next => do
    let h ← newSource value tag
    runBody self (next h)
  | .computed compute tag next => do
    let h ← newComputed compute tag
    runBody self (next h)
  | .effect run next => do
    let h ← newEffect flush run
    runBody self (next h)

def runEffect (id : SlotId) : M τ V Unit := do
  if ← effectShouldRun id then
    modify (·.removePendingEffect id)
    match (← get).nodes id with
    | some (.effect e) =>
      modify (·.startRun id)
      modify (·.runCleanup e.cleanup)
      let result ← runBody flush id e.run
      modify (·.storeCleanup id result.1)
    | _ => pure ()

/-- The loop of `flush_effects`. The fuel is the budget: every iteration that is not the last one
counts towards it. -/
def drainLoop (run : SlotId → M τ V Unit) : Nat → Nat → M τ V Unit
  | 0, _ => throw .outOfFuel
  | fuel + 1, iterations => fun c =>
    match c.popScheduledEffect with
    | (none, c) => .ok () { c with flushingEffects := false }
    | (some id, c) =>
      let c := c.countRun id
      if c.drainBudget ≤ iterations + 1 then
        .ok () { c with
          lastDrainExhaustion := some (c.drainExhaustionReport (iterations + 1))
          flushingEffects := false }
      else
        match run id c with
        | .ok () c => drainLoop run fuel (iterations + 1) c
        | .error e c => .error e c

/-- `flush_effects` inside a drain: it returns at the guard. -/
def flushNested : M τ V Unit := fun c =>
  if c.flushingEffects then .ok () c else .error .outOfFuel c

def flushEffects : M τ V Unit := fun c =>
  if c.flushingEffects then .ok () c
  else
    drainLoop (runEffect flushNested) (c.drainBudget + 1) 0
      { c with flushingEffects := true, drainRuns := fun _ => 0 }

end Effects

/-! ## Disposal and the eager transition

`dispose_effect`, `dispose_slot` and `dispose_cell` check the generation and the kind of the
occupant before they touch the slot; the freed id is recycled under the next generation.
-/

namespace Context

variable (c : Context τ V)

/-- `dispose_effect`. The queue entry stays behind as a tombstone. -/
def disposeEffect (h : Effect) : Context τ V :=
  if c.generationMatches h.id h.generation then
    match c.nodes h.id with
    | some (.effect e) =>
      let c := (c.descheduleEffect h.id).setNode h.id none
      ((c.removeDependentEdges h.id e.dependencies).retireId h.id).runCleanup e.cleanup
    | _ => c
  else c

def makeLazy (id : SlotId) : Context τ V :=
  match c.nodes id with
  | some (.computed s) =>
    if s.eager then
      let puller := c.eagerBy id
      let c := c.setNode id (some (.computed { s with eager := false }))
      let c := { c with eagerBy := fun i => if i = id then none else c.eagerBy i }
      match puller with
      | some effect => c.disposeEffect effect
      | none => c
    else c
  | _ => c

/-- `invalidate_disposed_dependents_locked`: the cone is marked, its effects are not scheduled. -/
def invalidateDisposedDependents (dependents : List SlotId) : Context τ V :=
  if dependents = [] then c else (c.markFrontier dependents).1

/-- The teardown of a node that can be read: detach both edge directions, invalidate the readers,
retire the id. -/
def tearDown (id : SlotId) (n : Node τ V) : Context τ V :=
  let c := (c.setNode id none).removeDependentEdges id n.dependencies
  let c := c.removeDependencyEdges id n.dependents
  (c.invalidateDisposedDependents n.dependents).retireId id

/-- The second half of `dispose_slot`, after the puller is gone. -/
def takeSlot (h : Computed τ) : Context τ V :=
  if c.generationMatches h.id h.generation then
    match c.nodes h.id with
    | some (.computed s) => c.tearDown h.id (.computed s)
    | _ => c
  else c

def disposeSlot (h : Computed τ) : Context τ V :=
  if c.generationMatches h.id h.generation && c.isSlotNode h.id then (c.makeLazy h.id).takeSlot h
  else c

def disposeCell (h : Source τ) : Context τ V :=
  if c.generationMatches h.id h.generation then
    match c.nodes h.id with
    | some (.source s) => c.tearDown h.id (.source s)
    | _ => c
  else c

/-- `dispose_id_generation`, behind `Source::dispose` and `Computed::dispose`: dispatch on the kind
of the occupant. -/
def disposeIdGeneration (id : SlotId) (generation : Nat) (tag : τ) : Context τ V :=
  match c.nodes id with
  | some (.computed _) => c.disposeSlot ⟨id, generation, tag⟩
  | some (.source _) => c.disposeCell ⟨id, generation, tag⟩
  | some (.effect _) => c.disposeEffect ⟨id, generation⟩
  | none => c

end Context

section Eager

variable [DecidableEq τ] [BEq V]

/-- The closure of an eager puller: read the cell. Its handle carries no generation
(`Computed::from_id`). -/
def puller (id : SlotId) (tag : τ) : EffectFn τ V :=
  .get (.computed ⟨id, 2 ^ 64 - 1, tag⟩) fun _ => .done none []

def makeEager (flush : M τ V Unit) (id : SlotId) (tag : τ) : M τ V Unit := fun c =>
  match c.nodes id with
  | some (.computed s) =>
    if s.eager then .ok () c
    else
      match newEffect flush (puller id tag) c with
      | .ok effect c =>
        let c := c.modifyComputed id fun s => { s with eager := true }
        .ok () { c with eagerBy := fun i => if i = id then some effect else c.eagerBy i }
      | .error e c => .error e c
  | _ => .ok () c

end Eager

end Lazily
