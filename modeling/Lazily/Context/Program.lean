import Lazily.Context.Drain

/-!
# Programs over a context

The public operations as one type `Op`, what each returns (`Reply`), and runs of whole programs. A
panic ends a run. A program here is the list of operations it performs: a host program that
chooses its next call by the values it got performs one such list.

`evalScratch` is the reference the cache is measured against: the recursive evaluation of a cell
from the current source values, which uses neither cached values nor edges nor flags.
-/

namespace Lazily

open Lib Context

/-- The operations of a context. `get` is `Context::get`, `readValue` the `get` of a handle;
`beginBatch` and `endBatch` delimit the closure of `Context::batch`. -/
inductive Op (τ V : Type) where
  | source (value : V) (tag : τ)
  | computed (compute : ComputeFn τ V) (tag : τ)
  | slot (compute : ComputeFn τ V) (tag : τ)
  | computedRippleWhen (compute : ComputeFn τ V) (changed : V → V → Bool) (tag : τ)
  | effect (run : EffectFn τ V)
  | get (h : Cell τ)
  | readValue (h : Cell τ)
  | set (h : Source τ) (value : V)
  | merge (h : Source τ) (policy : V → V → V) (op : V)
  | beginBatch
  | endBatch
  | clear (h : Computed τ)
  | clearDependents (h : Source τ)
  | eager (h : Computed τ)
  | lazy (h : Computed τ)
  | disposeCell (h : Source τ)
  | disposeSlot (h : Computed τ)
  | disposeEffect (h : Effect)
  | dispose (h : Cell τ)
  | setDrainBudget (budget : Nat)
  | clearDrainExhaustion

inductive Reply (τ V : Type) where
  | unit
  | value (v : V)
  | source (h : Source τ)
  | computed (h : Computed τ)
  | effect (h : Effect)
  deriving DecidableEq

variable {τ V : Type}

def Cell.tag : Cell τ → τ
  | .source h => h.tag
  | .computed h => h.tag

def Cell.generation : Cell τ → Nat
  | .source h => h.generation
  | .computed h => h.generation

section Run

variable [DecidableEq τ] [BEq V]

/-- `Computed::clear`: `clear_slot`, then `flush_effects_after_invalidation`. -/
def clearComputed (h : Computed τ) : M τ V Unit := fun c =>
  if 0 < c.batchDepth then .ok () { c with batchedSlots := c.batchedSlots ++ [h.id] }
  else flushEffects (c.clearSlotsNow [h.id])

def clearCellDependents (h : Source τ) : M τ V Unit := fun c =>
  if 0 < c.batchDepth then .ok () { c with batchedCellClears := c.batchedCellClears ++ [h.id] }
  else flushEffects (c.clearCellDependentsNow h.id)

def setDrainBudget (budget : Nat) : M τ V Unit := fun c =>
  if 0 < budget then .ok () { c with drainBudget := budget } else .error .zeroDrainBudget c

def step : Op τ V → M τ V (Reply τ V)
  | .source value tag => .source <$> newSource value tag
  | .computed compute tag => .computed <$> newComputed compute tag
  | .slot compute tag => .computed <$> newSlot compute tag
  | .computedRippleWhen compute changed tag => .computed <$> computedRippleWhen compute changed tag
  | .effect run => .effect <$> newEffect flushEffects run
  | .get h => .value <$> readUntracked refresh h
  | .readValue h => .value <$> readValueUntracked refresh h.id h.tag
  | .set h value => (fun _ => .unit) <$> setSource flushEffects h value
  | .merge h policy op => (fun _ => .unit) <$> mergeSource flushEffects h policy op
  | .beginBatch => (fun _ => .unit) <$> beginBatch
  | .endBatch => (fun _ => .unit) <$> finishBatch flushEffects
  | .clear h => (fun _ => .unit) <$> clearComputed h
  | .clearDependents h => (fun _ => .unit) <$> clearCellDependents h
  | .eager h => (fun _ => .unit) <$> makeEager flushEffects h.id h.tag
  | .lazy h => do modify (·.makeLazy h.id); pure .unit
  | .disposeCell h => do modify (·.disposeCell h); pure .unit
  | .disposeSlot h => do modify (·.disposeSlot h); pure .unit
  | .disposeEffect h => do modify (·.disposeEffect h); pure .unit
  | .dispose h => do modify (·.disposeIdGeneration h.id h.generation h.tag); pure .unit
  | .setDrainBudget budget => (fun _ => .unit) <$> setDrainBudget budget
  | .clearDrainExhaustion => do
    modify fun c => { c with lastDrainExhaustion := none }
    pure .unit

def run : List (Op τ V) → M τ V (List (Reply τ V))
  | [] => pure []
  | op :: ops => do
    let reply ← step op
    let replies ← run ops
    pure (reply :: replies)

end Run

/-! ## Observations -/

def Context.observedBy (c : Context τ V) (id : SlotId) : Option (List (SlotId × V)) :=
  match c.nodes id with
  | some (.effect e) => some e.observed
  | _ => none

variable {c : Context τ V} {id : SlotId}

theorem Context.observedBy_eq_some {l : List (SlotId × V)} :
    c.observedBy id = some l ↔ ∃ e, c.nodes id = some (.effect e) ∧ e.observed = l := by
  unfold observedBy
  split
  · rename_i e he
    simp [he]
  · rename_i hn
    simp only [reduceCtorEq, false_iff, not_exists, not_and]
    exact fun e he => absurd he (hn e)

def Context.runsOf (c : Context τ V) (id : SlotId) : Option Nat :=
  match c.nodes id with
  | some (.effect e) => some e.runs
  | _ => none

theorem Context.runsOf_eq_some {n : Nat} :
    c.runsOf id = some n ↔ ∃ e, c.nodes id = some (.effect e) ∧ e.runs = n := by
  unfold runsOf
  split
  · rename_i e he
    simp [he]
  · rename_i hn
    simp only [reduceCtorEq, false_iff, not_exists, not_and]
    exact fun e he => absurd he (hn e)

/-! ## Evaluation from scratch -/

/-- The value of a cell computed from the current source values alone. The fuel bounds the depth of
the graph below the cell. -/
def evalScratch (c : Context τ V) : Nat → SlotId → Option V
  | 0, _ => none
  | fuel + 1, id =>
    match c.nodes id with
    | some (.source s) => some s.value
    | some (.computed s) => s.compute.eval? fun k => evalScratch c fuel k.id
    | _ => none

def FromScratch (c : Context τ V) (id : SlotId) (v : V) : Prop :=
  ∃ fuel, evalScratch c fuel id = some v

/-!
## The reads inside a drain

`runBody` and `drainLoop` go from the context before to the context after. `bodyReads` and
`drainReads` follow them step by step and list the reads of one effect on the way, each with the
context it finds.
-/

variable {τ V : Type}

/-! ## Closures that do not write -/

/-- The closure writes no source, and the effects it creates do not either. The revision engine
counts the end of a batch as a write, so there it does not batch. -/
def EffectFn.ReadOnly (revisionMode : Bool) : EffectFn τ V → Prop
  | .done _ _ => True
  | .get _ next => ∀ v, (next v).ReadOnly revisionMode
  | .set _ _ _ => False
  | .batch body next =>
    revisionMode = false ∧ body.ReadOnly revisionMode ∧ ∀ r, (next r).ReadOnly revisionMode
  | .source _ _ next => ∀ h, (next h).ReadOnly revisionMode
  | .computed _ _ next => ∀ h, (next h).ReadOnly revisionMode
  | .effect run next => run.ReadOnly revisionMode ∧ ∀ h, (next h).ReadOnly revisionMode

/-! ## Reads -/

section Reads

variable [DecidableEq τ] [BEq V]

/-- The reads the closure of effect `self` comes to, with the context before each. -/
def bodyReads (self : SlotId) : EffectFn τ V → Context τ V → List (SlotId × Context τ V)
  | .done _ _, _ => []
  | .get h next, c => (h.id, c) ::
    match readTracked refresh self h c with
    | .ok v c₁ => bodyReads self (next v) (c₁.observe self h.id v)
    | .error _ _ => []
  | .set h value next, c =>
    match setSource flushNested h value c with
    | .ok () c₁ => bodyReads self next c₁
    | .error _ _ => []
  | .batch body next, c => bodyReads self body { c with batchDepth := c.batchDepth + 1 } ++
    match batch flushNested (runBody flushNested self body) c with
    | .ok result c₁ => bodyReads self (next result.2) c₁
    | .error _ _ => []
  | .source value tag next, c =>
    match newSource value tag c with
    | .ok h c₁ => bodyReads self (next h) c₁
    | .error _ _ => []
  | .computed compute tag next, c =>
    match newComputed compute tag c with
    | .ok h c₁ => bodyReads self (next h) c₁
    | .error _ _ => []
  | .effect run next, c =>
    match newEffect flushNested run c with
    | .ok h c₁ => bodyReads self (next h) c₁
    | .error _ _ => []

def effectReads (self : SlotId) (c : Context τ V) : List (SlotId × Context τ V) :=
  match effectShouldRun self c with
  | .ok true c =>
    let c := c.removePendingEffect self
    match c.nodes self with
    | some (.effect e) => bodyReads self e.run ((c.startRun self).runCleanup e.cleanup)
    | _ => []
  | _ => []

/-- The reads of effect `self` in the loop of the drain. -/
def drainReads (self : SlotId) : Nat → Nat → Context τ V → List (SlotId × Context τ V)
  | 0, _, _ => []
  | fuel + 1, iterations, c =>
    match c.popScheduledEffect with
    | (none, _) => []
    | (some id, c) =>
      let c := c.countRun id
      if c.drainBudget ≤ iterations + 1 then []
      else
        (if id = self then effectReads self c else []) ++
          match runEffect flushNested id c with
          | .ok () c => drainReads self fuel (iterations + 1) c
          | .error _ _ => []

/-- The reads of effect `self` in `flush_effects`, called outside a drain. -/
def flushReads (self : SlotId) (c : Context τ V) : List (SlotId × Context τ V) :=
  drainReads self (c.drainBudget + 1) 0 { c with flushingEffects := true, drainRuns := fun _ => 0 }

/-! ## Changes -/

/-- The batches opened in a list of operations are closed in it, once `n` more are. -/
def balanced : Nat → List (Op τ V) → Bool
  | n, [] => n == 0
  | n, .beginBatch :: ops => balanced (n + 1) ops
  | 0, .endBatch :: _ => false
  | n + 1, .endBatch :: ops => balanced n ops
  | n, _ :: ops => balanced n ops

/-- One unbatched `set`, or one whole outermost batch with the operations of its closure. -/
inductive Change (τ V : Type) where
  | set (h : Source τ) (value : V)
  | batch (body : List (Op τ V))

def Change.ops : Change τ V → List (Op τ V)
  | .set h value => [.set h value]
  | .batch body => .beginBatch :: (body ++ [.endBatch])

def Change.Closed : Change τ V → Prop
  | .set _ _ => True
  | .batch body => balanced 0 body = true

/-- The context on which the change calls `flush_effects`, in the push engine: its invalidation pass
is over. -/
def Change.flushed : Change τ V → Context τ V → Option (Context τ V)
  | .set h value, c =>
    match c.nodes h.id with
    | some (.source s) =>
      let written := c.setNode h.id (some (.source { s with value := value }))
      let walked := written.invalidateDependentsNow h.id
      if s.value != value && walked.1 then some walked.2 else none
    | _ => none
  | .batch body, c =>
    match run (.beginBatch :: body) c with
    | .ok _ c => some (walkBatched { c with batchDepth := 0 })
    | .error _ _ => none

def Change.reads (change : Change τ V) (self : SlotId) (c : Context τ V) :
    List (SlotId × Context τ V) :=
  match change.flushed c with
  | some c => flushReads self c
  | none => []

end Reads

namespace Context

/-- The cell is cached and stale, and its guard tells its value from scratch apart from the cached
one. -/
def Outdated (c : Context τ V) (id : SlotId) : Prop :=
  ∃ s old v, c.nodes id = some (.computed s) ∧ c.upToDate s = false ∧ s.value = some old ∧
    FromScratch c id v ∧ s.unchanged v = false

def staleAt (c : Context τ V) (id : SlotId) : Bool :=
  match c.nodes id with
  | some (.computed s) => !c.upToDate s && s.value.isSome
  | _ => false

theorem Outdated.staleAt {c : Context τ V} {id : SlotId} (h : Outdated c id) :
    c.staleAt id = true := by
  obtain ⟨s, old, v, hs, hup, hv, -⟩ := h
  simp [Context.staleAt, hs, hup, hv]

end Context

end Lazily
