import Lazily.Lib.Worklist
import Lazily.ThreadSafe.Node
import Mathlib.Data.List.Sort

/-!
# The thread-safe context: the state behind the lock

The critical sections that change edges, mark or clear a frontier, and queue effects. An
invalidation is planned by a breadth-first walk over the dependents and then applied
(`ThreadSafeInvalidationPlan`). The fuel of a walk is the potential that bounds it: a marking walk
enqueues each node once, a clearing walk follows the edges of each slot once.
-/

namespace Lazily.ThreadSafe

open Lib Function

/-- `ThreadSafeState`. `flushing` is the thread that drains the effects (the flag of the source is
`isSome`), `exhausted` that a drain was cut short. -/
structure State (V : Type) where
  nodes : SlotId → Option (Node V)
  nextId : Nat
  pendingEffects : List SlotId
  scheduledEffects : SlotId → Bool
  flushing : Option Nat
  drainBudget : Nat
  exhausted : Bool
  batchDepth : Nat
  batchedCells : List SlotId
  batchedCellClears : List SlotId
  batchedSlots : List SlotId

structure InvalidationRoot where
  id : SlotId
  forceRecompute : Bool

structure InvalidationPlan where
  slotMarks : List (SlotId × Bool)
  slotClears : List SlotId
  effectSchedules : List (SlotId × Bool)

namespace State

variable {V : Type} (s : State V)

/-! ## Nodes -/

variable (id : SlotId)

def slot : Option (ComputedNode V) := (s.nodes id).bind Node.computed?

def source : Option (SourceNode V) := (s.nodes id).bind Node.source?

def effect : Option (EffectNode V) := (s.nodes id).bind Node.effect?

def dependenciesOf : HybridSet := ((s.nodes id).map Node.dependencies).getD .empty

def dependentsOf : HybridSet := ((s.nodes id).map Node.dependents).getD .empty

def modifyNode (f : Node V → Node V) : State V :=
  { s with nodes := fun i => if i = id then (s.nodes i).map f else s.nodes i }

def modifySlot (f : ComputedNode V → ComputedNode V) : State V :=
  s.modifyNode id fun
    | .computed c => .computed (f c)
    | n => n

def modifySource (f : SourceNode V → SourceNode V) : State V :=
  s.modifyNode id fun
    | .source c => .source (f c)
    | n => n

def modifyEffect (f : EffectNode V → EffectNode V) : State V :=
  s.modifyNode id fun
    | .effect e => .effect (f e)
    | n => n

/-! ## Edges -/

def registerDependency (dependency dependent : SlotId) : State V :=
  if dependency = dependent then s
  else
    let isSlot := (s.slot dependency).isSome
    (s.modifyNode dependency (·.insertDependent dependent)).modifyNode dependent
      (·.insertDependency dependency isSlot)

def removeParentDependency (dependent dependency : SlotId) : State V :=
  s.modifyNode dependent (·.removeDependency dependency (s.slot dependency).isSome)

def removeDependentEdge (dependency dependent : SlotId) : State V :=
  s.modifyNode dependency (·.removeDependent dependent)

def removeStaleDependencies (dependent : SlotId) (old new : List SlotId) : State V :=
  old.foldl
    (fun s id =>
      if id ∈ new then s
      else (s.removeParentDependency dependent id).removeDependentEdge id dependent)
    s

/-! ## The effect queue -/

def scheduleEffect (force : Bool) : State V :=
  match s.effect id with
  | some _ =>
    let s := s.modifyEffect id fun e => { e with forceRun := e.forceRun || force }
    if s.scheduledEffects id then s
    else
      { s with
        scheduledEffects := fun i => if i = id then true else s.scheduledEffects i
        pendingEffects := s.pendingEffects ++ [id] }
  | none => s

def descheduleEffect : State V :=
  { s with scheduledEffects := fun i => if i = id then false else s.scheduledEffects i }

def popScheduledEffect : Option SlotId × State V :=
  match popQueue s.scheduledEffects s.pendingEffects with
  | some (id, rest) => (some id, { s.descheduleEffect id with pendingEffects := rest })
  | none => (none, { s with pendingEffects := [] })

end State

/-! ## Plans -/

namespace InvalidationPlan

variable {V : Type}

def empty : InvalidationPlan := ⟨[], [], []⟩

/-- Add an entry, or raise the force of the one that is there. -/
def upsertForce (entries : List (SlotId × Bool)) (id : SlotId) (force : Bool) :
    List (SlotId × Bool) :=
  if entries.any (·.1 == id) then
    entries.map fun entry => if entry.1 = id then (id, entry.2 || force) else entry
  else entries ++ [(id, force)]

variable (plan : InvalidationPlan)

def addSlotMark (id : SlotId) (force : Bool) : InvalidationPlan :=
  { plan with slotMarks := upsertForce plan.slotMarks id force }

def addSlotClear (id : SlotId) : InvalidationPlan :=
  { plan with slotClears := edgeInsert plan.slotClears id }

def addEffectSchedule (id : SlotId) (force : Bool) : InvalidationPlan :=
  { plan with effectSchedules := upsertForce plan.effectSchedules id force }

def sortedSlotIds (ids : HybridSet) : List SlotId := ids.ids.mergeSort (· ≤ ·)

/-! ### Marking -/

/-- The maps of `from_roots_locked`: what was requested, and the flags slots will have. -/
structure MarkWalk where
  requested : SlotId → Option Bool
  simulated : SlotId → Option (Bool × Bool)
  plan : InvalidationPlan

namespace MarkWalk

def new : MarkWalk := ⟨fun _ => none, fun _ => none, .empty⟩

def enqueueRoot (w : MarkWalk) (root : InvalidationRoot) : MarkWalk × List InvalidationRoot :=
  match w.requested root.id with
  | some force =>
    let requested := Function.update w.requested root.id (some (force || root.forceRecompute))
    ({ w with requested := requested }, [])
  | none =>
    let requested := Function.update w.requested root.id (some root.forceRecompute)
    ({ w with requested := requested }, [root])

def enqueueRoots (w : MarkWalk) : List InvalidationRoot → MarkWalk × List InvalidationRoot
  | [] => (w, [])
  | root :: roots =>
    let (w, queue) := w.enqueueRoot root
    let (w, more) := w.enqueueRoots roots
    (w, queue ++ more)

/-- One iteration of `from_roots_locked`. -/
def visit (s : State V) (root : InvalidationRoot) (w : MarkWalk) :
    MarkWalk × List InvalidationRoot :=
  if w.requested root.id = some root.forceRecompute then
    match s.nodes root.id with
    | some (.computed slot) =>
      let (dirty, force) := (w.simulated root.id).getD (slot.dirty, slot.forceRecompute)
      let shouldPropagate := !dirty || (root.forceRecompute && !force)
      let w : MarkWalk :=
        { w with
          simulated := Function.update w.simulated root.id
            (some (true, force || root.forceRecompute))
          plan := w.plan.addSlotMark root.id root.forceRecompute }
      if shouldPropagate then w.enqueueRoots ((sortedSlotIds slot.dependents).map (⟨·, false⟩))
      else (w, [])
    | some (.effect _) =>
      ({ w with plan := w.plan.addEffectSchedule root.id root.forceRecompute }, [])
    | _ => (w, [])
  else (w, [])

end MarkWalk

variable (s : State V)

def fromRoots (roots : List InvalidationRoot) : InvalidationPlan :=
  let (w, queue) := MarkWalk.new.enqueueRoots roots
  (Worklist.drain (MarkWalk.visit s) s.nextId w queue).plan

/-! ### Clearing -/

structure ClearWalk where
  visited : List SlotId
  plan : InvalidationPlan

/-- One iteration of `from_clear_roots_locked`. A slot that is unset and clean is skipped, unless a
recompute of it is in flight. -/
def ClearWalk.visit (id : SlotId) (w : ClearWalk) : ClearWalk × List SlotId :=
  match s.nodes id with
  | some (.computed slot) =>
    if id ∈ w.visited then (w, [])
    else
      let w : ClearWalk := { w with visited := id :: w.visited }
      if slot.value.isNone && !slot.dirty && !slot.fastPath.recomputeInFlight then (w, [])
      else ({ w with plan := w.plan.addSlotClear id }, sortedSlotIds slot.dependents)
  | some (.effect _) => ({ w with plan := w.plan.addEffectSchedule id true }, [])
  | _ => (w, [])

/-- The number of edges, a bound on what a clearing walk enqueues. -/
def edgeCount : Nat :=
  ((List.range s.nextId).map fun i => (s.dependentsOf i).ids.length).sum

def fromClearRoots (roots : List SlotId) : InvalidationPlan :=
  (Worklist.drain (ClearWalk.visit s) (roots.length + edgeCount s) ⟨[], .empty⟩ roots).plan

def apply (plan : InvalidationPlan) (s : State V) : State V :=
  let s := plan.slotClears.foldl (fun s id => s.modifySlot id (·.clear)) s
  let s := plan.slotMarks.foldl
    (fun s mark => if mark.1 ∈ plan.slotClears then s else s.modifySlot mark.1 (·.mark mark.2)) s
  plan.effectSchedules.foldl (fun s effect => s.scheduleEffect effect.1 effect.2) s

end InvalidationPlan

namespace State

variable {V : Type} (s : State V)

/-- `invalidate_frontier_locked` on roots that must recompute. -/
def invalidateFrontier (roots : List SlotId) : State V :=
  (InvalidationPlan.fromRoots s (roots.map (⟨·, true⟩))).apply s

def clearFrontier (roots : List SlotId) : State V :=
  (InvalidationPlan.fromClearRoots s roots).apply s

/-- `invalidate_cell_dependents_locked` and `notify_slot_value_changed_locked`. -/
def invalidateDependents (id : SlotId) : State V := s.invalidateFrontier (s.dependentsOf id).ids

end State

/-! ## Critical sections

The sections of the state lock in which a slot is recomputed, a batch is flushed and the run of an
effect begins. Compute closures are pure.
-/

namespace State

variable {V : Type} (s : State V)

section Slot

variable (id : SlotId) (c : ComputedNode V)

/-- `begin_recompute`: the caller waits if a recompute is in flight. -/
def beginRecompute (thread : Nat) : State V :=
  if c.fastPath.recomputeInFlight then s
  else
    let start : Recompute V :=
      { thread := thread
        revision := c.fastPath.invalidationRevision
        wasUnset := !c.fastPath.hasValue
        oldDependencies := none
        tracked := []
        rest := c.compute }
    s.modifySlot id (·.withRecompute (some start))

/-- The critical section at the end of `recompute_slot_now`. -/
def publish [DecidableEq V] (r : Recompute V) (result : V) : State V :=
  if c.revision ≠ r.revision then s.modifySlot id (·.withRecompute none)
  else
    let s := s.removeStaleDependencies id (r.oldDependencies.getD []) r.tracked
    if r.wasUnset && c.value.isSome && !c.dirty && !c.forceRecompute then
      s.modifySlot id (·.withRecompute none)
    else
      let unchanged := c.equals && c.value == some result
      -- the flags of the fast path are reset before the dependents are told: none of them is `id`
      let s := s.modifySlot id fun c =>
        (if h : unchanged && c.value.isSome then
          c.settle (Bool.and_eq_true_iff.1 h).2 else c.store result).withRecompute none
      if !unchanged && c.value.isSome then s.invalidateDependents id else s

/-- The end of `refresh_slot_with_dependencies`, under the lock; otherwise the slot is
recomputed. -/
def settle (changed : Bool) : State V :=
  if c.value.isNone || c.forceRecompute || c.fastPath.needsRefresh || changed then s
  else s.modifySlot id fun c => if h : c.value.isSome = true then c.settle h else c

end Slot

/-- `flush_batched_invalidations`: one frontier for the cells, then one for what is cleared. -/
def flushBatched : State V :=
  let cells := s.batchedCells
  let cellClears := s.batchedCellClears
  let slots := s.batchedSlots
  let s := { s with batchedCells := [], batchedCellClears := [], batchedSlots := [] }
  let s := s.invalidateFrontier (cells.flatMap fun id => (s.dependentsOf id).ids)
  s.clearFrontier ((cellClears.flatMap fun id => (s.dependentsOf id).ids) ++ slots)

/-- The section of `run_effect` before the closure. -/
def startEffect (id : SlotId) : State V :=
  let s :=
    if s.scheduledEffects id then
      { s.descheduleEffect id with pendingEffects := s.pendingEffects.filter (· != id) }
    else s
  s.modifyEffect id fun e =>
    { e with cleanup := none, forceRun := false, running := some ⟨e.dependencies.ids, [], []⟩ }

end State

/-! ## New nodes -/

variable {V : Type}

inductive NodeDef (V : Type) where
  | source (value : V)
  | computed (compute : ComputeFn V) (equals : Bool)

def NodeDef.node : NodeDef V → Node V
  | .source value => .source ⟨value, .empty⟩
  | .computed compute equals => .computed (.new compute equals)

/-! ## Looking up nodes

The slots, sources and effects of a state, and what an update of one node does to them.
-/

namespace ComputedNode

variable (c : ComputedNode V)

/-- A fresh slot is settled as it is. -/
theorem settle_of_fresh (h : c.value.isSome = true) (hdirty : c.dirty = false) :
    c.settle h = c := by
  obtain ⟨compute, equals, value, dependencies, dependents, dirty, force, fastPath, mirror,
    forced⟩ := c
  obtain rfl : dirty = false := hdirty
  obtain rfl : force = false := by
    by_contra hforce
    cases forced (by simpa using hforce)
  obtain ⟨fvalue, cache, fdirty, fforce, revision, fdeps, count, has, recompute⟩ := fastPath
  obtain ⟨-, hhas, hfdirty, hfforce, -⟩ := mirror
  simp only at h hhas hfdirty hfforce
  subst hfdirty hfforce
  rw [h] at hhas
  subst hhas
  rfl

end ComputedNode

namespace State

variable (s : State V) {id i : SlotId}

/-! ## Kinds -/

theorem slot_eq_some {c : ComputedNode V} :
    s.slot id = some c ↔ s.nodes id = some (.computed c) := by
  unfold slot
  cases s.nodes id with
  | none => simp
  | some n => cases n <;> simp [Node.computed?]

theorem source_eq_some {c : SourceNode V} :
    s.source id = some c ↔ s.nodes id = some (.source c) := by
  unfold source
  cases s.nodes id with
  | none => simp
  | some n => cases n <;> simp [Node.source?]

theorem effect_eq_some {e : EffectNode V} :
    s.effect id = some e ↔ s.nodes id = some (.effect e) := by
  unfold effect
  cases s.nodes id with
  | none => simp
  | some n => cases n <;> simp [Node.effect?]

/-! ## Updates of one node -/

theorem nodes_modifyNode (f : Node V → Node V) :
    (s.modifyNode id f).nodes i = if i = id then (s.nodes i).map f else s.nodes i := rfl

end State

end Lazily.ThreadSafe
