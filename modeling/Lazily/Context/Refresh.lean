import Lazily.Context.State
import Lazily.Lib.Worklist

/-!
# Invalidation walks and the effect queue

`mark_frontier_locked` and `clear_frontier_locked` are depth-first walks over the dependents of
their roots, with an explicit stack of `(id, force)` pairs; they collect the effects they reach, in
the order they reach them, for `schedule_effect`. The fuel of the two walks is the potential that
bounds them: a computed node is expanded at most twice by a marking walk (when it becomes dirty and
when it becomes forced) and at most once by a clearing walk.
-/

namespace Lazily

open Lib

namespace Context

variable {τ V : Type}

/-! ## Walks -/

/-- One iteration of `mark_frontier_locked`, on the context and the effects collected so far. -/
def markVisit (i : SlotId × Bool) (s : Context τ V × List (SlotId × Bool)) :
    (Context τ V × List (SlotId × Bool)) × List (SlotId × Bool) :=
  match s.1.nodes i.1 with
  | some (.computed slot) =>
    let shouldPropagate := !slot.dirty || (i.2 && !slot.forceRecompute)
    let slot' := { slot with dirty := true, forceRecompute := slot.forceRecompute || i.2 }
    ((s.1.setNode i.1 (some (.computed slot')), s.2),
      if shouldPropagate then slot.dependents.map (·, false) else [])
  | some (.effect _) => ((s.1, s.2 ++ [i]), [])
  | _ => (s, [])

def clearVisit (i : SlotId × Bool) (s : Context τ V × List (SlotId × Bool)) :
    (Context τ V × List (SlotId × Bool)) × List (SlotId × Bool) :=
  match s.1.nodes i.1 with
  | some (.computed slot) =>
    if slot.value.isNone && !slot.dirty then (s, [])
    else
      ((s.1.setNode i.1 (some (.computed
          { slot with value := none, dirty := false, forceRecompute := false })), s.2),
        slot.dependents.map (·, true))
  | some (.effect _) => ((s.1, s.2 ++ [(i.1, true)]), [])
  | _ => (s, [])

variable (c : Context τ V)

def edgeCount : Nat :=
  ((List.range c.nextId).map fun i => (c.dependentsOf i).length).sum

def rootStack (roots : List SlotId) : List (SlotId × Bool) := (roots.map (·, true)).reverse

/-- `mark_frontier_locked`: the marked context and the effects reached. -/
def markFrontier (roots : List SlotId) : Context τ V × List (SlotId × Bool) :=
  Worklist.run markVisit (roots.length + 2 * c.edgeCount) (c, []) (rootStack roots)

def clearFrontier (roots : List SlotId) : Context τ V × List (SlotId × Bool) :=
  Worklist.run clearVisit (roots.length + c.edgeCount) (c, []) (rootStack roots)

/-! ## The effect queue -/

def scheduleEffect (id : SlotId) (force : Bool) : Context τ V :=
  match c.nodes id with
  | some (.effect e) =>
    let c := c.setNode id (some (.effect { e with forceRun := e.forceRun || force }))
    if c.scheduledEffects id then c
    else
      { c with
        scheduledEffects := fun i => if i = id then true else c.scheduledEffects i
        pendingEffects := c.pendingEffects ++ [id] }
  | _ => c

def scheduleEffects (effects : List (SlotId × Bool)) : Context τ V :=
  effects.foldl (fun c p => c.scheduleEffect p.1 p.2) c

/-- `deschedule_effect`: the queue entry stays behind as a tombstone. -/
def descheduleEffect (id : SlotId) : Context τ V :=
  { c with scheduledEffects := fun i => if i = id then false else c.scheduledEffects i }

def removePendingEffect (id : SlotId) : Context τ V :=
  if c.scheduledEffects id then
    { c.descheduleEffect id with pendingEffects := c.pendingEffects.filter (· != id) }
  else c

/-- `pop_scheduled_effect`: the next entry that is still scheduled; tombstones before it are
dropped. -/
def popScheduledEffect : Option SlotId × Context τ V :=
  match popQueue c.scheduledEffects c.pendingEffects with
  | some (id, rest) => (some id, { c.descheduleEffect id with pendingEffects := rest })
  | none => (none, { c with pendingEffects := [] })

/-! ## Invalidation roots -/

/-- `invalidate_dependents_now`: mark the cone below a node whose value changed and schedule the
effects in it. The dependent list is off its node during the walk. Returns whether an effect was
reached. -/
def invalidateDependentsNow (id : SlotId) : Bool × Context τ V :=
  let roots := c.dependentsOf id
  if roots = [] then (false, c)
  else
    let walked := (c.modifyNode id (·.mapDependents fun _ => [])).markFrontier roots
    let c := walked.1.modifyNode id (·.mapDependents fun _ => roots)
    (!walked.2.isEmpty, c.scheduleEffects walked.2)

/-- `notify_slot_value_changed`: nothing to push in the revision engine. -/
def notifySlotValueChanged (id : SlotId) : Context τ V :=
  if c.revisionMode then c else (c.invalidateDependentsNow id).2

/-- `clear_slot_now` and, on several roots, the walk of `clear_slots`. -/
def clearSlotsNow (roots : List SlotId) : Context τ V :=
  let walked := c.clearFrontier roots
  walked.1.scheduleEffects walked.2

def clearCellDependentsNow (id : SlotId) : Context τ V :=
  match c.nodes id with
  | some (.source s) => c.clearSlotsNow s.dependents
  | _ => c

end Context

/-!
## Pull side: refreshing and reading cells

`refresh_slot` and `recompute_slot_now`. The recursion through the graph is bounded by fuel: each
nested call marks one more slot as in progress, so `nextId + 1` levels are enough (`refresh`). The
helpers take the recursive call as an argument.
-/

variable {τ V : Type}

/-- Does the guard of a slot identify a new result with the cached value? -/
def ComputedNode.unchanged (slot : ComputedNode τ V) (result : V) : Bool :=
  match slot.value, slot.equals with
  | some old, some equals => equals old result
  | _, _ => false

namespace Context

variable (c : Context τ V)

/-- The fast path of `refresh_slot`: the cached value stands. -/
def upToDate (slot : ComputedNode τ V) : Bool :=
  slot.value.isSome &&
    (if c.revisionMode then slot.verifiedAt == c.revision else !slot.dirty && !slot.forceRecompute)

/-- The recompute decision of `refresh_slot`, after the dependencies have been refreshed. -/
def needsRecompute (slot : ComputedNode τ V) (dependencyChanged : Bool) : Bool :=
  c.revisionMode || (slot.value.isNone || slot.forceRecompute || dependencyChanged)

/-- `enter_refresh` on a slot that is not in progress. -/
def enterRefresh (id : SlotId) : Context τ V :=
  c.modifyComputed id fun s => { s with inProgress := true }

/-- The drop of `RefreshGuard`. -/
def leaveRefresh (id : SlotId) : Context τ V :=
  c.modifyComputed id fun s => { s with inProgress := false }

def clearSlotDirtyFlags (id : SlotId) : Context τ V :=
  c.modifyComputed id fun s => { s with dirty := false, forceRecompute := false }

/-- Before a rerun: take the dependency list off a node and drop the node from the lists of what it
used to read. -/
def detach (id : SlotId) : Context τ V :=
  (c.modifyNode id (·.mapDependencies fun _ => [])).removeDependentEdges id (c.dependenciesOf id)

/-- The end of `recompute_slot_now`: compare, store, and report whether a cached value was
replaced by one the guard does not identify with it. -/
def storeResult (id : SlotId) (slot : ComputedNode τ V) (result : V) : Bool × Context τ V :=
  let slot' := { slot with
    dirty := false
    forceRecompute := false
    verifiedAt := if c.revisionMode then c.revision else slot.verifiedAt
    value := if slot.unchanged result then slot.value else some result }
  (!slot.unchanged result && slot.value.isSome, c.setNode id (some (.computed slot')))

end Context

open Context

/-- Run `x` with the slot marked in progress; the mark goes when `x` returns or unwinds. -/
def withRefreshGuard {α : Type} (id : SlotId) (x : M τ V α) : M τ V α := fun c =>
  match x (c.enterRefresh id) with
  | .ok a c' => .ok a (c'.leaveRefresh id)
  | .error e c' => .error e (c'.leaveRefresh id)

/-- Refresh the dependencies in order; has one of them changed? -/
def refreshAll (refresh : SlotId → M τ V Bool) : List SlotId → M τ V Bool
  | [] => pure false
  | d :: ds => do
    let changed ← refresh d
    let rest ← refreshAll refresh ds
    pure (changed || rest)

variable [DecidableEq τ]

def readSourceUntracked (h : Source τ) : M τ V V := fun c =>
  match c.nodes h.id with
  | some (.source s) => if s.typeId = h.tag then .ok s.value c else .error .typeMismatch c
  | _ => .error .getOnNonCell c

def getSlotUntracked (refresh : SlotId → M τ V Bool) (h : Computed τ) : M τ V V := do
  let _ ← refresh h.id
  fun c =>
    match c.nodes h.id with
    | some (.computed s) =>
      match s.value with
      | some v => if s.typeId = h.tag then .ok v c else .error .typeMismatch c
      | none => .error .getOnUnsetOrNonSlot c
    | _ => .error .getOnUnsetOrNonSlot c

/-- `read_value_untracked`, the read behind `Source::get` and `Computed::get`: whatever readable
node is in the slot. -/
def readValueUntracked (refresh : SlotId → M τ V Bool) (id : SlotId) (tag : τ) : M τ V V := do
  let _ ← refresh id
  fun c =>
    match c.nodes id with
    | some (.computed s) =>
      match s.value with
      | some v => if s.typeId = tag then .ok v c else .error .typeMismatch c
      | none => .error .readOnUnsetOrUnknown c
    | some (.source s) => if s.typeId = tag then .ok s.value c else .error .typeMismatch c
    | _ => .error .readOnUnsetOrUnknown c

/-- `Context::get`, an untracked read. -/
def readUntracked (refresh : SlotId → M τ V Bool) : Cell τ → M τ V V
  | .source h => readSourceUntracked h
  | .computed h => getSlotUntracked refresh h

/-- A read through the `Compute` view of node `self`: register the edge, then read. -/
def readTracked (refresh : SlotId → M τ V Bool) (self : SlotId) (h : Cell τ) : M τ V V := do
  modify (·.registerDependency h.id self)
  readUntracked refresh h

def runCompute (refresh : SlotId → M τ V Bool) (self : SlotId) : ComputeFn τ V → M τ V V
  | .ret v => pure v
  | .read h next => do
    let v ← readTracked refresh self h
    runCompute refresh self (next v)

def recomputeSlotNow (refresh : SlotId → M τ V Bool) (id : SlotId) : M τ V Bool := do
  match (← get).nodes id with
  | some (.computed slot) =>
    modify (·.detach id)
    let result ← runCompute refresh id slot.compute
    fun c =>
      match c.nodes id with
      | some (.computed slot) =>
        let stored := c.storeResult id slot result
        .ok stored.1 (if stored.1 then stored.2.notifySlotValueChanged id else stored.2)
      | _ => .ok false c
  | _ => throw .getOnUnsetOrNonSlot

def refreshStale (refresh : SlotId → M τ V Bool) (id : SlotId) (dependencies : List SlotId) :
    M τ V Bool := do
  let dependencyChanged ← refreshAll refresh dependencies
  let c ← get
  match c.nodes id with
  | some (.computed slot) =>
    if c.needsRecompute slot dependencyChanged then recomputeSlotNow refresh id
    else do
      modify (·.clearSlotDirtyFlags id)
      pure false
  | _ => pure false

def refreshSlot : Nat → SlotId → M τ V Bool
  | 0, _ => throw .outOfFuel
  | fuel + 1, id => fun c =>
    match c.nodes id with
    | some (.computed slot) =>
      if c.upToDate slot then .ok false c
      else if slot.inProgress then .error (.circularDependency id) c
      else withRefreshGuard id (refreshStale (refreshSlot fuel) id slot.dependencies) c
    | _ => .ok false c

/-- `refresh_slot` with enough fuel for every chain of distinct slots. -/
def refresh (id : SlotId) : M τ V Bool := fun c => refreshSlot (c.nextId + 1) id c

end Lazily
