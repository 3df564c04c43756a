import Lazily.Context.Drain

/-!
# A context under arbitrary programs

Closures, cleanups and drops of values can call back into the context, so a program is not a list of
whole operations. What is atomic is a stretch of context code between two points where foreign code
runs: one borrow of `ContextInner`, or a few of them in a row. A program, with all its closures and
with the panics it catches, is seen here as the sequence of these sections, in whatever order its
closures produce them.

A run of a compute or effect closure reads through the `Compute` view it was started with; the view
names its node by a bare id. `Session` also numbers the nodes by their creation (`birth`) and logs
what the latest run of each node has read (`reads`); neither is stored by the source, and no section
looks at them.
-/

namespace Lazily

open Lib Context Function

variable {τ V : Type}

/-- `SlotId::DETACHED`. -/
def detachedId : SlotId := UInt64.size - 1

/-- A `Compute` view: of a run of the node created as number `birth`, or detached from any node. -/
inductive View where
  | detached
  | node (id : SlotId) (birth : Nat)

def View.slotId : View → SlotId
  | .detached => detachedId
  | .node id _ => id

inductive Section (τ V : Type) where
  /-- `cell` -/
  | source (value : V) (tag : τ)
  /-- `slot_with_equals` -/
  | slot (compute : ComputeFn τ V) (equals : Option (V → V → Bool)) (tag : τ)
  /-- `effect`, up to its flush -/
  | effect (run : EffectFn τ V)
  /-- The head of a tracked read: `register_dependency`. -/
  | register (view : View) (dependency : SlotId)
  /-- `enter_refresh`, and the drop of its guard -/
  | enterRefresh (id : SlotId)
  | leaveRefresh (view : View)
  | clearSlotDirtyFlags (id : SlotId)
  /-- `recompute_slot_now` up to the call of the closure, and from its return. -/
  | beginRecompute (id : SlotId)
  | publish (view : View) (result : V)
  /-- `run_effect` up to the call of the cleanup, and from the return of the closure. -/
  | beginRun (id : SlotId)
  | finishRun (view : View) (cleanup : Option Nat)
  /-- The store of `set_source`, and the walk after it. -/
  | store (id : SlotId) (value : V)
  | invalidate (id : SlotId)
  | clear (roots : List SlotId)
  | walkBatched
  | schedule (id : SlotId) (force : Bool)
  | setEager (id : SlotId)
  | makeLazy (id : SlotId)
  | disposeCell (h : Source τ)
  | disposeSlot (h : Computed τ)
  | disposeEffect (h : Effect)
  /-- Queues, batch depth, drain counters, pullers, revision: everything but the arena. -/
  | bookkeeping (c : Context τ V)

/-- A context, and what is observed of it. -/
structure Session (τ V : Type) where
  context : Context τ V
  births : Nat
  birth : SlotId → Nat
  reads : SlotId → List (SlotId × Nat)

namespace Context

variable (c : Context τ V) (id : SlotId)

/-- `recompute_slot_now` from the return of the closure: store, then tell the readers. -/
def publish (result : V) : Context τ V :=
  match c.nodes id with
  | some (.computed slot) =>
    let stored := c.storeResult id slot result
    if stored.1 then stored.2.notifySlotValueChanged id else stored.2
  | _ => c

def isCell : Bool :=
  match c.nodes id with
  | some (.computed _) | some (.source _) => true
  | _ => false

def isReader : Bool :=
  match c.nodes id with
  | some (.computed _) | some (.effect _) => true
  | _ => false

def dependentCount : Nat :=
  match c.nodes id with
  | some (.computed s) => s.dependents.length
  | some (.source s) => s.dependents.length
  | _ => 0

end Context

namespace Session

variable (s : Session τ V)

def new : Session τ V := ⟨Context.new, 0, fun _ => 0, fun _ => []⟩

def withContext (c : Context τ V) : Session τ V := { s with context := c }

def created (id : SlotId) (c : Context τ V) : Session τ V where
  context := c
  births := s.births + 1
  birth := Function.update s.birth id s.births
  reads := Function.update s.reads id []

/-- The view belongs to the node that is in its slot now. -/
def current : View → Bool
  | .detached => false
  | .node id birth => s.context.alive id && s.birth id == birth

/-- Log a read of the run behind a view. -/
def logRead (view : View) (dependency : SlotId) : SlotId → List (SlotId × Nat) :=
  if s.current view then
    Function.update s.reads view.slotId ((dependency, s.birth dependency) :: s.reads view.slotId)
  else s.reads

def started (id : SlotId) (c : Context τ V) : Session τ V :=
  { s with context := c, reads := Function.update s.reads id [] }

def step : Section τ V → Session τ V
  | .source value tag =>
    match newSource value tag s.context with
    | .ok h c => s.created h.id c
    | .error _ c => s.withContext c
  | .slot compute equals tag =>
    match slotWithEquals compute equals tag s.context with
    | .ok h c => s.created h.id c
    | .error _ c => s.withContext c
  | .effect run =>
    match newEffect (pure ()) run s.context with
    | .ok h c => s.created h.id c
    | .error _ c => s.withContext c
  | .register view dependency =>
    { s with
      context := s.context.registerDependency dependency view.slotId
      reads := s.logRead view dependency }
  | .enterRefresh id => s.withContext (s.context.enterRefresh id)
  | .leaveRefresh view => s.withContext (s.context.leaveRefresh view.slotId)
  | .clearSlotDirtyFlags id => s.withContext (s.context.clearSlotDirtyFlags id)
  | .beginRecompute id =>
    match s.context.nodes id with
    | some (.computed _) => s.started id (s.context.detach id)
    | _ => s
  | .publish view result => s.withContext (s.context.publish view.slotId result)
  | .beginRun id =>
    match s.context.nodes id with
    | some (.effect e) =>
      s.started id (((s.context.removePendingEffect id).startRun id).runCleanup e.cleanup)
    | _ => s
  | .finishRun view cleanup => s.withContext (s.context.storeCleanup view.slotId cleanup)
  | .store id value => s.withContext (s.context.modifySource id ({ · with value := value }))
  | .invalidate id => s.withContext (s.context.invalidateDependentsNow id).2
  | .clear roots => s.withContext (s.context.clearSlotsNow roots)
  | .walkBatched => s.withContext s.context.walkBatched
  | .schedule id force => s.withContext (s.context.scheduleEffect id force)
  | .setEager id => s.withContext (s.context.modifyComputed id ({ · with eager := true }))
  | .makeLazy id => s.withContext (s.context.makeLazy id)
  | .disposeCell h => s.withContext (s.context.disposeCell h)
  | .disposeSlot h => s.withContext (s.context.disposeSlot h)
  | .disposeEffect h => s.withContext (s.context.disposeEffect h)
  | .bookkeeping c =>
    s.withContext { c with
      nodes := s.context.nodes
      generations := s.context.generations
      nextId := s.context.nextId
      freeIds := s.context.freeIds }

def run (sections : List (Section τ V)) : Session τ V := sections.foldl step s

end Session

end Lazily
