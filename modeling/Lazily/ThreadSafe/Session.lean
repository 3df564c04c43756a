import Lazily.ThreadSafe.State

/-!
# The thread-safe context with disposal

The execution is seen from the state lock: a run of the context is the sequence of its critical
sections, in whatever order the threads and their closures enter them. Nodes are disposed and their
ids recycled. The local variables of a function that spans several sections (`Recompute`,
`EffectRun`) are arguments of the later ones.

`Session` numbers the nodes by their creation (`birth`), which no section looks at. A run of a
closure belongs to the node it was started for, which it names by a bare id.
-/

namespace Lazily.ThreadSafe

variable {V : Type}

/-- The node a run was started for: its id, and its number. -/
structure Owner where
  id : SlotId
  birth : Nat

/-- The critical sections. -/
inductive Section (V : Type) where
  /-- `alloc_id`, and the insertion of the node. -/
  | alloc
  | insert (id : SlotId) (node : NodeDef V)
  | insertEffect (id : SlotId)
  /-- `register_dependency` of a tracked read. -/
  | register (owner : Owner) (dependency : SlotId)
  /-- `begin_recompute`, and the section of `recompute_slot_now` after the closure. -/
  | beginRecompute (id : SlotId) (thread : Nat)
  | publish (owner : Owner) (locals : Recompute V) (result : V)
  /-- The end of `refresh_slot_with_dependencies`. -/
  | settle (id : SlotId) (changed : Bool)
  /-- The sections of `run_effect` before the closure and after it. -/
  | beginRun (id : SlotId)
  | finishRun (owner : Owner) (locals : EffectRun V) (cleanup : Option Nat)
  | store (id : SlotId) (value : V)
  | invalidate (id : SlotId)
  | clear (roots : List SlotId)
  | flushBatched
  | schedule (id : SlotId) (force : Bool)
  | disposeSlot (id : SlotId) (generation : Nat)
  | disposeCell (id : SlotId) (generation : Nat)
  | disposeEffect (id : SlotId) (generation : Nat)
  /-- `remove_dependent_edge`, for each edge of an effect that was disposed. -/
  | removeDependentEdge (dependency dependent : SlotId)
  /-- Queues, batch depth and drain flags: everything but the arena. -/
  | bookkeeping (s : State V)

/-- `ThreadSafeState` with the generations and the free ids, and the ids that are handed out but
have no node yet. -/
structure Session (V : Type) where
  state : State V
  generations : SlotId → Nat
  freeIds : List SlotId
  reserved : List SlotId
  births : Nat
  birth : SlotId → Nat

/-- `invalidate_disposed_dependents_locked`: the plan is applied without its effects. -/
def State.invalidateDisposedDependents (s : State V) (dependents : HybridSet) : State V :=
  InvalidationPlan.apply
    { InvalidationPlan.fromRoots s (dependents.ids.map (⟨·, true⟩)) with effectSchedules := [] } s

def State.removeNode (s : State V) (id : SlotId) : State V :=
  { s with nodes := fun i => if i = id then none else s.nodes i }

namespace Session

variable [DecidableEq V] (s : Session V)

def new : Session V where
  state :=
    { nodes := fun _ => none
      nextId := 0
      pendingEffects := []
      scheduledEffects := fun _ => false
      flushing := none
      drainBudget := defaultDrainBudget
      exhausted := false
      batchDepth := 0
      batchedCells := []
      batchedCellClears := []
      batchedSlots := [] }
  generations := fun _ => 0
  freeIds := []
  reserved := []
  births := 0
  birth := fun _ => 0

def withState (state : State V) : Session V := { s with state := state }

def allocId : Session V :=
  match s.freeIds with
  | id :: rest => { s with freeIds := rest, reserved := id :: s.reserved }
  | [] =>
    { s with
      state := { s.state with nextId := s.state.nextId + 1 }
      reserved := s.state.nextId :: s.reserved }

variable (id : SlotId)

def insertNode (node : Node V) : Session V :=
  if id ∈ s.reserved then
    { s with
      state := { s.state with nodes := fun i => if i = id then some node else s.state.nodes i }
      reserved := s.reserved.erase id
      births := s.births + 1
      birth := fun i => if i = id then s.births else s.birth i }
  else s

variable (generation : Nat)

def generationMatches : Bool := s.generations id == generation

def retireId : Session V :=
  { s with
    generations := fun i =>
      if i = id then (s.generations id + 1) % UInt64.size else s.generations i
    freeIds := id :: s.freeIds }

/-- The part `dispose_slot` and `dispose_cell` share: the node is gone from the arena. -/
def tearDown (dependencies dependents : HybridSet) : Session V :=
  let state := s.state.removeNode id
  let state := dependencies.ids.foldl (·.removeDependentEdge · id) state
  let state := dependents.ids.foldl (·.removeParentDependency · id) state
  (s.withState (state.invalidateDisposedDependents dependents)).retireId id

def disposeSlot : Session V :=
  match s.state.slot id with
  | some c => if s.generationMatches id generation then s.tearDown id c.dependencies c.dependents
    else s
  | none => s

def disposeCell : Session V :=
  match s.state.source id with
  | some c => if s.generationMatches id generation then s.tearDown id .empty c.dependents else s
  | none => s

/-- The first section of `dispose_effect`. -/
def disposeEffect : Session V :=
  match s.state.effect id with
  | some _ =>
    if s.generationMatches id generation then
      (s.withState ((s.state.descheduleEffect id).removeNode id)).retireId id
    else s
  | none => s

/-- The section of `recompute_slot_now` after the closure. -/
def publish (locals : Recompute V) (result : V) : State V :=
  match s.state.slot id with
  | some c => s.state.publish id c locals result
  | none => s.state

/-- The section of `run_effect` after the closure. A cleanup that cannot be stored is called. -/
def finishRun (locals : EffectRun V) (cleanup : Option Nat) : State V :=
  match s.state.effect id with
  | some _ =>
    (s.state.removeStaleDependencies id locals.oldDependencies locals.tracked).modifyEffect id
      ({ · with cleanup := cleanup })
  | none => s.state

def step : Section V → Session V
  | .alloc => s.allocId
  | .insert id node => s.insertNode id node.node
  | .insertEffect id => s.insertNode id (.effect .new)
  | .register owner dependency =>
    s.withState (s.state.registerDependency dependency owner.id)
  | .beginRecompute id thread =>
    match s.state.slot id with
    | some c => s.withState (s.state.beginRecompute id c thread)
    | none => s
  | .publish owner locals result => s.withState (s.publish owner.id locals result)
  | .settle id changed =>
    match s.state.slot id with
    | some c => s.withState (s.state.settle id c changed)
    | none => s
  | .beginRun id => s.withState (s.state.startEffect id)
  | .finishRun owner locals cleanup => s.withState (s.finishRun owner.id locals cleanup)
  | .store id value => s.withState (s.state.modifySource id ({ · with value := value }))
  | .invalidate id => s.withState (s.state.invalidateDependents id)
  | .clear roots => s.withState (s.state.clearFrontier roots)
  | .flushBatched => s.withState s.state.flushBatched
  | .schedule id force => s.withState (s.state.scheduleEffect id force)
  | .disposeSlot id generation => s.disposeSlot id generation
  | .disposeCell id generation => s.disposeCell id generation
  | .disposeEffect id generation => s.disposeEffect id generation
  | .removeDependentEdge dependency dependent =>
    s.withState (s.state.removeDependentEdge dependency dependent)
  | .bookkeeping state =>
    s.withState { state with nodes := s.state.nodes, nextId := s.state.nextId }

def run (sections : List (Section V)) : Session V := sections.foldl step s

end Session

end Lazily.ThreadSafe
