import Lazily.Context.State

/-!
# The thread-safe context: nodes and state (`thread_safe.rs`)

The graph behind the state lock, and the fast path of each computed node, whose fields are read
without it. A critical section writes a field of a node and its copy in the fast path together: the
nodes here carry the proof that the two agree.

Revisions are counters that do not wrap. The copy of the dependents in the fast path, the waiter
count, the node's own revision and the report of an exhausted drain are read by no function
modelled here and are left out.
-/

namespace Lazily.ThreadSafe

open Lib

/-! ## Edges -/

/-- A set of edges (`HybridSet`): a duplicate-free vector, or a hash set with the same members. -/
structure HybridSet where
  ids : List SlotId
  nodup : ids.Nodup

namespace HybridSet

instance : Membership SlotId HybridSet := ⟨fun edges id => id ∈ edges.ids⟩

instance (id : SlotId) (edges : HybridSet) : Decidable (id ∈ edges) :=
  inferInstanceAs (Decidable (id ∈ edges.ids))

def empty : HybridSet := ⟨[], List.nodup_nil⟩

def insert (edges : HybridSet) (id : SlotId) : HybridSet :=
  ⟨edgeInsert edges.ids id, nodup_edgeInsert edges.nodup⟩

def remove (edges : HybridSet) (id : SlotId) : HybridSet :=
  ⟨edgeRemove edges.ids id, nodup_edgeRemove edges.nodup⟩

variable {edges : HybridSet} {id : SlotId}

theorem insert_eq_self (h : id ∈ edges) : edges.insert id = edges := by
  obtain ⟨ids, nodup⟩ := edges
  simp only [insert, edgeInsert_of_mem h]

theorem remove_eq_self (h : id ∉ edges) : edges.remove id = edges := by
  obtain ⟨ids, nodup⟩ := edges
  simp only [remove, edgeRemove_of_not_mem h]

end HybridSet

/-! ## Computed nodes -/

/-- A compute closure: what it returns is a function of the cells it reads. -/
abbrev ComputeFn (V : Type) := ReadTree SlotId V V

/-- The local variables of the `recompute_slot_now` under way, with its tracking frame. At most one
recompute of a slot is under way, so they stand in the slot's record: `thread` runs it, and `rest`
is what its closure has still to do. The old dependencies are read after it has begun. -/
structure Recompute (V : Type) where
  thread : Nat
  revision : Nat
  wasUnset : Bool
  oldDependencies : Option (List SlotId)
  tracked : List SlotId
  rest : ComputeFn V

/-- `ThreadSafeSlotFastPath`. The flag `computing` is `recompute.isSome`. -/
@[ext] structure FastPath (V : Type) where
  value : Option V
  cacheRevision : Nat
  dirty : Bool
  forceRecompute : Bool
  invalidationRevision : Nat
  dependencies : HybridSet
  slotDependencyCount : Nat
  hasValue : Bool
  recompute : Option (Recompute V)

namespace FastPath

variable {V : Type} (f : FastPath V)

def new : FastPath V := ⟨none, 0, false, false, 0, .empty, 0, false, none⟩

def needsRefresh : Bool := f.dirty || f.forceRecompute

def storeValue (value : Option V) : FastPath V :=
  { f with value := value, cacheRevision := f.cacheRevision + 1 }

def markDirty (forceRecompute : Bool) : FastPath V :=
  { f with
    invalidationRevision := f.invalidationRevision + 1
    forceRecompute := f.forceRecompute || forceRecompute
    dirty := true
    cacheRevision := f.cacheRevision + 1 }

def markFresh (hasValue : Bool) : FastPath V :=
  { f with hasValue := hasValue, forceRecompute := false, dirty := false }

def clear : FastPath V :=
  { f.storeValue none with
    invalidationRevision := f.invalidationRevision + 1
    hasValue := false
    forceRecompute := false
    dirty := false }

def recomputeInFlight : Bool := f.recompute.isSome

def insertDependency (id : SlotId) (isSlot : Bool) : FastPath V :=
  { f with
    dependencies := f.dependencies.insert id
    slotDependencyCount :=
      if id ∉ f.dependencies ∧ isSlot then f.slotDependencyCount + 1 else f.slotDependencyCount }

def removeDependency (id : SlotId) (isSlot : Bool) : FastPath V :=
  { f with
    dependencies := f.dependencies.remove id
    slotDependencyCount :=
      if id ∈ f.dependencies ∧ isSlot then f.slotDependencyCount - 1 else f.slotDependencyCount }

/-- The fast path holds copies of these fields of its node. -/
structure Mirrors (value : Option V) (dirty forceRecompute : Bool) (dependencies : HybridSet) :
    Prop where
  value_eq : f.value = value
  hasValue_eq : f.hasValue = value.isSome
  dirty_eq : f.dirty = dirty
  force_eq : f.forceRecompute = forceRecompute
  dependencies_eq : f.dependencies = dependencies

end FastPath

/-- `ThreadSafeComputedNode`. `equals`: equal results are suppressed. -/
@[ext] structure ComputedNode (V : Type) where
  compute : ComputeFn V
  equals : Bool
  value : Option V
  dependencies : HybridSet
  dependents : HybridSet
  dirty : Bool
  forceRecompute : Bool
  fastPath : FastPath V
  mirror : fastPath.Mirrors value dirty forceRecompute dependencies
  forced : forceRecompute = true → dirty = true

namespace ComputedNode

variable {V : Type} (c : ComputedNode V)

def new (compute : ComputeFn V) (equals : Bool) : ComputedNode V where
  compute := compute
  equals := equals
  value := none
  dependencies := .empty
  dependents := .empty
  dirty := false
  forceRecompute := false
  fastPath := .new
  mirror := ⟨rfl, rfl, rfl, rfl, rfl⟩
  forced := by simp

abbrev revision : Nat := c.fastPath.invalidationRevision

abbrev recompute : Option (Recompute V) := c.fastPath.recompute

/-- The part of `apply_locked` for one slot to mark. -/
def mark (force : Bool) : ComputedNode V :=
  { c with
    dirty := true
    forceRecompute := c.forceRecompute || force
    fastPath := c.fastPath.markDirty (c.forceRecompute || force)
    mirror := by
      obtain ⟨hvalue, hhas, -, hforce, hdeps⟩ := c.mirror
      refine ⟨hvalue, hhas, rfl, ?_, hdeps⟩
      rw [FastPath.markDirty, hforce, ← Bool.or_assoc, Bool.or_self]
    forced := fun _ => rfl }

/-- The part of `apply_locked` for one slot to clear. -/
def clear : ComputedNode V :=
  { c with
    value := none
    dirty := false
    forceRecompute := false
    fastPath := c.fastPath.clear
    mirror := ⟨rfl, rfl, rfl, rfl, c.mirror.dependencies_eq⟩
    forced := by simp }

/-- `refresh_slot_with_dependencies` finds nothing to recompute. -/
def settle (h : c.value.isSome = true) : ComputedNode V :=
  { c with
    dirty := false
    forceRecompute := false
    fastPath := c.fastPath.markFresh true
    mirror := ⟨c.mirror.value_eq, h.symm, rfl, rfl, c.mirror.dependencies_eq⟩
    forced := by simp }

def store (result : V) : ComputedNode V :=
  { c with
    value := some result
    dirty := false
    forceRecompute := false
    fastPath := (c.fastPath.storeValue (some result)).markFresh true
    mirror := ⟨rfl, rfl, rfl, rfl, c.mirror.dependencies_eq⟩
    forced := by simp }

/-- A change of the recompute that is under way. -/
def withRecompute (recompute : Option (Recompute V)) : ComputedNode V :=
  { c with
    fastPath := { c.fastPath with recompute := recompute }
    mirror := ⟨c.mirror.value_eq, c.mirror.hasValue_eq, c.mirror.dirty_eq, c.mirror.force_eq,
      c.mirror.dependencies_eq⟩ }

def insertDependency (id : SlotId) (isSlot : Bool) : ComputedNode V :=
  { c with
    dependencies := c.dependencies.insert id
    fastPath := c.fastPath.insertDependency id isSlot
    mirror := ⟨c.mirror.value_eq, c.mirror.hasValue_eq, c.mirror.dirty_eq, c.mirror.force_eq,
      congrArg (·.insert id) c.mirror.dependencies_eq⟩ }

def removeDependency (id : SlotId) (isSlot : Bool) : ComputedNode V :=
  { c with
    dependencies := c.dependencies.remove id
    fastPath := c.fastPath.removeDependency id isSlot
    mirror := ⟨c.mirror.value_eq, c.mirror.hasValue_eq, c.mirror.dirty_eq, c.mirror.force_eq,
      congrArg (·.remove id) c.mirror.dependencies_eq⟩ }

end ComputedNode

/-! ## Sources and effects -/

structure SourceNode (V : Type) where
  value : V
  dependents : HybridSet

/-- The local variables of the `run_effect` under way, with its tracking frame; `reads` records what
the closure has read. -/
structure EffectRun (V : Type) where
  oldDependencies : List SlotId
  tracked : List SlotId
  reads : List (SlotId × V)

/-- `ThreadSafeEffectNode`. The closure is arbitrary code, a cleanup closure is a token; `lastRun`
records what the latest finished run read. -/
structure EffectNode (V : Type) where
  dependencies : HybridSet
  cleanup : Option Nat
  forceRun : Bool
  running : Option (EffectRun V)
  lastRun : Option (List (SlotId × V))

def EffectNode.new {V : Type} : EffectNode V := ⟨.empty, none, true, none, none⟩

inductive Node (V : Type) where
  | computed (c : ComputedNode V)
  | source (c : SourceNode V)
  | effect (e : EffectNode V)

namespace Node

variable {V : Type}

def computed? : Node V → Option (ComputedNode V)
  | .computed c => some c
  | _ => none

def source? : Node V → Option (SourceNode V)
  | .source c => some c
  | _ => none

def effect? : Node V → Option (EffectNode V)
  | .effect e => some e
  | _ => none

def dependencies : Node V → HybridSet
  | .computed c => c.dependencies
  | .source _ => .empty
  | .effect e => e.dependencies

def dependents : Node V → HybridSet
  | .computed c => c.dependents
  | .source c => c.dependents
  | .effect _ => .empty

variable (id : SlotId)

def insertDependent : Node V → Node V
  | .computed c => .computed { c with dependents := c.dependents.insert id }
  | .source c => .source { c with dependents := c.dependents.insert id }
  | .effect e => .effect e

def removeDependent : Node V → Node V
  | .computed c => .computed { c with dependents := c.dependents.remove id }
  | .source c => .source { c with dependents := c.dependents.remove id }
  | .effect e => .effect e

def insertDependency (isSlot : Bool) : Node V → Node V
  | .computed c => .computed (if id ∈ c.dependencies then c else c.insertDependency id isSlot)
  | .source c => .source c
  | .effect e => .effect { e with dependencies := e.dependencies.insert id }

def removeDependency (isSlot : Bool) : Node V → Node V
  | .computed c => .computed (if id ∈ c.dependencies then c.removeDependency id isSlot else c)
  | .source c => .source c
  | .effect e => .effect { e with dependencies := e.dependencies.remove id }

end Node

end Lazily.ThreadSafe
