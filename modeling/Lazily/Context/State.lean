import Lazily.Lib.ReadTree
import Mathlib.Algebra.Ring.Nat
import Mathlib.Data.List.Nodup

/-!
# The single-threaded context: nodes and state (`src/context.rs`)

The arena of reactive nodes and the bookkeeping `ContextInner` keeps beside it. Values are erased
to one type `V` (`AnyValue`; unset is `none`), and `τ` is the type of the per-node type tags that
`node_type_tag` produces: `Unit` for a release build, a type that separates value types for a debug
build. A compute closure is a `ReadTree`, a pure function of the cells it reads; an effect closure
(`EffectFn`) may also write, batch and create nodes.

Arena vectors are functions of the slot id here: the source reads them through `get_node`,
`get_node_mut` and `take_node`, for which an index past the end is an empty slot. The scratch
buffers (`roots_scratch`, `mark_scratch`, `effects_scratch`), the hash indexes of wide edge lists
and the factory table carry no state of their own and are left out.
-/

namespace Lazily

open Lib List

/-- Unique identifier of a node: its arena slot. -/
abbrev SlotId := Nat

/-- Handle of a source cell: slot, occupant generation and value type. -/
structure Source (τ : Type) where
  id : SlotId
  generation : Nat
  tag : τ
  deriving DecidableEq

structure Computed (τ : Type) where
  id : SlotId
  generation : Nat
  tag : τ
  deriving DecidableEq

structure Effect where
  id : SlotId
  generation : Nat
  deriving DecidableEq

inductive Cell (τ : Type) where
  | source (h : Source τ)
  | computed (h : Computed τ)
  deriving DecidableEq

def Cell.id {τ : Type} : Cell τ → SlotId
  | .source h => h.id
  | .computed h => h.id

/-- A compute closure: what it returns is a function of the cells it reads. -/
abbrev ComputeFn (τ V : Type) := ReadTree (Cell τ) V V

/-- An effect closure. `done` returns the cleanup to register, a token for the closure that the
source stores; `batch` runs its body inside `Compute::batch` and goes on with the values the body
returns (the second argument of its `done`). -/
inductive EffectFn (τ V : Type) where
  | done (cleanup : Option Nat) (result : List V)
  | get (h : Cell τ) (next : V → EffectFn τ V)
  | set (h : Source τ) (value : V) (next : EffectFn τ V)
  | batch (body : EffectFn τ V) (next : List V → EffectFn τ V)
  | source (value : V) (tag : τ) (next : Source τ → EffectFn τ V)
  | computed (compute : ComputeFn τ V) (tag : τ) (next : Computed τ → EffectFn τ V)
  | effect (run : EffectFn τ V) (next : Effect → EffectFn τ V)

structure ComputedNode (τ V : Type) where
  value : Option V
  typeId : τ
  compute : ComputeFn τ V
  /-- The equality guard; `none` for a pass-through slot. -/
  equals : Option (V → V → Bool)
  dependencies : List SlotId
  dependents : List SlotId
  dirty : Bool
  forceRecompute : Bool
  inProgress : Bool
  eager : Bool
  verifiedAt : Nat

structure SourceNode (τ V : Type) where
  value : V
  typeId : τ
  dependents : List SlotId

/-- An effect node. `observed` and `runs` are not stored by the source: they record what the
latest run of the closure read, with the values it got, and how often it ran. -/
structure EffectNode (τ V : Type) where
  run : EffectFn τ V
  dependencies : List SlotId
  cleanup : Option Nat
  forceRun : Bool
  observed : List (SlotId × V)
  runs : Nat

inductive Node (τ V : Type) where
  | computed (s : ComputedNode τ V)
  | source (s : SourceNode τ V)
  | effect (e : EffectNode τ V)

/-- Report of a drain cut short by its iteration budget. -/
structure DrainExhaustion where
  iterations : Nat
  budget : Nat
  topEffects : List (SlotId × Nat)
  deriving DecidableEq

def defaultDrainBudget : Nat := 100000

/-- The state of a context (`ContextInner`). `cleanupLog` records the cleanup closures that have
been called. -/
structure Context (τ V : Type) where
  nodes : SlotId → Option (Node τ V)
  generations : SlotId → Nat
  nextId : Nat
  freeIds : List SlotId
  pendingEffects : List SlotId
  scheduledEffects : SlotId → Bool
  flushingEffects : Bool
  drainBudget : Nat
  drainRuns : SlotId → Nat
  lastDrainExhaustion : Option DrainExhaustion
  batchDepth : Nat
  batchedCells : List SlotId
  batchedCellClears : List SlotId
  batchedSlots : List SlotId
  revision : Nat
  revisionMode : Bool
  allEffectIds : List SlotId
  eagerBy : SlotId → Option Effect
  cleanupLog : List Nat

/-- What a panicking operation reports. `outOfFuel` is not a panic of the source: it is what a
bounded recursion of this model answers at its bound. -/
inductive Panic where
  | circularDependency (id : SlotId)
  | typeMismatch
  | getOnNonCell
  | getOnUnsetOrNonSlot
  | setOnNonCell
  | mergeOnNonCell
  | readOnUnsetOrUnknown
  | finishBatchWithoutBatch
  | zeroDrainBudget
  | abort
  | outOfFuel
  deriving DecidableEq

/-- Operations on a context: they return or unwind, and keep the state in both cases. -/
abbrev M (τ V α : Type) := EStateM Panic (Context τ V) α

namespace Context

variable {τ V : Type}

def newImpl (revisionMode : Bool) : Context τ V where
  nodes := fun _ => none
  generations := fun _ => 0
  nextId := 0
  freeIds := []
  pendingEffects := []
  scheduledEffects := fun _ => false
  flushingEffects := false
  drainBudget := defaultDrainBudget
  drainRuns := fun _ => 0
  lastDrainExhaustion := none
  batchDepth := 0
  batchedCells := []
  batchedCellClears := []
  batchedSlots := []
  revision := 0
  revisionMode := revisionMode
  allEffectIds := []
  eagerBy := fun _ => none
  cleanupLog := []

/-- `Context::new`: the push engine. -/
def new : Context τ V := newImpl false

/-- `Context::with_revision_engine`. -/
def withRevisionEngine : Context τ V := newImpl true

/-! ## Slots of the arena -/

variable (c : Context τ V) (id : SlotId)

def setNode (n : Option (Node τ V)) : Context τ V :=
  { c with nodes := fun i => if i = id then n else c.nodes i }

def modifyComputed (f : ComputedNode τ V → ComputedNode τ V) : Context τ V :=
  match c.nodes id with
  | some (.computed s) => c.setNode id (some (.computed (f s)))
  | _ => c

def modifySource (f : SourceNode τ V → SourceNode τ V) : Context τ V :=
  match c.nodes id with
  | some (.source s) => c.setNode id (some (.source (f s)))
  | _ => c

def modifyEffect (f : EffectNode τ V → EffectNode τ V) : Context τ V :=
  match c.nodes id with
  | some (.effect e) => c.setNode id (some (.effect (f e)))
  | _ => c

/-- `alloc_id`: recycle the most recently retired slot, or take a fresh one. -/
def allocId : SlotId × Context τ V :=
  match c.freeIds with
  | id :: rest => (id, { c with freeIds := rest })
  | [] => (c.nextId, { c with nextId := c.nextId + 1 })

def generation : Nat := c.generations id

def generationMatches (generation : Nat) : Bool :=
  c.generation id == generation

/-- `retire_id_locked`: the generation is a `u64` and wraps. -/
def retireId : Context τ V :=
  { c with
    generations := fun i => if i = id then (c.generations id + 1) % 2 ^ 64 else c.generations i
    freeIds := id :: c.freeIds }

end Context

namespace Node

variable {τ V : Type}

def dependencies : Node τ V → List SlotId
  | .computed s => s.dependencies
  | .source _ => []
  | .effect e => e.dependencies

def dependents : Node τ V → List SlotId
  | .computed s => s.dependents
  | .source s => s.dependents
  | .effect _ => []

def value? : Node τ V → Option V
  | .computed s => s.value
  | .source s => some s.value
  | .effect _ => none

end Node

namespace Context

variable {τ V : Type} (c : Context τ V) (id : SlotId)

def dependenciesOf : List SlotId := ((c.nodes id).map Node.dependencies).getD []

def dependentsOf : List SlotId := ((c.nodes id).map Node.dependents).getD []

def valueAt : Option V := (c.nodes id).bind Node.value?

def alive : Bool := (c.nodes id).isSome

/-! ## Lemmas -/

@[simp] theorem setNode_same (n : Option (Node τ V)) :
    (c.setNode id n).nodes id = n := by simp [setNode]

theorem setNode_ne {id i : SlotId} (h : i ≠ id) (n : Option (Node τ V)) :
    (c.setNode id n).nodes i = c.nodes i := by simp [setNode, h]

theorem setNode_nodes (i : SlotId) (n : Option (Node τ V)) :
    (c.setNode id n).nodes i = if i = id then n else c.nodes i := rfl

section SetNode

variable {c} {x i : SlotId} {n n' : Node τ V} {o o' m : Option (Node τ V)}

/-- Neither the old occupant nor the new one is in question. -/
theorem setNode_nodes_iff (hx : c.nodes x = o) (ho : o ≠ m) (ho' : o' ≠ m) :
    (c.setNode x o').nodes i = m ↔ c.nodes i = m := by
  by_cases hi : i = x
  · simp [hi, hx, ho, ho']
  · rw [setNode_ne _ hi]

theorem dependenciesOf_setNode (hx : c.nodes x = some n) (h : n'.dependencies = n.dependencies) :
    (c.setNode x (some n')).dependenciesOf = c.dependenciesOf := by
  funext i
  by_cases hi : i = x
  · simp [dependenciesOf, hi, hx, h]
  · simp [dependenciesOf, setNode_ne _ hi]

theorem dependentsOf_setNode (hx : c.nodes x = some n) (h : n'.dependents = n.dependents) :
    (c.setNode x (some n')).dependentsOf = c.dependentsOf := by
  funext i
  by_cases hi : i = x
  · simp [dependentsOf, hi, hx, h]
  · simp [dependentsOf, setNode_ne _ hi]

theorem valueAt_setNode_ne (hi : i ≠ x) : (c.setNode x o).valueAt i = c.valueAt i := by
  simp [valueAt, setNode_ne _ hi]

theorem valueAt_setNode (hx : c.nodes x = some n) (h : n'.value? = n.value?) :
    (c.setNode x (some n')).valueAt = c.valueAt := by
  funext i
  by_cases hi : i = x
  · simp [valueAt, hi, hx, h]
  · exact valueAt_setNode_ne hi

end SetNode

end Context

/-!
## Dependency edges (`edge_insert`, `edge_remove`, `register_dependency`)

Edge lists are duplicate-free vectors: insertion appends, removal swaps the last edge into the
freed position. The hash index that wide lists gain (`EdgeIndex`) answers the same membership and
position queries as the scan modelled here.
-/

variable (edges : List SlotId)

/-- `edge_insert`: append unless present. -/
def edgeInsert (id : SlotId) : List SlotId :=
  if id ∈ edges then edges else edges ++ [id]

/-- `Vec::swap_remove`. -/
def swapRemove (pos : Nat) : List SlotId :=
  match edges.getLast? with
  | some last => (edges.set pos last).dropLast
  | none => edges

def edgeRemove (id : SlotId) : List SlotId :=
  match edges.idxOf? id with
  | some pos => swapRemove edges pos
  | none => edges

variable {edges : List SlotId} {id : SlotId}

theorem mem_edgeInsert {x : SlotId} : x ∈ edgeInsert edges id ↔ x ∈ edges ∨ x = id := by
  unfold edgeInsert
  split
  · rename_i h
    exact ⟨.inl, fun h' => h'.elim (fun hx => hx) fun he => he ▸ h⟩
  · simp

theorem edgeInsert_of_mem (h : id ∈ edges) : edgeInsert edges id = edges := if_pos h

theorem nodup_edgeInsert (h : edges.Nodup) : (edgeInsert edges id).Nodup := by
  unfold edgeInsert
  split
  · exact h
  · rename_i hn
    exact List.Nodup.append h (nodup_singleton _) (by simpa using hn)

theorem swapRemove_perm (a b : List SlotId) (x : SlotId) :
    (swapRemove (a ++ x :: b) a.length).Perm (a ++ b) := by
  rcases eq_nil_or_concat b with rfl | ⟨b', y, rfl⟩
  · simp [swapRemove]
  · rw [concat_eq_append]
    have hlast : (a ++ x :: (b' ++ [y])).getLast? = some y := by
      rw [← cons_append, ← append_assoc, getLast?_concat]
    have hset : (a ++ x :: (b' ++ [y])).set a.length y = a ++ y :: b' ++ [y] := by
      rw [set_append_right _ _ (Nat.le_refl _)]
      simp
    rw [swapRemove, hlast]
    simp only
    rw [hset, dropLast_concat]
    exact List.Perm.append_left a (perm_append_singleton y b').symm

theorem edgeRemove_perm : (edgeRemove edges id).Perm (edges.erase id) := by
  unfold edgeRemove
  by_cases h : id ∈ edges
  · obtain ⟨a, b, rfl, ha⟩ := eq_append_cons_of_mem h
    have hidx : (a ++ id :: b).idxOf? id = some a.length := by
      refine idxOf?_eq_some_iff.2 ⟨by simp, by simp, fun j hj => ?_⟩
      rw [getElem_append_left hj]
      exact fun he => ha (he ▸ getElem_mem hj)
    rw [hidx]
    simp only
    rw [erase_append_right _ ha, erase_cons_head]
    exact swapRemove_perm a b id
  · rw [idxOf?_eq_none_iff.2 h, erase_of_not_mem h]

theorem edgeRemove_of_not_mem (h : id ∉ edges) : edgeRemove edges id = edges := by
  rw [edgeRemove, idxOf?_eq_none_iff.2 h]

theorem mem_edgeRemove {x : SlotId} (h : edges.Nodup) :
    x ∈ edgeRemove edges id ↔ x ∈ edges ∧ x ≠ id := by
  rw [edgeRemove_perm.mem_iff, h.mem_erase_iff, and_comm]

theorem nodup_edgeRemove (h : edges.Nodup) : (edgeRemove edges id).Nodup :=
  edgeRemove_perm.nodup_iff.2 (h.erase id)

namespace Node

variable {τ V : Type} (f : List SlotId → List SlotId)

/-- Rewrite the list of nodes that read this one (effects have none). -/
def mapDependents : Node τ V → Node τ V
  | .computed s => .computed { s with dependents := f s.dependents }
  | .source s => .source { s with dependents := f s.dependents }
  | .effect e => .effect e

/-- Rewrite the list of cells this node read (sources have none). -/
def mapDependencies : Node τ V → Node τ V
  | .computed s => .computed { s with dependencies := f s.dependencies }
  | .source s => .source s
  | .effect e => .effect { e with dependencies := f e.dependencies }

end Node

namespace Context

variable {τ V : Type} (c : Context τ V)

def modifyNode (id : SlotId) (f : Node τ V → Node τ V) : Context τ V :=
  c.setNode id ((c.nodes id).map f)

/-- `register_dependency`: a node never depends on itself. -/
def registerDependency (dependency dependent : SlotId) : Context τ V :=
  if dependency = dependent then c
  else
    (c.modifyNode dependency (·.mapDependents (edgeInsert · dependent))).modifyNode dependent
      (·.mapDependencies (edgeInsert · dependency))

/-- `remove_dependent_edges_locked`: drop `dependent` from the lists of what it used to read. -/
def removeDependentEdges (dependent : SlotId) (oldDeps : List SlotId) : Context τ V :=
  oldDeps.foldl (fun c d => c.modifyNode d (·.mapDependents (edgeRemove · dependent))) c

/-- `remove_dependency_edges_locked`: the mirror, for a node that is torn down. -/
def removeDependencyEdges (dependency : SlotId) (dependents : List SlotId) : Context τ V :=
  dependents.foldl (fun c d => c.modifyNode d (·.mapDependencies (edgeRemove · dependency))) c

end Context

end Lazily
