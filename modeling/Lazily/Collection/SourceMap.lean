import Lazily.Collection.KeyedOrder
import Mathlib.Algebra.Ring.Nat

/-!
# The keyed collection of source cells

`SourceMap K V` (`cell_family.rs`) holds one source cell per key, in a key order. A handle is the
index of its cell among the cells the map has minted; a cell is not recycled when its entry is
removed. `membership` and `orderSignal` are the versions of the two signals that readers of the key
set and of the key order subscribe to (`u64`, wrapping).
-/

namespace Lazily

open Lib.Reorder List KeyedOrder

/-- A map of keys to source cells. No two keys share a cell. -/
structure SourceMap (K V : Type) where
  core : KeyedOrder K Nat
  cells : List V
  membership : Nat
  orderSignal : Nat
  minted : ∀ k h, core.entries k = some h → h < cells.length
  separate : ∀ k k' h, core.entries k = some h → core.entries k' = some h → k = k'

namespace SourceMap

variable {K V : Type} [DecidableEq K]

def new : SourceMap K V where
  core := .new
  cells := []
  membership := 0
  orderSignal := 0
  minted := by simp [KeyedOrder.new]
  separate := by simp [KeyedOrder.new]

variable (m : SourceMap K V)

def bumpOrder : SourceMap K V :=
  { m with orderSignal := (m.orderSignal + 1) % 2 ^ 64 }

def bumpMembership : SourceMap K V :=
  bumpOrder { m with membership := (m.membership + 1) % 2 ^ 64 }

variable (key : K)

def get : Option V := (m.core.get key).bind fun h => m.cells[h]?

def keys : List K := m.core.keys

def mint (value : V) (h : m.core.entries key = none) : SourceMap K V where
  core := m.core.push key m.cells.length h
  cells := m.cells ++ [value]
  membership := m.membership
  orderSignal := m.orderSignal
  minted k i hk := by
    by_cases hkey : k = key
    · subst hkey
      simp [KeyedOrder.push] at hk
      simp [← hk]
    · have hi := m.minted k i (by simpa [KeyedOrder.push, hkey] using hk)
      exact List.length_append ▸ Nat.lt_add_right _ hi
  separate k k' i hk hk' := by
    have fresh : ∀ k, m.core.entries k ≠ some m.cells.length := fun k hk =>
      absurd (m.minted k _ hk) (Nat.lt_irrefl _)
    simp only [KeyedOrder.push, Function.update_apply] at hk hk'
    split at hk <;> split at hk'
    · simp [*]
    · cases hk
      exact absurd hk' (fresh k')
    · cases hk'
      exact absurd hk (fresh k)
    · exact m.separate k k' i hk hk'

/-- `entry_with` with a constant default: mint the entry on first access. -/
def entry (default : V) : SourceMap K V :=
  match h : m.core.entries key with
  | some _ => m
  | none => (m.mint key default h).bumpMembership

def write (h : Nat) (value : V) : SourceMap K V :=
  { m with cells := m.cells.set h value, minted := by simpa using m.minted }

def set (value : V) : SourceMap K V :=
  match m.core.get key with
  | some h => m.write h value
  | none => m.entry key value

def drop : SourceMap K V :=
  have kept : ∀ k h, (m.core.drop key).entries k = some h → m.core.entries k = some h := by
    intro k h hk
    by_cases hkey : k = key <;> simp_all [KeyedOrder.drop]
  { m with
    core := m.core.drop key
    minted := fun k h hk => m.minted k h (kept k h hk)
    separate := fun k k' h hk hk' => m.separate k k' h (kept k h hk) (kept k' h hk') }

/-- `remove`; the core reports a change exactly when the key was present. -/
def remove : SourceMap K V × Bool :=
  match m.core.entries key with
  | none => (m, false)
  | some _ => ((m.drop key).bumpMembership, true)

def moveTo (index : Nat) : SourceMap K V × Bool :=
  let outcome := (m.core.moveTo key index).2
  let m' : SourceMap K V :=
    { m with
      core := (m.core.moveTo key index).1
      minted := by simpa using m.minted
      separate := by simpa using m.separate }
  (if outcome.changed then m'.bumpOrder else m', outcome.isPresent)

/-- The entries in key order, as `SourceMap::reconcile` takes them. -/
def toList : List (K × V) :=
  m.keys.filterMap fun k => (m.get k).map fun v => (k, v)

/-! ## Keys and values after each operation -/

section Lemmas

variable {m : SourceMap K V} {key : K} {value : V}

omit [DecidableEq K] in
theorem mem_keys {k : K} : k ∈ m.keys ↔ (m.get k).isSome := by
  unfold keys get KeyedOrder.keys KeyedOrder.get
  rw [m.core.lockstep]
  cases h : m.core.entries k with
  | none => rfl
  | some i => simp [m.minted k i h]

omit [DecidableEq K] in
@[simp] theorem get_bumpMembership (k : K) : m.bumpMembership.get k = m.get k := rfl

theorem keys_entry (h : key ∉ m.keys) : (m.entry key value).keys = m.keys ++ [key] := by
  unfold entry
  split
  · rename_i hk
    exact absurd ((m.core.lockstep key).2 (by simp [hk])) h
  · rfl

theorem get_entry (h : key ∉ m.keys) (k : K) :
    (m.entry key value).get k = if k = key then some value else m.get k := by
  unfold entry
  split
  · rename_i hk
    exact absurd ((m.core.lockstep key).2 (by simp [hk])) h
  · by_cases hkey : k = key
    · rw [if_pos hkey, get_bumpMembership]
      simp [get, KeyedOrder.get, mint, KeyedOrder.push, hkey]
    · rw [if_neg hkey, get_bumpMembership]
      simp only [get, KeyedOrder.get, mint, KeyedOrder.push, Function.update_of_ne hkey]
      cases hk : m.core.entries k with
      | none => rfl
      | some i =>
        have := m.minted k i hk
        simp [getElem?_append_left this]

theorem keys_set (h : key ∈ m.keys) : (m.set key value).keys = m.keys := by
  unfold set
  split
  · rfl
  · rename_i hk
    exact absurd h (notMem_of_get hk)

theorem get_set (h : key ∈ m.keys) (k : K) :
    (m.set key value).get k = if k = key then some value else m.get k := by
  unfold set
  split
  · rename_i i hi
    have hlt := m.minted key i hi
    by_cases hkey : k = key
    · subst hkey
      simp [get, write, hi, hlt]
    · rw [if_neg hkey]
      simp only [get, write]
      cases hk : m.core.get k with
      | none => rfl
      | some j =>
        have hne : i ≠ j := fun hij => hkey (m.separate k key j hk (hij ▸ hi))
        simp [getElem?_set_ne hne]
  · rename_i hk
    exact absurd h (notMem_of_get hk)

theorem keys_remove : (m.remove key).1.keys = m.keys.filter (· ≠ key) := by
  unfold remove
  split
  · rename_i h
    refine (filter_eq_self.2 fun k hk => ?_).symm
    exact decide_eq_true (fun hkey : k = key => KeyedOrder.notMem_of_get h (hkey ▸ hk))
  · rfl

theorem get_remove (k : K) : (m.remove key).1.get k = if k = key then none else m.get k := by
  unfold remove
  split
  · rename_i h
    split
    · rename_i hk
      simp [get, KeyedOrder.get, hk, h]
    · rfl
  · rw [get_bumpMembership]
    by_cases hkey : k = key <;> simp [get, KeyedOrder.get, drop, KeyedOrder.drop, hkey]

theorem keys_moveTo {index : Nat} (h : key ∈ m.keys) :
    (m.moveTo key index).1.keys = relocate m.keys index key := by
  have := KeyedOrder.moveTo_order index h
  unfold moveTo
  simp only []
  split <;> exact this

@[simp] theorem get_moveTo {index : Nat} (k : K) : (m.moveTo key index).1.get k = m.get k := by
  unfold moveTo
  simp only []
  split <;> simp [get, KeyedOrder.get, bumpOrder]

omit [DecidableEq K] in
/-- The collection holds `l` iff it has its keys, in order, and its values. -/
theorem toList_eq_iff {l : List (K × V)} :
    m.toList = l ↔ m.keys = l.map Prod.fst ∧ ∀ e ∈ l, m.get e.1 = some e.2 := by
  constructor
  · rintro rfl
    refine ⟨?_, fun e he => ?_⟩
    · rw [toList, map_filterMap]
      conv_lhs => rw [← filterMap_some (l := m.keys)]
      refine filterMap_congr fun k hk => ?_
      obtain ⟨v, hv⟩ := Option.isSome_iff_exists.1 (mem_keys.1 hk)
      simp [hv]
    · obtain ⟨k, -, hk⟩ := mem_filterMap.1 he
      obtain ⟨v, hv, rfl⟩ := Option.map_eq_some_iff.1 hk
      exact hv
  · rintro ⟨hkeys, hget⟩
    rw [toList, hkeys, filterMap_map]
    conv_rhs => rw [← filterMap_some (l := l)]
    exact filterMap_congr fun e he => by simp [hget e he]

end Lemmas

end SourceMap

/-!
## Keyed reconciliation

`reconcile old new` emits the ops that are to turn `old` into `new` (`reconcile.rs`): removes in old
order, then inserts and moves from left to right with indices of the final sequence, then updates.
The keys of a longest increasing subsequence of old positions are stable and are not moved.
`applyToMap` drives a live `SourceMap` with them.
-/

/-- A reconciliation op; `index` and `dest` are positions in the final sequence. -/
inductive DiffOp (K V : Type) where
  | insert (key : K) (value : V) (index : Nat)
  | remove (key : K)
  | move (key : K) (dest : Nat)
  | update (key : K) (value : V)
  deriving DecidableEq, Repr

namespace Reconcile

/-! ## The longest increasing subsequence -/

/-- The binary search of a patience pass: the first tail whose value is at least `x`. The interval
shrinks in every round, so a fuel of its length is enough. -/
def searchTails (seq tails : List Nat) (x : Nat) : Nat → Nat → Nat → Nat
  | 0, lo, _ => lo
  | fuel + 1, lo, hi =>
    if lo < hi then
      let mid := (lo + hi) / 2
      if seq.getD (tails.getD mid 0) 0 < x then searchTails seq tails x fuel (mid + 1) hi
      else searchTails seq tails x fuel lo mid
    else lo

/-- `tails[k]` is the index of the smallest tail of an increasing subsequence of length `k + 1`,
`prev[i]` the predecessor of `i` in the subsequence that ends in it. -/
structure Patience where
  tails : List Nat
  prev : List (Option Nat)

def Patience.step (seq : List Nat) (s : Patience) (i : Nat) : Patience :=
  let lo := searchTails seq s.tails (seq.getD i 0) s.tails.length 0 s.tails.length
  { tails := if lo = s.tails.length then s.tails ++ [i] else s.tails.set lo i
    prev := if 0 < lo then s.prev.set i (s.tails[lo - 1]?) else s.prev }

/-- Follow the predecessors from `k` on, in front of what was collected. -/
def collect (prev : List (Option Nat)) : Nat → Nat → List Nat → List Nat
  | 0, k, res => k :: res
  | fuel + 1, k, res =>
    match prev.getD k none with
    | none => k :: res
    | some j => collect prev fuel j (k :: res)

/-- The indices of one longest strictly increasing subsequence. -/
def longestIncreasingSubsequence (seq : List Nat) : List Nat :=
  let s := (List.range seq.length).foldl (Patience.step seq)
    ⟨[], List.replicate seq.length none⟩
  match s.tails.getLast? with
  | none => []
  | some k => collect s.prev seq.length k []

section Ops

variable {K V : Type} [DecidableEq K]

/-- A hash map collected from an iterator: a later entry replaces an earlier one. -/
def collectMap {β : Type} (entries : List (K × β)) : K → Option β :=
  entries.foldl (fun map e => Function.update map e.1 (some e.2)) fun _ => none

variable (old : List (K × V))

def oldPos : K → Option Nat := collectMap (old.map Prod.fst).zipIdx

def oldVal : K → Option V := collectMap old

variable (new : List (K × V))

/-- New and old index of the common keys, in new order. -/
def common : List (Nat × Nat) :=
  (new.map Prod.fst).zipIdx.filterMap fun e => (oldPos old e.1).map fun oi => (e.2, oi)

/-- The new indices of the keys that stay where they are. -/
def stable : List Nat :=
  (longestIncreasingSubsequence ((common old new).map Prod.snd)).filterMap fun j =>
    ((common old new).map Prod.fst)[j]?

def removes : List (DiffOp K V) :=
  ((old.map Prod.fst).filter fun k => k ∉ new.map Prod.fst).map .remove

def placement (e : (K × V) × Nat) : Option (DiffOp K V) :=
  if (oldPos old e.1.1).isSome then
    if e.2 ∈ stable old new then none else some (.move e.1.1 e.2)
  else some (.insert e.1.1 e.1.2 e.2)

def placements : List (DiffOp K V) :=
  new.zipIdx.filterMap (placement old new)

/-- The update of one new entry whose key was there with another value. -/
def revision [DecidableEq V] (old : List (K × V)) (e : K × V) : Option (DiffOp K V) :=
  match oldVal old e.1 with
  | some ov => if ov ≠ e.2 then some (.update e.1 e.2) else none
  | none => none

def updates [DecidableEq V] (old new : List (K × V)) : List (DiffOp K V) :=
  new.filterMap (revision old)

end Ops

end Reconcile

open Reconcile

variable {K V : Type} [DecidableEq K] [DecidableEq V]

/-- The ops that are to turn `old` into `new`. -/
def reconcile (old new : List (K × V)) : List (DiffOp K V) :=
  removes old new ++ placements old new ++ updates old new

namespace SourceMap

variable (m : SourceMap K V)

def applyOp : DiffOp K V → SourceMap K V
  | .remove key => (m.remove key).1
  | .insert key value index => ((m.entry key value).moveTo key index).1
  | .move key dest => (m.moveTo key dest).1
  | .update key value => m.set key value

def applyToMap (ops : List (DiffOp K V)) : SourceMap K V := ops.foldl applyOp m

def reconcile (new : List (K × V)) : SourceMap K V :=
  m.applyToMap (Lazily.reconcile m.toList new)

end SourceMap

end Lazily
