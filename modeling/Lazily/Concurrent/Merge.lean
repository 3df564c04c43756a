import Lazily.Ingress.Core
import Lazily.Lib.Reach
import Mathlib.Data.List.Perm.Basic

/-!
# Concurrent merges (`apply_merge` of the thread-safe and the async context)

A merge reads the cell, folds, and writes back. The read and the write are each a critical section,
the two together are not: a call that stores between them is undone (`overlapping_merge_lost`).
Where every call stores what it would have stored had it read just then, no op is lost
(`merged_run`).
-/

namespace Lazily.Concurrent

open Ingress Lib List

variable {T : Type}

/-! ## The store guard -/

/-- `set_if_changed`: compare and write under the cell's lock, or under the writer mutex of an
inline value. -/
def setIfChanged [DecidableEq T] (value new : T) : T × Bool :=
  if value = new then (value, false) else (new, true)

/-- The write of `AsyncContext::write_source`, under the lock of the context. -/
def writeSource [DecidableEq T] (value new : T) : T × Bool :=
  let changed := !(value == new)
  if changed then (new, changed) else (value, changed)

inductive Flavor where
  | threadSafe | async
  deriving DecidableEq, Repr

def Flavor.set [DecidableEq T] : Flavor → T → T → T × Bool
  | .threadSafe => setIfChanged
  | .async => writeSource

@[simp] theorem Flavor.set_fst [DecidableEq T] (flavor : Flavor) (value new : T) :
    (flavor.set value new).1 = new := by
  cases flavor with
  | threadSafe =>
    simp only [set, setIfChanged]
    split
    · assumption
    · rfl
  | async =>
    simp only [set, writeSource]
    split
    · rfl
    · rename_i hsame
      simpa using hsame

/-! ## Calls -/

/-- Where a call of `apply_merge` is: the value it read is to be folded; its write changed the cell,
and dependents are being told; it has returned. -/
inductive Phase (T : Type) where
  | folding (old : T) | telling | returned
  deriving DecidableEq, Repr

structure Call (T : Type) where
  op : T
  phase : Phase T
  deriving DecidableEq, Repr

def Call.stored (call : Call T) : Bool :=
  match call.phase with
  | .folding _ => false
  | .telling | .returned => true

/-- A source cell, and the calls made on it so far by all threads or tasks. -/
structure MergeCell (T : Type) where
  value : T
  calls : List (Call T)
  deriving DecidableEq, Repr

/-- One step of some thread. An effect that a call tells may make calls of its own. -/
inductive Step (T : Type) where
  | read (op : T) | write (call : Nat) | finish (call : Nat)
  deriving DecidableEq, Repr

namespace MergeCell

def start (initial : T) : MergeCell T := ⟨initial, []⟩

def step [DecidableEq T] (flavor : Flavor) (M : MergePolicy T) (cell : MergeCell T) :
    Step T → MergeCell T
  | .read op => { cell with calls := cell.calls ++ [⟨op, .folding cell.value⟩] }
  | .write i =>
    match cell.calls[i]? with
    | some ⟨op, .folding old⟩ =>
      let merged := M.merge old op
      let (value, changed) := flavor.set cell.value merged
      ⟨value, cell.calls.set i ⟨op, if changed then .telling else .returned⟩⟩
    | _ => cell
  | .finish i =>
    match cell.calls[i]? with
    | some ⟨op, .telling⟩ => { cell with calls := cell.calls.set i ⟨op, .returned⟩ }
    | _ => cell

def run [DecidableEq T] (flavor : Flavor) (M : MergePolicy T) (cell : MergeCell T)
    (steps : List (Step T)) : MergeCell T :=
  steps.foldl (step flavor M) cell

/-- Once every call has returned, the value is the fold of the initial value and every op. -/
def Merged (M : MergePolicy T) (initial : T) (cell : MergeCell T) : Prop :=
  (∀ call ∈ cell.calls, call.phase = .returned) →
    cell.value = (cell.calls.map (·.op)).foldl M.merge initial

/-- A write makes of the value its call read what it would make of the value the cell holds. So it
is, in particular, where the cell holds the value that was read. -/
def Current (M : MergePolicy T) (cell : MergeCell T) : Step T → Prop
  | .write i => ∀ call ∈ cell.calls[i]?, ∀ old, call.phase = .folding old →
    M.merge old call.op = M.merge cell.value call.op
  | .read _ | .finish _ => True

/-! ## What was stored is folded in -/

/-- The ops of the calls that have made their write. -/
def storedOps (calls : List (Call T)) : List T := (calls.filter Call.stored).map (·.op)

theorem storedOps_append (calls calls' : List (Call T)) :
    storedOps (calls ++ calls') = storedOps calls ++ storedOps calls' := by
  simp [storedOps]

variable {calls : List (Call T)} {i : Nat}

theorem exists_around {call : Call T} (h : calls[i]? = some call) (call' : Call T) : ∃ before after,
      calls = before ++ call :: after ∧ calls.set i call' = before ++ call' :: after := by
  obtain ⟨hlen, hget⟩ := List.getElem?_eq_some_iff.1 h
  refine ⟨calls.take i, calls.drop (i + 1), ?_, List.set_eq_take_append_cons_drop.trans ?_⟩
  · rw [← hget, getElem_cons_drop, take_append_drop]
  · rw [if_pos hlen]

theorem storedOps_write {op old : T} (h : calls[i]? = some ⟨op, .folding old⟩) (phase : Phase T)
    (hphase : Call.stored ⟨op, phase⟩ = true) :
    (storedOps (calls.set i ⟨op, phase⟩)).Perm (storedOps calls ++ [op]) := by
  obtain ⟨before, after, heq, hset⟩ := exists_around h ⟨op, phase⟩
  rw [hset, heq, storedOps_append, storedOps_append, append_assoc]
  refine List.Perm.append_left _ ?_
  have hstored : storedOps (⟨op, phase⟩ :: after) = op :: storedOps after := by
    simp [storedOps, hphase]
  have hfolding : storedOps (⟨op, .folding old⟩ :: after) = storedOps after := by
    simp [storedOps, Call.stored]
  rw [hstored, hfolding]
  exact (perm_append_singleton op _).symm

theorem storedOps_finish {op : T} (h : calls[i]? = some ⟨op, .telling⟩) :
    storedOps (calls.set i ⟨op, .returned⟩) = storedOps calls := by
  obtain ⟨before, after, heq, hset⟩ := exists_around h ⟨op, .returned⟩
  rw [hset, heq, storedOps_append, storedOps_append]
  rfl

section Policy

variable {M : MergePolicy T} [assoc : Std.Associative M.merge] [comm : Std.Commutative M.merge]

/-- The order in which ops are folded does not matter. -/
theorem foldl_merge_perm {ops ops' : List T} (h : ops.Perm ops') (initial : T) :
    ops.foldl M.merge initial = ops'.foldl M.merge initial := by
  have hright : RightCommutative M.merge := by
    refine ⟨fun a b c => ?_⟩
    rw [assoc.assoc, comm.comm b c, assoc.assoc]
  exact h.foldl_eq initial

variable [DecidableEq T] {flavor : Flavor}

theorem folded_step {initial : T} {cell : MergeCell T}
    (hfold : cell.value = (storedOps cell.calls).foldl M.merge initial) {e : Step T}
    (hok : Current M cell e) : (cell.step flavor M e).value =
      (storedOps (cell.step flavor M e).calls).foldl M.merge initial := by
  cases e with
  | read op =>
    have hnone : storedOps [(⟨op, .folding cell.value⟩ : Call T)] = [] := rfl
    simp only [step, storedOps_append, hnone, append_nil]
    exact hfold
  | write i =>
    simp only [step]
    split
    · rename_i op old hcall
      have hmerge : M.merge old op = M.merge cell.value op := hok ⟨op, .folding old⟩ hcall old rfl
      have hperm := storedOps_write hcall
        (if (flavor.set cell.value (M.merge old op)).2 then .telling else .returned)
        (by split <;> rfl)
      simp only [Flavor.set_fst]
      rw [foldl_merge_perm hperm, foldl_concat, ← hfold, hmerge]
    · exact hfold
  | finish i =>
    simp only [step]
    split
    · rename_i op hcall
      rw [storedOps_finish hcall]
      exact hfold
    · exact hfold

end Policy

/-- **No merge is lost** in a run where every write is current. -/
theorem merged_run [DecidableEq T] (flavor : Flavor) (M : MergePolicy T)
    [Std.Associative M.merge] [Std.Commutative M.merge] (initial : T) (steps : List (Step T))
    (hok : Allowed (step flavor M) (Current M) (start initial) steps) :
    Merged M initial ((start initial).run flavor M steps) := by
  intro hreturned
  have hfold := hok.invariant
    (I := fun cell => cell.value = (storedOps cell.calls).foldl M.merge initial) rfl
    fun _ _ hfold he => folded_step hfold he
  have hall : ((start initial).run flavor M steps).calls.filter Call.stored =
      ((start initial).run flavor M steps).calls := by
    rw [filter_eq_self]
    intro call hcall
    rw [Call.stored, hreturned call hcall]
  rw [storedOps] at hfold
  rw [← hall]
  exact hfold

end MergeCell

def sum : MergePolicy Nat := ⟨(· + ·), true⟩

instance : Std.Associative sum.merge := ⟨Nat.add_assoc⟩

instance : Std.Commutative sum.merge := ⟨Nat.add_comm⟩

/-- The second call reads while the first tells its dependents. -/
theorem merged_run_in_turn :
    let cell := (MergeCell.start 0).run .threadSafe sum
      [.read 1, .write 0, .read 2, .write 1, .finish 0, .finish 1]
    cell.calls = [⟨1, .returned⟩, ⟨2, .returned⟩] ∧ cell.value = 3 ∧ cell.Merged sum 0 := by
  intro cell
  refine ⟨by decide +kernel, by decide +kernel,
    MergeCell.merged_run .threadSafe sum 0 _ ⟨trivial, ?_, trivial, ?_, trivial, trivial, trivial⟩⟩
  all_goals
    rintro call ⟨⟩ old ⟨⟩
    rfl

/-- Two calls that both read 0, in either context. The second write undoes the first. -/
theorem overlapping_merge_lost :
    let cell := fun flavor => (MergeCell.start 0).run flavor sum
      [.read 1, .read 2, .write 0, .write 1, .finish 0, .finish 1]
    cell .threadSafe = ⟨2, [⟨1, .returned⟩, ⟨2, .returned⟩]⟩ ∧ ¬(cell .threadSafe).Merged sum 0 ∧
      cell .async = ⟨2, [⟨1, .returned⟩, ⟨2, .returned⟩]⟩ ∧ ¬(cell .async).Merged sum 0 := by
  intro cell
  have hlost : ¬(⟨2, [⟨1, .returned⟩, ⟨2, .returned⟩]⟩ : MergeCell Nat).Merged sum 0 := by
    unfold MergeCell.Merged
    decide
  have hthread : cell .threadSafe = ⟨2, [⟨1, .returned⟩, ⟨2, .returned⟩]⟩ := by decide +kernel
  have hasync : cell .async = ⟨2, [⟨1, .returned⟩, ⟨2, .returned⟩]⟩ := by decide +kernel
  exact ⟨hthread, hthread ▸ hlost, hasync, hasync ▸ hlost⟩

end Lazily.Concurrent
