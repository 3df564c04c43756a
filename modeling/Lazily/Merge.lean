import Mathlib.Tactic.Basic

/-!
# Merge policies (`merge.rs`) and overflow modes (`relay.rs`)

The algebra under which ops are folded into a window, what happens at the high-water mark, and the
fold of a list of ops (`mergeAll`).
-/

namespace Lazily

variable {T : Type}

/-- The merge of a plane: the fold of an op into a value, and whether coalescing bounds the
state. -/
structure MergePolicy (T : Type) where
  merge : T → T → T
  conflates : Bool

def sumPolicy : MergePolicy Nat := ⟨(· + ·), true⟩

inductive Overflow where
  | block | dropNewest | dropOldest | conflate | spill
  deriving DecidableEq, Repr

def mergeAll (M : MergePolicy T) : List T → Option T
  | [] => none
  | p :: ps => some (ps.foldl M.merge p)

theorem mergeAll_append (M : MergePolicy T) (ps : List T) (p : T) :
    mergeAll M (ps ++ [p]) = some (((mergeAll M ps).map (M.merge · p)).getD p) := by
  cases ps with
  | nil => rfl
  | cons q ps => simp [mergeAll]

end Lazily
