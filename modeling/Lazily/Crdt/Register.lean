import Lazily.Crdt.Clock

/-!
# Registers and replicated cells

The CRDT values of `merge: crdt` cells, the last-writer-wins register, and the replicated root cell
that publishes the converged value into the reactive graph.
-/

namespace Lazily.Crdt

/-- A CRDT cell value: the merge of another replica's state, with whether the value changed. -/
class CellCrdt (C : Type) (V : outParam Type) where
  mergeFrom : C → C → C × Bool
  value : C → V

/-- Last-writer-wins: the highest stamp wins. -/
structure LwwRegister (T : Type) where
  value : T
  stamp : HlcStamp
  deriving DecidableEq, Repr

namespace LwwRegister

variable {T : Type}

def set (r : LwwRegister T) (value : T) (stamp : HlcStamp) : LwwRegister T × Bool :=
  if r.stamp < stamp then (⟨value, stamp⟩, true) else (r, false)

instance [DecidableEq T] : CellCrdt (LwwRegister T) T where
  mergeFrom r other := if r.stamp < other.stamp then (other, r.value ≠ other.value) else (r, false)
  value r := r.value

/-- The state after a merge is the later of the two, the own one on a tie. -/
theorem mergeFrom_fst [DecidableEq T] (r other : LwwRegister T) :
    (CellCrdt.mergeFrom r other).1 = if r.stamp < other.stamp then other else r := by
  simp only [CellCrdt.mergeFrom]
  split <;> rfl

end LwwRegister

/-- A root cell backed by a CRDT: its state, and the value of its reactive source. -/
structure ReplicatedCell (C V : Type) where
  crdt : C
  published : V
  deriving DecidableEq, Repr

namespace ReplicatedCell

variable {C V : Type} [CellCrdt C V]

def bind (crdt : C) : ReplicatedCell C V := ⟨crdt, CellCrdt.value crdt⟩

def mergeRemote (cell : ReplicatedCell C V) (remote : C) : ReplicatedCell C V × Bool :=
  let r := CellCrdt.mergeFrom cell.crdt remote
  if r.2 then (⟨r.1, CellCrdt.value r.1⟩, true) else (⟨r.1, cell.published⟩, false)

/-- A local mutation; the value is published if it differs from the one before. -/
def update [DecidableEq V] (cell : ReplicatedCell C V) (mutate : C → C) :
    ReplicatedCell C V × Bool :=
  let crdt := mutate cell.crdt
  if CellCrdt.value crdt ≠ CellCrdt.value cell.crdt then (⟨crdt, CellCrdt.value crdt⟩, true)
  else (⟨crdt, cell.published⟩, false)

section

variable (cell : ReplicatedCell C V)

@[simp] theorem mergeRemote_crdt (remote : C) :
    (cell.mergeRemote remote).1.crdt = (CellCrdt.mergeFrom cell.crdt remote).1 := by
  simp only [mergeRemote]
  split <;> rfl

@[simp] theorem update_crdt [DecidableEq V] (mutate : C → C) :
    (cell.update mutate).1.crdt = mutate cell.crdt := by
  simp only [update]
  split <;> rfl

theorem update_snd [DecidableEq V] (mutate : C → C) : (cell.update mutate).2 = true ↔
      CellCrdt.value (mutate cell.crdt) ≠ CellCrdt.value cell.crdt := by
  simp only [update]
  split <;> simp_all

end

/-- A local mutation keeps the source in step with the state. -/
theorem update_published [DecidableEq V] {cell : ReplicatedCell C V}
    (h : cell.published = CellCrdt.value cell.crdt) (mutate : C → C) :
    (cell.update mutate).1.published = CellCrdt.value (cell.update mutate).1.crdt := by
  simp only [update]
  split
  · rfl
  · rename_i hsame
    rw [h, not_not.1 hsame]

end ReplicatedCell

end Lazily.Crdt
