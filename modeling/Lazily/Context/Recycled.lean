import Lazily.Context.Session
import Lazily.Lib.Reach

/-!
# A run whose node is gone

A computed cell or an effect can be disposed by its own callback, and the slot taken by a new node
before the callback returns. The rest of the run still names the slot by its bare id:
`register_dependency`, the end of `recompute_slot_now`, the drop of `RefreshGuard` and the end of
`run_effect` look up whatever is in the slot now and write to it if its kind fits.

`Session.Spares` says of a section of such a run that the new occupant gives it nothing to write
(`step_untouched`).
-/

namespace Lazily

open Lib Context Option Node

variable {τ V : Type}

/-- What a run writes to a node: its result, its cleanup, its edges and its flags. -/
structure Contents (V : Type) where
  value : Option V
  cleanup : Option Nat
  dependencies : List SlotId
  dirty : Bool
  force : Bool
  inProgress : Bool
  deriving DecidableEq

def Node.contents : Node τ V → Contents V
  | .computed s => ⟨s.value, none, s.dependencies, s.dirty, s.forceRecompute, s.inProgress⟩
  | .source s => ⟨some s.value, none, [], false, false, false⟩
  | .effect e => ⟨none, e.cleanup, e.dependencies, false, e.forceRun, false⟩

namespace Context

/-- Nothing is written to the node in slot `id`, and its edges are those it had. -/
structure Untouched (c c' : Context τ V) (id : SlotId) : Prop where
  contents : (c'.nodes id).map Node.contents = (c.nodes id).map Node.contents
  edges : ∀ d, id ∈ c'.dependentsOf d ↔ id ∈ c.dependentsOf d

variable {c : Context τ V} {id : SlotId} {n : Node τ V} {f : List SlotId → List SlotId}

theorem Untouched.rfl : c.Untouched c id := ⟨Eq.refl _, fun _ => Iff.rfl⟩

/-- The store of a node with the contents and the readers of the one that was there. -/
theorem untouched_setNode {n' : Node τ V} (hn : c.nodes id = some n)
    (hcontents : n'.contents = n.contents) (hdependents : n'.dependents = n.dependents) :
    c.Untouched (c.setNode id (some n')) id := by
  refine ⟨by simp [hn, hcontents], fun d => ?_⟩
  by_cases hd : d = id
  · subst hd
    simp [dependentsOf, hn, hdependents]
  · simp [dependentsOf, setNode_ne _ hd]

theorem modifyNode_eq_self {f : Node τ V → Node τ V} (h : ∀ n, c.nodes id = some n → f n = n) :
    c.modifyNode id f = c := by
  have hmap : (c.nodes id).map f = c.nodes id := by
    cases hn : c.nodes id with
    | none => simp
    | some n => simp [h n hn]
  have hnodes : (fun i => if i = id then c.nodes id else c.nodes i) = c.nodes := by
    funext i
    split
    · rename_i hi
      rw [hi]
    · rfl
  rw [modifyNode, hmap, setNode, hnodes]

theorem mapDependents_eq_self (h : f n.dependents = n.dependents) : n.mapDependents f = n := by
  cases n <;> simp_all [mapDependents, dependents]

theorem mapDependencies_eq_self
    (h : f n.dependencies = n.dependencies) : n.mapDependencies f = n := by
  cases n <;> simp_all [mapDependencies, dependencies]

/-- An edge that stands in both tables, as far as the kinds of its ends let it, is not added. -/
theorem registerDependency_eq_self {dependency dependent : SlotId}
    (hdependency : c.isReader dependent = true → dependency ∈ c.dependenciesOf dependent)
    (hdependent : c.isCell dependency = true → dependent ∈ c.dependentsOf dependency) :
    c.registerDependency dependency dependent = c := by
  have hleft : c.modifyNode dependency (·.mapDependents (edgeInsert · dependent)) = c := by
    refine modifyNode_eq_self fun n hn => ?_
    simp only [isCell, dependentsOf, hn, map_some, getD_some] at hdependent
    cases n with
    | computed s => exact mapDependents_eq_self (edgeInsert_of_mem (hdependent rfl))
    | source s => exact mapDependents_eq_self (edgeInsert_of_mem (hdependent rfl))
    | effect e => rfl
  have hright : c.modifyNode dependent (·.mapDependencies (edgeInsert · dependency)) = c := by
    refine modifyNode_eq_self fun n hn => ?_
    simp only [isReader, dependenciesOf, hn, map_some, getD_some] at hdependency
    cases n with
    | computed s => exact mapDependencies_eq_self (edgeInsert_of_mem (hdependency rfl))
    | source s => rfl
    | effect e => exact mapDependencies_eq_self (edgeInsert_of_mem (hdependency rfl))
  unfold registerDependency
  split
  · rfl
  · rw [hleft, hright]

end Context

def Section.view : Section τ V → View
  | .register view _ | .leaveRefresh view | .publish view _ | .finishRun view _ => view
  | _ => .detached

namespace Session

variable (s : Session τ V)

/-- The slot of the view has been taken by another node than the one the run is of. -/
def Orphaned : View → Prop
  | .detached => False
  | .node id birth => s.context.alive id = true ∧ s.birth id ≠ birth

instance : ∀ view, Decidable (s.Orphaned view)
  | .detached => inferInstanceAs (Decidable False)
  | .node .. => inferInstanceAs (Decidable (_ ∧ _))

/-- The occupant of the slot gives the section of a run nothing to write: the edge is there, the
result belongs to no computed cell or is the one cached, the cleanup belongs to no effect. -/
def Spares : Section τ V → Prop
  | .register view dependency =>
    dependency = view.slotId ∨
      (s.context.isReader view.slotId = true → dependency ∈ s.context.dependenciesOf view.slotId) ∧
      (s.context.isCell dependency = true → view.slotId ∈ s.context.dependentsOf dependency)
  | .leaveRefresh view =>
    match s.context.nodes view.slotId with
    | some (.computed slot) => slot.inProgress = false
    | _ => True
  | .publish view result =>
    match s.context.nodes view.slotId with
    | some (.computed slot) =>
      slot.dirty = false ∧ slot.forceRecompute = false ∧ slot.unchanged result = true
    | _ => True
  | .finishRun view cleanup =>
    match s.context.nodes view.slotId with
    | some (.effect e) => e.cleanup = cleanup
    | _ => True
  | _ => True

/-- A section of a run whose slot has another occupant, and which is spared. -/
theorem step_untouched {e : Section τ V} (horphan : s.Orphaned e.view) (hspares : s.Spares e) :
    s.context.Untouched (s.step e).context e.view.slotId := by
  cases e with
  | register view dependency =>
    have hself : s.context.registerDependency dependency view.slotId = s.context := by
      rcases hspares with rfl | ⟨hdependency, hdependent⟩
      · exact if_pos rfl
      · exact registerDependency_eq_self hdependency hdependent
    show s.context.Untouched (s.context.registerDependency dependency view.slotId) view.slotId
    rw [hself]
    exact .rfl
  | leaveRefresh view =>
    show s.context.Untouched (s.context.leaveRefresh view.slotId) view.slotId
    unfold leaveRefresh modifyComputed
    split
    · rename_i slot hn
      simp only [Spares, hn] at hspares
      refine untouched_setNode hn ?_ rfl
      simp only [contents, hspares]
    · exact .rfl
  | publish view result =>
    show s.context.Untouched (s.context.publish view.slotId result) view.slotId
    unfold Context.publish
    split
    · rename_i slot hn
      simp only [Spares, hn] at hspares
      obtain ⟨hdirty, hforce, hunchanged⟩ := hspares
      simp only [storeResult, hunchanged, Bool.not_true, Bool.false_and, if_true,
        Bool.false_eq_true, if_false]
      refine untouched_setNode hn ?_ rfl
      simp only [contents, hdirty, hforce]
    · exact .rfl
  | finishRun view cleanup =>
    show s.context.Untouched (s.context.storeCleanup view.slotId cleanup) view.slotId
    unfold storeCleanup
    split
    · rename_i e hn
      simp only [Spares, hn] at hspares
      refine untouched_setNode hn ?_ rfl
      simp only [contents, hspares]
    · cases cleanup <;> exact ⟨rfl, fun _ => Iff.rfl⟩
  | _ => exact horphan.elim

/-- A section of a run that has lost its slot is spared by the new occupant. -/
def SparesRecycled (e : Section τ V) : Prop := s.Orphaned e.view → s.Spares e

/-- No section of a run writes to another occupant of its slot. -/
def Isolated (sections : List (Section τ V)) : Prop :=
  ∀ pre e, pre ++ [e] <+: sections → (new.run pre).Orphaned e.view →
    (new.run pre).context.Untouched ((new.run pre).step e).context e.view.slotId

end Session

end Lazily
