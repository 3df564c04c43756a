import Lazily.Context.Recycled
import Lazily.ThreadSafe.Session

/-!
# A run whose node is gone, on the shared graph

The sections at the end of a run check the occupant of the slot by its kind and, for a computed
cell, by the invalidation revision of its fast path. Every fast path starts at revision 0, so the
result of a first run of a disposed cell passes the check of a new cell that was never invalidated
(`disposed_run_writes_to_new_node`); and the path that rejects the result still ends the recompute
the new cell has in flight. Where the slot is empty or its occupant can tell, it is left alone
(`recycled_slots_untouched`).
-/

namespace Lazily.ThreadSafe

open Lib State HybridSet List Option

variable {V : Type}

namespace ComputedNode

variable {c : ComputedNode V}

theorem withRecompute_eq_self (h : c.recompute.isNone = true) : c.withRecompute none = c := by
  have hnone : c.fastPath.recompute = none := isNone_iff_eq_none.1 h
  have hfast : { c.fastPath with recompute := none } = c.fastPath :=
    FastPath.ext rfl rfl rfl rfl rfl rfl rfl rfl hnone.symm
  exact ComputedNode.ext rfl rfl rfl rfl rfl rfl rfl hfast

end ComputedNode

namespace State

variable {s : State V} {id dependency : SlotId} {n : Node V}

def isCell (s : State V) (id : SlotId) : Bool := (s.slot id).isSome || (s.source id).isSome

def isReader (s : State V) (id : SlotId) : Bool := (s.slot id).isSome || (s.effect id).isSome

/-- Nothing is written to the node in slot `id`, and its edges are those it had. -/
structure Untouched (s s' : State V) (id : SlotId) : Prop where
  node : s'.nodes id = s.nodes id
  edges : ∀ d, id ∈ s'.dependentsOf d ↔ id ∈ s.dependentsOf d

theorem Untouched.rfl : s.Untouched s id := ⟨Eq.refl _, fun _ => Iff.rfl⟩

theorem modifyNode_eq_self {f : Node V → Node V} (h : ∀ n, s.nodes id = some n → f n = n) :
    s.modifyNode id f = s := by
  have hnodes : (fun i => if i = id then (s.nodes i).map f else s.nodes i) = s.nodes := by
    funext i
    split
    · rename_i hi
      subst hi
      cases hn : s.nodes i with
      | none => rfl
      | some n => rw [map_some, h n hn]
    · rfl
  rw [modifyNode, hnodes]

section

variable (hn : s.nodes id = some n)
include hn

theorem isCell_of_nodes (hkind : n.effect? = none) : s.isCell id = true := by
  cases n <;> simp_all [isCell, slot, source, Node.effect?, Node.computed?, Node.source?]

theorem isReader_of_nodes (hkind : n.source? = none) : s.isReader id = true := by
  cases n <;> simp_all [isReader, slot, effect, Node.effect?, Node.computed?, Node.source?]

theorem dependenciesOf_of_nodes :
    s.dependenciesOf id = n.dependencies := by simp [dependenciesOf, hn]

theorem dependentsOf_of_nodes : s.dependentsOf id = n.dependents := by simp [dependentsOf, hn]

end

/-- An edge that stands in both tables, as far as the kinds of its ends let it, is not added. -/
theorem registerDependency_eq_self {dependent : SlotId}
    (hdependency : s.isReader dependent = true → dependency ∈ s.dependenciesOf dependent)
    (hdependent : s.isCell dependency = true → dependent ∈ s.dependentsOf dependency) :
    s.registerDependency dependency dependent = s := by
  have hleft : s.modifyNode dependency (·.insertDependent dependent) = s := by
    refine modifyNode_eq_self fun n hn => ?_
    rw [dependentsOf_of_nodes hn] at hdependent
    cases n with
    | computed c =>
      have hmem : dependent ∈ c.dependents := hdependent (isCell_of_nodes hn rfl)
      simp only [Node.insertDependent, insert_eq_self hmem]
    | source c =>
      have hmem : dependent ∈ c.dependents := hdependent (isCell_of_nodes hn rfl)
      simp only [Node.insertDependent, insert_eq_self hmem]
    | effect e => rfl
  have hright : ∀ isSlot, s.modifyNode dependent (·.insertDependency dependency isSlot) = s := by
    intro isSlot
    refine modifyNode_eq_self fun n hn => ?_
    rw [dependenciesOf_of_nodes hn] at hdependency
    cases n with
    | computed c =>
      have hmem : dependency ∈ c.dependencies := hdependency (isReader_of_nodes hn rfl)
      simp only [Node.insertDependency, hmem, if_true]
    | source c => rfl
    | effect e =>
      have hmem : dependency ∈ e.dependencies := hdependency (isReader_of_nodes hn rfl)
      simp only [Node.insertDependency, insert_eq_self hmem]
  unfold registerDependency
  split
  · rfl
  · rw [hleft]
    exact hright _

theorem removeParentDependency_eq_self (h : dependency ∉ s.dependenciesOf id) :
    s.removeParentDependency id dependency = s := by
  refine modifyNode_eq_self fun n hn => ?_
  rw [dependenciesOf_of_nodes hn] at h
  cases n with
  | computed c =>
    have hmem : dependency ∉ c.dependencies := h
    simp only [Node.removeDependency, hmem, if_false]
  | source c => rfl
  | effect e =>
    have hmem : dependency ∉ e.dependencies := h
    simp only [Node.removeDependency, remove_eq_self hmem]

theorem removeDependentEdge_eq_self (h : id ∉ s.dependentsOf dependency) :
    s.removeDependentEdge dependency id = s := by
  refine modifyNode_eq_self fun n hn => ?_
  rw [dependentsOf_of_nodes hn] at h
  cases n with
  | computed c =>
    have hmem : id ∉ c.dependents := h
    simp only [Node.removeDependent, remove_eq_self hmem]
  | source c =>
    have hmem : id ∉ c.dependents := h
    simp only [Node.removeDependent, remove_eq_self hmem]
  | effect e => rfl

/-- Edges that stand in neither table are not removed. -/
theorem removeStaleDependencies_eq_self {old new : List SlotId}
    (h : ∀ d ∈ old, d ∉ new → d ∉ s.dependenciesOf id ∧ id ∉ s.dependentsOf d) :
    s.removeStaleDependencies id old new = s := by
  unfold removeStaleDependencies
  induction old with
  | nil => rfl
  | cons d old ih =>
    have hone : (if d ∈ new then s
        else (s.removeParentDependency id d).removeDependentEdge d id) = s := by
      split
      · rfl
      · rename_i hnew
        obtain ⟨hdependency, hdependent⟩ := h d mem_cons_self hnew
        rw [removeParentDependency_eq_self hdependency, removeDependentEdge_eq_self hdependent]
    rw [foldl_cons, hone]
    exact ih fun d hd => h d (mem_cons_of_mem _ hd)

end State

namespace Session

variable (s : Session V)

/-- The slot of the owner has been taken by another node. -/
def Orphaned (owner : Owner) : Prop :=
  (s.state.nodes owner.id).isSome = true ∧ s.birth owner.id ≠ owner.birth

instance (owner : Owner) : Decidable (s.Orphaned owner) := inferInstanceAs (Decidable (_ ∧ _))

/-- No edge of the occupant is among those a run of slot `id` drops. -/
def DropsNothing (id : SlotId) (old new : List SlotId) : Prop :=
  ∀ d ∈ old, d ∉ new → d ∉ s.state.dependenciesOf id ∧ id ∉ s.state.dependentsOf d

/-- The occupant of the slot gives the section of a run nothing to write. A result is rejected by
the revision, and no recompute is in flight that the rejection would end; or it is what the occupant
has cached. -/
def Spares [DecidableEq V] : Section V → Prop
  | .register owner dependency =>
    dependency = owner.id ∨
      (s.state.isReader owner.id = true → dependency ∈ s.state.dependenciesOf owner.id) ∧
      (s.state.isCell dependency = true → owner.id ∈ s.state.dependentsOf dependency)
  | .publish owner locals result =>
    match s.state.slot owner.id with
    | some c =>
      c.recompute.isNone = true ∧
        (c.revision = locals.revision →
          s.DropsNothing owner.id (locals.oldDependencies.getD []) locals.tracked ∧
          c.dirty = false ∧ c.forceRecompute = false ∧ c.value.isSome = true ∧
          (locals.wasUnset = true ∨ c.equals = true ∧ c.value = some result))
    | none => True
  | .finishRun owner locals cleanup =>
    match s.state.effect owner.id with
    | some e =>
      s.DropsNothing owner.id locals.oldDependencies locals.tracked ∧ e.cleanup = cleanup
    | none => True
  | _ => True

/-- A result that is rejected, or that is cached already. -/
theorem publish_eq_self [DecidableEq V] {id : SlotId} {c : ComputedNode V} {locals : Recompute V}
    {result : V} (hc : s.state.slot id = some c) (hidle : c.recompute.isNone = true)
    (hcached : c.revision = locals.revision →
      s.DropsNothing id (locals.oldDependencies.getD []) locals.tracked ∧
      c.dirty = false ∧ c.forceRecompute = false ∧ c.value.isSome = true ∧
      (locals.wasUnset = true ∨ c.equals = true ∧ c.value = some result)) :
    s.publish id locals result = s.state := by
  have hself : ∀ {f : ComputedNode V → ComputedNode V}, f c = c →
      s.state.modifySlot id f = s.state := by
    intro f hf
    refine modifyNode_eq_self fun n hn => ?_
    obtain rfl : .computed c = n := some.inj (((slot_eq_some _).1 hc).symm.trans hn)
    exact congrArg Node.computed hf
  unfold publish
  rw [hc]
  simp only [State.publish]
  split
  · exact hself (ComputedNode.withRecompute_eq_self hidle)
  · rename_i hrevision
    obtain ⟨hdrops, hdirty, hforce, hvalue, hkept⟩ := hcached (not_not.1 hrevision)
    rw [removeStaleDependencies_eq_self hdrops]
    split
    · exact hself (ComputedNode.withRecompute_eq_self hidle)
    · rename_i hduplicate
      have hequal : c.equals = true ∧ c.value = some result :=
        hkept.resolve_left fun hunset => hduplicate (by simp [hunset, hvalue, hdirty, hforce])
      have hunchanged : (c.equals && c.value == some result) = true := by simp [hequal]
      simp only [hunchanged, Bool.not_true, Bool.false_and, Bool.false_eq_true, Bool.true_and]
      refine hself ?_
      rw [dif_pos hvalue, ComputedNode.settle_of_fresh c hvalue hdirty]
      exact ComputedNode.withRecompute_eq_self hidle

theorem finishRun_eq_self {id : SlotId} {e : EffectNode V} {locals : EffectRun V}
    (he : s.state.effect id = some e)
    (hdrops : s.DropsNothing id locals.oldDependencies locals.tracked) :
    s.finishRun id locals e.cleanup = s.state := by
  unfold finishRun
  rw [he]
  simp only
  rw [removeStaleDependencies_eq_self hdrops]
  refine modifyNode_eq_self fun n hn => ?_
  obtain rfl : .effect e = n := some.inj (((effect_eq_some _).1 he).symm.trans hn)
  rfl

end Session

/-- The run a section belongs to. -/
def Section.owner : Section V → Option Owner
  | .register owner _ | .publish owner _ _ | .finishRun owner _ _ => some owner
  | _ => none

namespace Session

variable [DecidableEq V] {s : Session V}

/-- A section of a run whose slot has another occupant, and which is spared. -/
theorem step_untouched {e : Section V} {owner : Owner} (howner : e.owner = some owner)
    (hspares : s.Spares e) : s.state.Untouched (s.step e).state owner.id := by
  have hself : (s.step e).state = s.state := by
    cases e with
    | register owner dependency =>
      rcases hspares with rfl | ⟨hdependency, hdependent⟩
      · exact if_pos rfl
      · exact registerDependency_eq_self hdependency hdependent
    | publish owner locals result =>
      show s.publish owner.id locals result = s.state
      cases hc : s.state.slot owner.id with
      | none => rw [publish, hc]
      | some c =>
        simp only [Spares, hc] at hspares
        exact publish_eq_self s hc hspares.1 hspares.2
    | finishRun owner locals cleanup =>
      show s.finishRun owner.id locals cleanup = s.state
      cases he : s.state.effect owner.id with
      | none => rw [finishRun, he]
      | some e =>
        simp only [Spares, he] at hspares
        obtain ⟨hdrops, rfl⟩ := hspares
        exact finishRun_eq_self s he hdrops
    | _ => cases howner
  rw [hself]
  exact .rfl

/-- A section of a run that has lost its slot is spared by the new occupant. -/
def SparesRecycled (s : Session V) (e : Section V) : Prop :=
  ∀ owner, e.owner = some owner → s.Orphaned owner → s.Spares e

/-- No section of a run writes to another occupant of its slot. -/
def Isolated (sections : List (Section V)) : Prop :=
  ∀ pre e owner, pre ++ [e] <+: sections → e.owner = some owner →
    (new.run pre).Orphaned owner →
    (new.run pre).state.Untouched ((new.run pre).step e).state owner.id

end Session

end Lazily.ThreadSafe

namespace Lazily

open Lib

/-- In every execution of either context in which the occupants of recycled slots spare the sections
of the runs that lost them, no such run touches the node that took its slot. -/
theorem recycled_slots_untouched {τ V : Type} [DecidableEq V]
    {sections : List (Section τ V)} {shared : List (ThreadSafe.Section V)}
    (hsections : Allowed Session.step Session.SparesRecycled .new sections)
    (hshared : Allowed ThreadSafe.Session.step ThreadSafe.Session.SparesRecycled .new shared) :
    Session.Isolated sections ∧ ThreadSafe.Session.Isolated shared := by
  constructor
  · intro pre e hpre horphan
    exact Session.step_untouched _ horphan (hsections.of_prefix hpre horphan)
  · intro pre e owner hpre howner horphan
    exact ThreadSafe.Session.step_untouched howner (hshared.of_prefix hpre owner howner horphan)

/-- A computed cell disposes itself, a source takes its slot, and the result comes after that. -/
def sourceInSlot : List (Section Unit Nat) :=
  [.slot (.ret 5) none (), .beginRecompute 0, .disposeSlot ⟨0, 0, ()⟩, .source 3 (),
    .publish (.node 0 0) 5, .leaveRefresh (.node 0 0)]

/-- The variables of a recompute that reads nothing. -/
def ThreadSafe.firstRecompute (result : Nat) : ThreadSafe.Recompute Nat :=
  ⟨0, 0, true, some [], [], .ret result⟩

/-- A computed cell is disposed while it runs; the new cell in its slot has been computed and
cleared when the result of the old run comes. -/
def ThreadSafe.clearedInSlot : List (ThreadSafe.Section Nat) :=
  [.alloc, .insert 0 (.computed (.ret 5) true), .beginRecompute 0 0, .disposeSlot 0 0, .alloc,
    .insert 0 (.computed (.ret 9) true), .beginRecompute 0 1,
    .publish ⟨0, 1⟩ (firstRecompute 9) 9, .clear [0], .publish ⟨0, 0⟩ (firstRecompute 5) 5]

theorem recycled_slots_untouched_rejected :
    ((Session.new.run (sourceInSlot.take 4)).Orphaned (.node 0 0) ∧
        Session.Isolated sourceInSlot) ∧
      (ThreadSafe.Session.new.run (ThreadSafe.clearedInSlot.take 9)).Orphaned ⟨0, 0⟩ ∧
        ThreadSafe.Session.Isolated ThreadSafe.clearedInSlot := by
  have hsections : Allowed Session.step Session.SparesRecycled .new sourceInSlot :=
    ⟨False.elim, False.elim, False.elim, False.elim, fun _ => trivial, fun _ => trivial, trivial⟩
  have hshared : Allowed ThreadSafe.Session.step ThreadSafe.Session.SparesRecycled .new
      ThreadSafe.clearedInSlot := by
    refine ⟨?_, ?_, ?_, ?_, ?_, ?_, ?_, ?_, ?_, ?_, trivial⟩
    all_goals rintro owner ⟨⟩ ⟨-, hbirth⟩
    · exact absurd rfl hbirth
    · -- the clear has moved the revision of the new cell on
      exact ⟨rfl, fun hrevision => absurd hrevision (by decide +kernel)⟩
  obtain ⟨hcontext, hthreads⟩ := recycled_slots_untouched hsections hshared
  exact ⟨⟨by decide +kernel, hcontext⟩, by decide +kernel, hthreads⟩

/-- An effect disposes itself and creates another effect, which takes its slot. -/
def effectInSlot : List (Section Unit Nat) :=
  [.effect (.done (some 7) []), .beginRun 0, .disposeEffect ⟨0, 0⟩, .effect (.done none [])]

/-- A computed cell is disposed while it runs, and another takes its slot. -/
def ThreadSafe.cellInSlot : List (ThreadSafe.Section Nat) :=
  [.alloc, .insert 0 (.computed (.ret 5) true), .beginRecompute 0 0, .disposeSlot 0 0, .alloc,
    .insert 0 (.computed (.ret 9) true)]

/-- The cleanup of the old run is stored in the new effect, which has not run yet; the result of the
old run is stored in the new cell, which passes for computed from then on. -/
theorem disposed_run_writes_to_new_node :
    ¬ Session.Isolated (effectInSlot ++ [.finishRun (.node 0 0) (some 7)]) ∧
      ¬ ThreadSafe.Session.Isolated
        (ThreadSafe.cellInSlot ++ [.publish ⟨0, 0⟩ (ThreadSafe.firstRecompute 5) 5]) := by
  constructor
  · intro h
    have hcontents := (h effectInSlot _ List.prefix_rfl (by decide +kernel)).contents
    revert hcontents
    decide +kernel
  · intro h
    have hnode := (h ThreadSafe.cellInSlot _ ⟨0, 0⟩ List.prefix_rfl rfl (by decide +kernel)).node
    have hvalue := congrArg (fun n => (n.bind ThreadSafe.Node.computed?).bind (·.value)) hnode
    revert hvalue
    decide +kernel

end Lazily
