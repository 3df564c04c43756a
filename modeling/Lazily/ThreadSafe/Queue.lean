import Lazily.Context.Proof.Drain
import Lazily.Lib.Roster
import Lazily.ThreadSafe.Session

/-!
# The effect queue of the thread-safe context

The queue of `Context.Queue` as seen from the state lock. Threads create, schedule and dispose nodes
and one of them drains, each in critical sections that follow one another in any order. A new effect
takes three of them: its id is allocated, the node is inserted, and the effect is scheduled, so a
drain can meet an effect that was never scheduled in a slot it has popped. A panic that leaves a
drain resets the flag of the drain (`FlushGuard`); without the guard the queue would stand still.
Every section is a step of the queue of recycled ids (`steps_step`), so its invariant holds
(`run_inv`).
-/

namespace Lazily.ThreadSafe

open Lib State List Function Bool

variable {V : Type}

inductive QueueEvent (V : Type) where
  | alloc
  | insert (id : SlotId) (node : NodeDef V)
  | insertEffect (id : SlotId)
  | schedule (id : SlotId) (force : Bool)
  | disposeSlot (id : SlotId) (generation : Nat)
  | disposeCell (id : SlotId) (generation : Nat)
  | disposeEffect (id : SlotId) (generation : Nat)
  | setDrainBudget (budget : Nat)
  /-- `flush_effects` up to its loop, and one iteration of the loop up to `run_effect`. -/
  | flush (thread : Nat)
  | iterate
  /-- The two ends of the first part of `run_effect`. -/
  | unchanged
  | start
  /-- A panic leaves `flush_effects`. -/
  | unwind

/-- A session with the drain that is under way: its count of iterations and its budget, and the
effect it has popped and not yet run or found unchanged. -/
structure QueueRun (V : Type) where
  session : Session V
  iterations : Nat
  budget : Nat
  current : Option (SlotId × Nat)
  log : List QueueEntry

namespace QueueRun

variable (r : QueueRun V)

def new : QueueRun V := ⟨.new, 0, 0, none, []⟩

variable (s : Session V)

def withSession : QueueRun V := { r with session := s }

def withState (s : State V) : QueueRun V := r.withSession (r.session.withState s)

def logged (entries : List QueueEntry) : QueueRun V := { r with log := r.log ++ entries }

def gone : List QueueEntry :=
  ((range r.session.state.nextId).filter fun i =>
    (r.session.state.nodes i).isSome && (s.state.nodes i).isNone).map fun i =>
      .disposed (r.session.birth i)

def disposed : QueueRun V := (r.withSession s).logged (r.gone s)

def iterate : QueueRun V :=
  if r.session.state.flushing.isSome && r.current.isNone then
    match r.session.state.popScheduledEffect with
    | (none, s) => r.withState { s with flushing := none }
    | (some id, s) =>
      let birth := r.session.birth id
      if r.budget ≤ r.iterations + 1 then
        (r.withState { s with exhausted := true, flushing := none }).logged
          [.popped birth, .dropped birth]
      else
        { r.withState s with
          iterations := r.iterations + 1
          current := some (id, birth)
          log := r.log ++ [.popped birth] }
  else r

/-- `run_effect` from the return of `effect_should_run` to the call of the closure. -/
def start : QueueRun V :=
  match r.current with
  | some (id, _) =>
    { r.withState (r.session.state.startEffect id) with
      current := none
      log := r.log ++
        if (r.session.state.effect id).isSome then [.started (r.session.birth id)] else [] }
  | none => r

/-- The popped effect, if it is still there and not in the queue again. -/
def abandons : Option Nat :=
  match r.current with
  | some (id, birth) =>
    if (r.session.state.effect id).isSome && r.session.birth id == birth &&
        !r.session.state.scheduledEffects id then some birth
    else none
  | none => none

def dropped : List QueueEntry := r.abandons.toList.map .dropped

def unwind : QueueRun V :=
  if r.session.state.flushing.isSome then
    { r.withState { r.session.state with flushing := none } with
      current := none
      log := r.log ++ r.dropped }
  else r

def step : QueueEvent V → QueueRun V
  | .alloc => r.withSession r.session.allocId
  | .insert id node => r.withSession (r.session.insertNode id node.node)
  | .insertEffect id => r.withSession (r.session.insertNode id (.effect .new))
  | .schedule id force =>
    match r.session.state.effect id with
    | some _ =>
      (r.withState (r.session.state.scheduleEffect id force)).logged
        [.scheduled (r.session.birth id)]
    | none => r
  | .disposeSlot id generation => r.disposed (r.session.disposeSlot id generation)
  | .disposeCell id generation => r.disposed (r.session.disposeCell id generation)
  | .disposeEffect id generation => r.disposed (r.session.disposeEffect id generation)
  | .setDrainBudget budget =>
    if 0 < budget then r.withState { r.session.state with drainBudget := budget } else r
  | .flush thread =>
    if r.session.state.flushing.isSome then r
    else
      let drainBudget := r.session.state.drainBudget
      { r.withState { r.session.state with flushing := some thread } with
        iterations := 0
        budget := if drainBudget = 0 then defaultDrainBudget else drainBudget }
  | .iterate => r.iterate
  | .unchanged =>
    match r.current with
    | some (_, birth) => { r.logged [.unchanged birth] with current := none }
    | none => r
  | .start => r.start
  | .unwind => r.unwind

def run (events : List (QueueEvent V)) : QueueRun V := events.foldl step r

end QueueRun

/-! ## The roster of a session -/

namespace State

def occupant (s : State V) (i : SlotId) : Option Bool := (s.nodes i).map (·.effect?.isSome)

def roster (s : State V) (freeIds reserved : List SlotId) : Roster :=
  ⟨s.nextId, freeIds, reserved, s.occupant, s.scheduledEffects, s.pendingEffects, s.flushing.isSome⟩

end State

def Session.roster (s : Session V) : Roster := s.state.roster s.freeIds s.reserved

def QueueRun.tasks (r : QueueRun V) : TaskRun :=
  ⟨r.session.roster, r.session.births, r.session.birth, r.current, r.log⟩

namespace State

variable {s s' : State V} {id : SlotId} {freeIds reserved : List SlotId}

theorem occupant_effect_iff : s.occupant id = some true ↔ (s.effect id).isSome = true := by
  unfold occupant effect
  cases s.nodes id <;> simp

theorem roster_modifyNode {f : Node V → Node V}
    (hf : ∀ n, (f n).effect?.isSome = n.effect?.isSome) :
    (s.modifyNode id f).roster freeIds reserved = s.roster freeIds reserved := by
  have hocc : (s.modifyNode id f).occupant = s.occupant := by
    funext i
    unfold occupant
    rw [nodes_modifyNode]
    split
    · cases s.nodes i <;> simp [hf]
    · rfl
  unfold roster
  rw [hocc]
  rfl

theorem roster_modifySlot (f : ComputedNode V → ComputedNode V) :
    (s.modifySlot id f).roster freeIds reserved = s.roster freeIds reserved :=
  roster_modifyNode fun n => by cases n <;> rfl

theorem roster_modifyEffect (f : EffectNode V → EffectNode V) :
    (s.modifyEffect id f).roster freeIds reserved = s.roster freeIds reserved :=
  roster_modifyNode fun n => by cases n <;> rfl

theorem roster_foldl {α : Type} {f : State V → α → State V}
    (hf : ∀ s a, (f s a).roster freeIds reserved = s.roster freeIds reserved) (l : List α) :
    (l.foldl f s).roster freeIds reserved = s.roster freeIds reserved :=
  foldl_invariant (I := fun s' => s'.roster freeIds reserved = s.roster freeIds reserved) rfl
    fun s' a h => (hf s' a).trans h

theorem roster_invalidateDisposedDependents (freeIds reserved : List SlotId)
    (dependents : HybridSet) : (s.invalidateDisposedDependents dependents).roster freeIds reserved =
      s.roster freeIds reserved := by
  unfold invalidateDisposedDependents InvalidationPlan.apply
  simp only [foldl_nil]
  refine (roster_foldl (fun s mark => ?_) _).trans (roster_foldl (fun s id => ?_) _)
  · split
    · rfl
    · exact roster_modifySlot _
  · exact roster_modifySlot _

theorem roster_removeNode : (s.removeNode id).roster freeIds reserved =
    { s.roster freeIds reserved with occupant := update s.occupant id none } := by
  have hocc : (s.removeNode id).occupant = update s.occupant id none := by
    funext i
    by_cases hi : i = id <;> simp [occupant, removeNode, hi]
  unfold roster
  rw [hocc]
  rfl

theorem scheduledEffects_descheduleEffect : (s.descheduleEffect id).scheduledEffects =
    update s.scheduledEffects id false := by
  funext i
  by_cases hi : i = id <;> simp [descheduleEffect, hi]

theorem roster_scheduleEffect {e : EffectNode V} (he : s.effect id = some e) (force : Bool) :
    (s.scheduleEffect id force).roster freeIds reserved =
      (s.roster freeIds reserved).schedule id := by
  have hforce : (s.modifyEffect id fun e => { e with forceRun := e.forceRun || force }).roster
      freeIds reserved = s.roster freeIds reserved := roster_modifyEffect _
  rw [← hforce]
  unfold scheduleEffect Roster.schedule
  simp only [he, roster]
  split
  · rename_i hs
    exact (if_pos hs).symm
  · rename_i hs
    refine Eq.trans ?_ (if_neg hs).symm
    congr 1
    funext i
    by_cases hi : i = id <;> simp [hi]

theorem roster_popped (freeIds reserved : List SlotId) (h : s.popScheduledEffect = (some id, s')) :
    s.scheduledEffects id = true ∧ ∃ rest, (s.roster freeIds reserved).Leaves id rest ∧
      s'.roster freeIds reserved = (s.roster freeIds reserved).unschedule id rest := by
  unfold popScheduledEffect at h
  split at h
  · rename_i x rest hpop
    cases h
    obtain ⟨hs, hrest⟩ := popQueue_some hpop
    refine ⟨hs, rest, hrest, ?_⟩
    unfold roster
    rw [scheduledEffects_descheduleEffect]
    rfl
  · cases h

theorem nothing_popped (h : s.popScheduledEffect = (none, s')) :
    s' = { s with pendingEffects := [] } ∧
      ∀ i ∈ s.pendingEffects, s.scheduledEffects i = false := by
  unfold popScheduledEffect at h
  split at h
  · cases h
  · rename_i hpop
    cases h
    exact ⟨rfl, popQueue_none hpop⟩

/-- The section of `run_effect` before the closure, whatever is in the slot by then. -/
theorem roster_startEffect (s : State V) (id : SlotId) (freeIds reserved : List SlotId) :
    (s.startEffect id).roster freeIds reserved =
    (s.roster freeIds reserved).unschedule id
      (if s.scheduledEffects id then s.pendingEffects.filter (· != id) else s.pendingEffects) := by
  have hroster : (if s.scheduledEffects id then { s.descheduleEffect id with
      pendingEffects := s.pendingEffects.filter (· != id) } else s).roster freeIds reserved =
        (s.roster freeIds reserved).unschedule id
          (if s.scheduledEffects id then s.pendingEffects.filter (· != id)
            else s.pendingEffects) := by
    unfold roster Roster.unschedule
    split
    · simp only [scheduledEffects_descheduleEffect]
      rfl
    · rename_i hs
      rw [update_eq_self_iff.2 (by simpa using hs)]
  exact (roster_modifyEffect _).trans hroster

end State

namespace Session

variable {s : Session V} {id : SlotId} {n : Node V}

theorem roster_allocId : s.allocId.roster = s.roster.alloc := by
  unfold allocId Roster.alloc Roster.fresh roster State.roster
  cases s.freeIds <;> rfl

theorem roster_insertNode (hid : id ∈ s.reserved) :
    (s.insertNode id n).roster = s.roster.insert id n.effect?.isSome := by
  unfold insertNode roster State.roster Roster.insert
  simp only [hid]
  congr 1
  funext i
  by_cases hi : i = id <;> simp [occupant, hi]

theorem roster_tearDown (hn : s.state.nodes id = some n) (hkind : n.effect? = none)
    (dependencies dependents : HybridSet) :
    (s.tearDown id dependencies dependents).roster = s.roster.retire id := by
  have hocc : s.state.occupant id ≠ some true := by simp [occupant, hn, hkind]
  refine (roster_invalidateDisposedDependents _ s.reserved dependents).trans ?_
  refine (roster_foldl (fun s x => ?_) _).trans ?_
  · exact roster_modifyNode fun n => by cases n <;> rfl
  refine (roster_foldl (fun s x => ?_) _).trans ?_
  · exact roster_modifyNode fun n => by cases n <;> rfl
  rw [roster_removeNode, Roster.retire, if_neg (show s.roster.occupant id ≠ some true from hocc)]
  rfl

/-- Nodes go, and the others keep their numbers. -/
structure Disposes (s s' : Session V) : Prop where
  births : s'.births = s.births
  birth : s'.birth = s.birth
  roster : s.roster.Retires s'.roster

theorem Disposes.refl (s : Session V) : Disposes s s := ⟨rfl, rfl, .refl _⟩

theorem disposes_tearDown (hn : s.state.nodes id = some n) (hkind : n.effect? = none)
    (dependencies dependents : HybridSet) : Disposes s (s.tearDown id dependencies dependents) := by
  refine ⟨rfl, rfl, .head (show s.state.occupant id ≠ none by simp [occupant, hn]) ?_⟩
  rw [roster_tearDown hn hkind]
  exact .refl _

variable (generation : Nat)

theorem disposes_disposeSlot : Disposes s (s.disposeSlot id generation) := by
  unfold disposeSlot
  split
  · rename_i c hc
    split
    · exact disposes_tearDown (s.state.slot_eq_some.1 hc) rfl _ _
    · exact .refl _
  · exact .refl _

theorem disposes_disposeCell : Disposes s (s.disposeCell id generation) := by
  unfold disposeCell
  split
  · rename_i c hc
    split
    · exact disposes_tearDown (s.state.source_eq_some.1 hc) rfl _ _
    · exact .refl _
  · exact .refl _

theorem disposes_disposeEffect : Disposes s (s.disposeEffect id generation) := by
  unfold disposeEffect
  split
  · rename_i e he
    have hocc : s.roster.occupant id = some true := occupant_effect_iff.2 (by simp [he])
    split
    · refine ⟨rfl, rfl, .head (show s.roster.occupant id ≠ none by simp [hocc]) ?_⟩
      rw [show ((s.withState ((s.state.descheduleEffect id).removeNode id)).retireId id).roster = _
        from roster_removeNode, State.roster, scheduledEffects_descheduleEffect, Roster.retire,
        if_pos hocc]
      exact .refl _
    · exact .refl _
  · exact .refl _

end Session

namespace QueueRun

open TaskRun (Step)

variable {r : QueueRun V}

theorem gone_eq (s : Session V) : r.gone s = r.tasks.gone s.roster := by
  unfold QueueRun.gone TaskRun.gone
  simp [tasks, Session.roster, State.roster, occupant]

theorem steps_disposed {s : Session V} (h : r.session.Disposes s) :
    Relation.ReflTransGen (Step False) r.tasks (r.disposed s).tasks := by
  have hstep : Step False r.tasks { r.tasks with roster := s.roster, log := _ } := .retire h.roster
  rw [← gone_eq] at hstep
  have htasks : (r.disposed s).tasks =
      ⟨s.roster, s.births, s.birth, r.current, r.log ++ r.gone s⟩ := rfl
  rw [htasks, h.births, h.birth]
  exact .single hstep

theorem steps_insertNode (id : SlotId) (n : Node V) : Relation.ReflTransGen (Step False) r.tasks
    (r.withSession (r.session.insertNode id n)).tasks := by
  by_cases hid : id ∈ r.session.reserved
  · have hstep : Step False r.tasks (r.tasks.created id (r.session.insertNode id n).roster r.log) :=
      Session.roster_insertNode hid ▸ .insert hid False.elim
    have hbirth : (r.session.insertNode id n).birth =
        update r.session.birth id r.session.births := by
      funext i
      by_cases hi : i = id <;> simp [Session.insertNode, hid, hi]
    have hbirths : (r.session.insertNode id n).births = r.session.births + 1 := by
      simp [Session.insertNode, hid]
    refine .single ?_
    rw [show (r.withSession (r.session.insertNode id n)).tasks =
      ⟨(r.session.insertNode id n).roster, (r.session.insertNode id n).births,
        (r.session.insertNode id n).birth, r.current, r.log⟩ from rfl, hbirth, hbirths]
    exact hstep
  · rw [show r.session.insertNode id n = r.session by simp [Session.insertNode, hid]]
    exact .refl

theorem steps_iterate : Relation.ReflTransGen (Step False) r.tasks r.iterate.tasks := by
  unfold QueueRun.iterate
  split
  · rename_i hguard
    obtain ⟨hdrain, hcur⟩ := and_eq_true_iff.1 hguard
    have hcur : r.current = none := by simpa using hcur
    split
    · rename_i s hpop
      obtain ⟨rfl, hoff⟩ := nothing_popped hpop
      exact .single (.drained hcur hoff)
    · rename_i id s hpop
      obtain ⟨hs, rest, hrest, hroster⟩ := roster_popped r.session.freeIds r.session.reserved hpop
      simp only
      split
      · have hstep : Step False r.tasks { r.tasks with
            roster := { s.roster r.session.freeIds r.session.reserved with draining := false }
            log := r.log ++ [.popped (r.session.birth id), .dropped (r.session.birth id)] } :=
          hroster ▸ .exhaust hdrain hcur hs hrest
        exact .single hstep
      · have hstep : Step False r.tasks { r.tasks with
            roster := s.roster r.session.freeIds r.session.reserved
            current := some (id, r.session.birth id)
            log := r.log ++ [.popped (r.session.birth id)] } := hroster ▸ .pop hdrain hcur hs hrest
        exact .single hstep
  · exact .refl

theorem steps_start (h : r.tasks.Inv False) :
    Relation.ReflTransGen (Step False) r.tasks r.start.tasks := by
  unfold QueueRun.start
  split
  · rename_i id b hcur
    have hroster := roster_startEffect r.session.state id r.session.freeIds r.session.reserved
    by_cases he : (r.session.state.effect id).isSome = true
    · have hstep : Step False r.tasks { r.tasks with
          roster := (r.session.state.startEffect id).roster r.session.freeIds r.session.reserved
          current := none
          log := r.log ++ [.started (r.session.birth id)] } := by
        refine hroster ▸ .start hcur (occupant_effect_iff.2 he) fun i hi hs hne => ?_
        split
        · exact mem_filter.2 ⟨hi, by simpa using hne⟩
        · exact hi
      rw [if_pos he]
      exact .single hstep
    · have hocc : r.tasks.roster.occupant id ≠ some true := fun hocc =>
        he (occupant_effect_iff.1 hocc)
      have hoff : r.session.state.scheduledEffects id ≠ true := fun hs => hocc (h.ok.task id hs)
      have hstep : Step False r.tasks { r.tasks with
          roster := (r.session.state.startEffect id).roster r.session.freeIds r.session.reserved
          current := none } := by
        rw [hroster, if_neg hoff, show Roster.unschedule _ id r.session.state.pendingEffects = _
          from Roster.unschedule_eq_self (eq_false_iff.2 hoff)]
        exact .pass hcur hocc
      rw [if_neg he, append_nil]
      exact .single hstep
  · exact .refl

theorem abandons_eq_some {b : Nat} (h : r.abandons = some b) : ∃ id, r.current = some (id, b) ∧
    (r.session.state.effect id).isSome = true ∧ r.session.birth id = b ∧
      r.session.state.scheduledEffects id = false := by
  unfold abandons at h
  split at h
  · rename_i id birth hcur
    split at h
    · rename_i hd
      cases h
      simp only [and_eq_true, beq_iff_eq, not_eq_true'] at hd
      exact ⟨id, hcur, hd.1.1, hd.1.2, hd.2⟩
    · cases h
  · cases h

theorem steps_unwind : Relation.ReflTransGen (Step False) r.tasks r.unwind.tasks := by
  unfold QueueRun.unwind
  split
  · cases hdropped : r.abandons with
    | none =>
      have hleave : Step False r.tasks _ := .leave fun id hcur hocc => by
        by_contra hs
        have hoff : r.session.state.scheduledEffects id = false := eq_false_iff.2 hs
        have hcur : r.current = some (id, r.session.birth id) := hcur
        simp [abandons, hcur, occupant_effect_iff.1 hocc, hoff] at hdropped
      rw [dropped, hdropped, Option.toList_none, map_nil, append_nil]
      exact .single hleave
    | some b =>
      obtain ⟨id, hcur, he, rfl, hs⟩ := abandons_eq_some hdropped
      have habandon : Step False r.tasks _ := .abandon hcur (occupant_effect_iff.2 he) hs
      rw [dropped, hdropped]
      exact .single habandon
  · exact .refl

theorem steps_step (h : r.tasks.Inv False) (e : QueueEvent V) :
    Relation.ReflTransGen (Step False) r.tasks (r.step e).tasks := by
  cases e with
  | alloc =>
    have hstep : Step False r.tasks { r.tasks with roster := r.session.allocId.roster } :=
      Session.roster_allocId ▸ .alloc r.tasks
    have htasks : (r.step .alloc).tasks = { r.tasks with roster := r.session.allocId.roster } := by
      simp only [QueueRun.step, Session.allocId]
      split <;> rfl
    exact htasks ▸ .single hstep
  | insert id node => exact steps_insertNode id _
  | insertEffect id => exact steps_insertNode id _
  | schedule id force =>
    simp only [QueueRun.step]
    split
    · rename_i e he
      have hstep : Step False r.tasks { r.tasks with
          roster := (r.session.state.scheduleEffect id force).roster r.session.freeIds
            r.session.reserved
          log := r.log ++ [.scheduled (r.session.birth id)] } :=
        roster_scheduleEffect he force ▸ .schedule (occupant_effect_iff.2 (by simp [he]))
      exact .single hstep
    · exact .refl
  | disposeSlot id generation => exact steps_disposed (Session.disposes_disposeSlot generation)
  | disposeCell id generation => exact steps_disposed (Session.disposes_disposeCell generation)
  | disposeEffect id generation => exact steps_disposed (Session.disposes_disposeEffect generation)
  | setDrainBudget budget =>
    simp only [QueueRun.step]
    split <;> exact .refl
  | flush thread =>
    simp only [QueueRun.step]
    split
    · exact .refl
    · exact .single (.flush r.tasks)
  | iterate => exact steps_iterate
  | unchanged =>
    simp only [QueueRun.step]
    split
    · rename_i hcur
      exact .single (.unchanged hcur)
    · exact .refl
  | start => exact steps_start h
  | unwind => exact steps_unwind

theorem run_inv (events : List (QueueEvent V)) : ((new : QueueRun V).run events).tasks.Inv False :=
  foldl_invariant (I := fun r : QueueRun V => r.tasks.Inv False) (.empty False)
    fun _ e h => h.steps (steps_step h e)

end QueueRun

end Lazily.ThreadSafe
