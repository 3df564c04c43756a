import Lazily.Context.Proof.Drain
import Lazily.Context.Proof.Teardown
import Lazily.Lib.Roster

/-!
# The effect queue under arbitrary programs

`pending_effects` is a queue of bare ids and `scheduled_effects` a flag for each of them. A disposal
clears the flag and leaves the queue entry, and the id may be recycled before the entry is reached.
Here a program is the sequence of what it does to the arena and the queue: nodes are created and
disposed, effects scheduled by writes and recomputes, and a drain pops, considers and starts them. A
drain runs foreign code between the pop of an effect and the start of its run (the refresh of its
dependencies) and again during the run, so anything may come between the steps of a drain.

Nodes are numbered by their creation (`birth`), which no step looks at, and the log speaks of them
by these numbers. Every step is one of the steps of a queue of recycled ids (`steps_step`), so each
episode of a schedule ends once: `episodes_end_once`.
-/

namespace Lazily

open Lib Context Function List Roster

variable {τ V : Type}

inductive QueueEvent (τ V : Type) where
  | source (value : V) (tag : τ)
  | slot (compute : ComputeFn τ V) (equals : Option (V → V → Bool)) (tag : τ)
  | effect (run : EffectFn τ V)
  | schedule (id : SlotId) (force : Bool)
  | makeLazy (id : SlotId)
  | disposeCell (h : Source τ)
  | disposeSlot (h : Computed τ)
  | disposeEffect (h : Effect)
  | setDrainBudget (budget : Nat)
  /-- `flush_effects` up to its loop, and one iteration of the loop up to `run_effect`. -/
  | flush
  | iterate
  /-- The two ends of the first part of `run_effect`. -/
  | unchanged
  | start

/-- A context with the drain that is under way: its count of iterations, and the effect it has
popped and not yet run or found unchanged. -/
structure QueueRun (τ V : Type) where
  context : Context τ V
  births : Nat
  birth : SlotId → Nat
  iterations : Nat
  current : Option (SlotId × Nat)
  log : List QueueEntry

namespace QueueRun

variable (r : QueueRun τ V)

def new (revisionMode : Bool) : QueueRun τ V := ⟨newImpl revisionMode, 0, fun _ => 0, 0, none, []⟩

def withContext (c : Context τ V) : QueueRun τ V := { r with context := c }

def logged (entries : List QueueEntry) : QueueRun τ V := { r with log := r.log ++ entries }

def created (id : SlotId) (c : Context τ V) : QueueRun τ V :=
  { r with context := c, births := r.births + 1, birth := Function.update r.birth id r.births }

def gone (c : Context τ V) : List QueueEntry :=
  ((List.range r.context.nextId).filter fun i => r.context.alive i && !c.alive i).map fun i =>
    .disposed (r.birth i)

def disposed (c : Context τ V) : QueueRun τ V := (r.withContext c).logged (r.gone c)

def iterate : QueueRun τ V :=
  if r.context.flushingEffects && r.current.isNone then
    match r.context.popScheduledEffect with
    | (none, c) => r.withContext { c with flushingEffects := false }
    | (some id, c) =>
      let c := c.countRun id
      if c.drainBudget ≤ r.iterations + 1 then
        (r.withContext
          { c with
            lastDrainExhaustion := some (c.drainExhaustionReport (r.iterations + 1))
            flushingEffects := false }).logged [.popped (r.birth id), .dropped (r.birth id)]
      else
        { r.withContext c with
          iterations := r.iterations + 1
          current := some (id, r.birth id)
          log := r.log ++ [.popped (r.birth id)] }
  else r

/-- `run_effect` from the return of `effect_should_run` to the call of the closure. The slot of the
effect may have a new occupant by now. -/
def start : QueueRun τ V :=
  match r.current with
  | some (id, _) =>
    match r.context.nodes id with
    | some (.effect e) =>
      { r with
        context := ((r.context.removePendingEffect id).startRun id).runCleanup e.cleanup
        current := none
        log := r.log ++ [.started (r.birth id)] }
    | _ => { r with current := none }
  | none => r

def step : QueueEvent τ V → QueueRun τ V
  | .source value tag =>
    match newSource value tag r.context with
    | .ok h c => r.created h.id c
    | .error _ c => r.withContext c
  | .slot compute equals tag =>
    match slotWithEquals compute equals tag r.context with
    | .ok h c => r.created h.id c
    | .error _ c => r.withContext c
  | .effect run =>
    match newEffect (pure ()) run r.context with
    | .ok h c => (r.created h.id c).logged [.scheduled r.births]
    | .error _ c => r.withContext c
  | .schedule id force =>
    match r.context.nodes id with
    | some (.effect _) =>
      (r.withContext (r.context.scheduleEffect id force)).logged [.scheduled (r.birth id)]
    | _ => r
  | .makeLazy id => r.disposed (r.context.makeLazy id)
  | .disposeCell h => r.disposed (r.context.disposeCell h)
  | .disposeSlot h => r.disposed (r.context.disposeSlot h)
  | .disposeEffect h => r.disposed (r.context.disposeEffect h)
  | .setDrainBudget budget =>
    match setDrainBudget budget r.context with
    | .ok () c => r.withContext c
    | .error _ c => r.withContext c
  | .flush =>
    if r.context.flushingEffects then r
    else
      { r with
        context := { r.context with flushingEffects := true, drainRuns := fun _ => 0 }
        iterations := 0 }
  | .iterate => r.iterate
  | .unchanged =>
    match r.current with
    | some (_, birth) => { r.logged [.unchanged birth] with current := none }
    | none => r
  | .start => r.start

def run (events : List (QueueEvent τ V)) : QueueRun τ V := events.foldl step r

end QueueRun

/-! ## The roster of a context -/

namespace Context

def occupant (c : Context τ V) (i : SlotId) : Option Bool := (c.kindOf i).map (· == .effect)

def roster (c : Context τ V) : Roster :=
  ⟨c.nextId, c.freeIds, [], c.occupant, c.scheduledEffects, c.pendingEffects, c.flushingEffects⟩

end Context

def QueueRun.tasks (r : QueueRun τ V) : TaskRun :=
  ⟨r.context.roster, r.births, r.birth, r.current, r.log⟩

/-! ## The operations of a context on its roster -/

namespace Context

section Roster

variable {c c' : Context τ V} {id : SlotId} {e : EffectNode τ V} {n : Node τ V}

def shelf (c : Context τ V) : Nat × List SlotId × (SlotId → Bool) × List SlotId × Bool :=
  (c.nextId, c.freeIds, c.scheduledEffects, c.pendingEffects, c.flushingEffects)

theorem roster_congr (hkind : c'.occupant = c.occupant) (hshelf : c'.shelf = c.shelf) :
    c'.roster = c.roster := by
  simp only [shelf, Prod.mk.injEq] at hshelf
  obtain ⟨hnext, hfree, hsched, hpend, hflush⟩ := hshelf
  rw [roster, roster, hnext, hfree, hkind, hsched, hpend, hflush]

theorem occupant_congr (h : c'.kindOf = c.kindOf) : c'.occupant = c.occupant :=
  funext fun i => congrArg (·.map (· == Kind.effect)) (congrFun h i)

theorem occupant_setNode (id : SlotId) (n : Option (Node τ V)) : (c.setNode id n).occupant =
    update c.occupant id (n.map (·.kind == .effect)) := by
  funext i
  by_cases hi : i = id
  · subst hi
    cases n <;> simp [occupant, kindOf]
  · simp [occupant, kindOf, setNode_ne c hi, hi]

theorem occupant_eq_effect (h : c.nodes id = some (.effect e)) : c.occupant id = some true := by
  simp [occupant, kindOf_effect.2 ⟨e, h⟩]

theorem occupant_effect_iff : c.occupant id = some true ↔ ∃ e, c.nodes id = some (.effect e) := by
  cases hn : c.nodes id with
  | none => simp [occupant, kindOf, hn]
  | some n => cases n <;> simp [occupant, kindOf, hn, Node.kind]

theorem alive_eq_occupant (i : SlotId) : c.alive i = (c.occupant i).isSome := by
  simp [alive, occupant, kindOf]

theorem SameKinds.roster (h : SameKinds c c') : c'.roster = c.roster :=
  roster_congr (occupant_congr h.kind) (congrArg shelf h.bare :)

theorem roster_setNode (id : SlotId) (n : Option (Node τ V)) : (c.setNode id n).roster =
    { c.roster with
      occupant := update c.roster.occupant id (n.map (·.kind == .effect)) } := by
  rw [roster, occupant_setNode]
  rfl

theorem roster_retireId (id : SlotId) : (c.retireId id).roster =
    { c.roster with freeIds := id :: c.roster.freeIds } := rfl

theorem roster_descheduleEffect (id : SlotId) : (c.descheduleEffect id).roster =
    c.roster.unschedule id c.pendingEffects := by
  have hsched : (c.descheduleEffect id).scheduledEffects =
      update c.scheduledEffects id false := by
    funext i
    simp [descheduleEffect, update_apply]
  rw [roster, hsched]
  rfl

theorem roster_runCleanup (cleanup : Option Nat) : (c.runCleanup cleanup).roster = c.roster := by
  cases cleanup <;> rfl

theorem roster_tearDown (hn : c.nodes id = some n) (hkind : n.kind ≠ .effect) :
    (c.tearDown id n).roster = c.roster.retire id := by
  have hocc : c.roster.occupant id ≠ some true := by
    simp [roster, occupant, kindOf, hn, hkind]
  obtain ⟨c', hsame, htear⟩ := sameKinds_tearDown c id n
  rw [htear, roster_retireId, hsame.roster, roster_setNode]
  simp [retire, hocc]

theorem retires_disposeEffect (c : Context τ V) (h : Effect) :
    Roster.Retires c.roster (c.disposeEffect h).roster := by
  unfold disposeEffect
  split
  · split
    · rename_i e he
      have hocc : c.roster.occupant h.id = some true := occupant_eq_effect he
      have hlive : c.roster.occupant h.id ≠ none := by rw [hocc]; exact Option.some_ne_none _
      have hedges := (relists_removeDependentEdges ((c.descheduleEffect h.id).setNode h.id none)
        h.id e.dependencies).sameKinds.roster
      have hroster : c.roster.retire h.id =
          { (c.roster.unschedule h.id c.pendingEffects) with
            freeIds := h.id :: c.roster.freeIds
            occupant := update c.roster.occupant h.id none } := by
        rw [retire, if_pos hocc]
        rfl
      refine .head hlive ?_
      rw [roster_runCleanup, roster_retireId, hedges, roster_setNode, roster_descheduleEffect,
        hroster]
      exact .refl _
    · exact .refl _
  · exact .refl _

theorem retires_makeLazy (c : Context τ V) (id : SlotId) :
    Roster.Retires c.roster (c.makeLazy id).roster := by
  unfold makeLazy
  split
  · rename_i s hs
    split
    · have hlazy : ({ c.setNode id (some (.computed { s with eager := false })) with
          eagerBy := fun i => if i = id then none else c.eagerBy i } : Context τ V).roster =
          c.roster := by
        refine roster_congr ((occupant_setNode id _).trans ?_) rfl
        exact update_eq_self_iff.2 (by simp [occupant, kindOf, hs, Node.kind])
      cases c.eagerBy id with
      | none =>
        rw [← hlazy]
        exact .refl _
      | some effect =>
        rw [← hlazy]
        exact retires_disposeEffect _ effect
    · exact .refl _
  · exact .refl _

theorem retires_tearDown (hn : c.nodes id = some n) (hkind : n.kind ≠ .effect) :
    Roster.Retires c.roster (c.tearDown id n).roster := by
  rw [roster_tearDown hn hkind]
  exact .head (by simp [roster, occupant, kindOf, hn]) (.refl _)

theorem retires_disposeSlot (c : Context τ V) (h : Computed τ) :
    Roster.Retires c.roster (c.disposeSlot h).roster := by
  unfold disposeSlot
  split
  · refine (retires_makeLazy c h.id).trans ?_
    unfold takeSlot
    split
    · split
      · exact retires_tearDown ‹_› (by simp [Node.kind])
      · exact .refl _
    · exact .refl _
  · exact .refl _

theorem retires_disposeCell (c : Context τ V) (h : Source τ) :
    Roster.Retires c.roster (c.disposeCell h).roster := by
  unfold disposeCell
  split
  · split
    · exact retires_tearDown ‹_› (by simp [Node.kind])
    · exact .refl _
  · exact .refl _

theorem roster_scheduleEffect (he : c.nodes id = some (.effect e))
    (force : Bool) : (c.scheduleEffect id force).roster = c.roster.schedule id := by
  have hocc : ∀ n : EffectNode τ V, (c.setNode id (some (.effect n))).occupant = c.occupant :=
    fun n => by
      rw [occupant_setNode]
      exact update_eq_self_iff.2 (occupant_eq_effect he).symm
  unfold scheduleEffect
  rw [he]
  by_cases hs : c.scheduledEffects id = true
  · have hq : c.roster.schedule id = c.roster := if_pos hs
    simp only [setNode, hs]
    rw [hq]
    exact roster_congr (hocc _) rfl
  · have hq : c.roster.schedule id = { c.roster with
        scheduled := update c.roster.scheduled id true
        pending := c.pendingEffects ++ [id] } := if_neg hs
    have hflags : (fun i => if i = id then true else c.scheduledEffects i) =
        update c.scheduledEffects id true := by
      funext i
      simp [update_apply]
    have hnode := roster_congr (hocc { e with forceRun := e.forceRun || force }) rfl
    simp only [setNode, hs, hflags]
    rw [hq, ← hnode]
    rfl

theorem roster_removePendingEffect (c : Context τ V) (id : SlotId) :
    (c.removePendingEffect id).roster = c.roster.unschedule id
      (if c.scheduledEffects id then c.pendingEffects.filter (· != id) else c.pendingEffects) := by
  unfold removePendingEffect
  split
  · exact congrArg (fun q => { q with pending := c.pendingEffects.filter (· != id) })
      (roster_descheduleEffect id)
  · rename_i hs
    have hoff : update c.roster.scheduled id false = c.roster.scheduled :=
      update_eq_self_iff.2 (by simpa [roster] using hs)
    rw [unschedule, hoff]
    rfl

theorem roster_startRun (c : Context τ V) (id : SlotId) (cleanup : Option Nat) :
    ((c.startRun id).runCleanup cleanup).roster = c.roster := by
  have hdetach : (c.detach id).roster = c.roster := (detach_rewires c id).sameKinds.roster
  rw [roster_runCleanup, startRun, modifyEffect]
  split
  · rename_i e he
    have hsame : ∀ n : EffectNode τ V, ((c.detach id).setNode id (some (.effect n))).roster =
        (c.detach id).roster := fun n => roster_congr
      ((occupant_setNode id _).trans (update_eq_self_iff.2 (occupant_eq_effect he).symm))
      rfl
    rw [hsame, hdetach]
  · exact hdetach

theorem fresh_eq (c : Context τ V) : c.allocId.1 = c.roster.fresh := by
  unfold allocId Roster.fresh roster
  cases c.freeIds <;> rfl

theorem roster_insert (n : Node τ V) : (c.allocId.2.setNode c.allocId.1 (some n)).roster =
    c.roster.alloc.insert c.roster.fresh (n.kind == .effect) := by
  rw [roster_setNode]
  unfold allocId Roster.insert Roster.alloc Roster.fresh roster
  cases c.freeIds <;> simp <;> rfl

theorem roster_newEffect (c : Context τ V) (run : EffectFn τ V) :
    ∃ (h : Effect) (c' : Context τ V), newEffect (pure ()) run c = .ok h c' ∧
      h.id = c.roster.fresh ∧
        c'.roster = (c.roster.alloc.insert c.roster.fresh true).schedule c.roster.fresh := by
  have hschedule : ∀ (c1 : Context τ V) (e : EffectNode τ V),
      c1.nodes c.allocId.1 = some (.effect e) →
      c1.roster = c.roster.alloc.insert c.roster.fresh true →
      (c1.scheduleEffect c.allocId.1 false).roster =
        (c.roster.alloc.insert c.roster.fresh true).schedule c.roster.fresh :=
    fun c1 e he hroster => by rw [roster_scheduleEffect he, hroster, fresh_eq]
  exact ⟨_, _, rfl, fresh_eq c, hschedule _ _ (setNode_same ..) (roster_insert _)⟩

theorem roster_popped (h : c.popScheduledEffect = (some id, c')) : c.scheduledEffects id = true ∧
      ∃ rest, c'.roster = c.roster.unschedule id rest ∧ c.roster.Leaves id rest := by
  obtain ⟨hs, rest, rfl, hrest⟩ := popped_some h
  exact ⟨hs, rest, congrArg (fun q => { q with pending := rest }) (roster_descheduleEffect _),
    hrest⟩

end Roster

end Context

/-! ## A run seen from outside -/

namespace QueueRun

open TaskRun (Step)

variable (r : QueueRun τ V)

theorem gone_eq (c : Context τ V) : r.gone c = r.tasks.gone c.roster := by
  unfold QueueRun.gone TaskRun.gone
  simp only [alive_eq_occupant, ← Option.not_isSome]
  rfl

theorem step_disposed {c : Context τ V} (h : r.context.roster.Retires c.roster) :
    Step True r.tasks (r.disposed c).tasks := by
  have hstep : Step True r.tasks { r.tasks with roster := c.roster, log := _ } := .retire h
  rw [← gone_eq] at hstep
  exact hstep

theorem steps_created {n : Node τ V} (hn : (n.kind == .effect) = false) :
    Relation.ReflTransGen (Step True) r.tasks (r.created r.context.allocId.1
      (r.context.allocId.2.setNode r.context.allocId.1 (some n))).tasks := by
  have hroster := roster_insert (c := r.context) n
  rw [hn, ← fresh_eq] at hroster
  have hid : r.context.allocId.1 ∈ r.context.roster.alloc.reserved :=
    fresh_eq r.context ▸ mem_cons_self
  have hinsert : Step True { r.tasks with roster := r.context.roster.alloc }
      (r.tasks.created r.context.allocId.1
        (r.context.allocId.2.setNode r.context.allocId.1 (some n)).roster r.log) :=
    hroster ▸ .insert hid fun _ => rfl
  exact .head (.alloc r.tasks) (.single hinsert)

theorem steps_iterate : Relation.ReflTransGen (Step True) r.tasks r.iterate.tasks := by
  unfold QueueRun.iterate
  split
  · rename_i hguard
    obtain ⟨hdrain, hcur⟩ := Bool.and_eq_true_iff.1 hguard
    have hcur : r.current = none := by simpa using hcur
    split
    · rename_i c hpop
      obtain ⟨rfl, hoff⟩ := popped_none hpop
      exact .single (.drained hcur hoff)
    · rename_i id c hpop
      obtain ⟨hs, rest, hc, hrest⟩ := roster_popped hpop
      simp only
      split
      · have hstep : Step True r.tasks { r.tasks with
            roster := { c.roster with draining := false }
            log := r.log ++ [.popped (r.birth id), .dropped (r.birth id)] } :=
          hc ▸ .exhaust hdrain hcur hs hrest
        exact .single hstep
      · have hstep : Step True r.tasks { r.tasks with
            roster := c.roster
            current := some (id, r.birth id)
            log := r.log ++ [.popped (r.birth id)] } := hc ▸ .pop hdrain hcur hs hrest
        exact .single hstep
  · exact .refl

theorem steps_start : Relation.ReflTransGen (Step True) r.tasks r.start.tasks := by
  unfold QueueRun.start
  split
  · rename_i id b hcur
    split
    · rename_i e he
      have hroster := (roster_startRun (r.context.removePendingEffect id) id e.cleanup).trans
        (roster_removePendingEffect r.context id)
      refine .single ?_
      have hstep : Step True r.tasks { r.tasks with
          roster := (((r.context.removePendingEffect id).startRun id).runCleanup e.cleanup).roster
          current := none
          log := r.log ++ [.started (r.birth id)] } := by
        refine hroster ▸ .start hcur (occupant_eq_effect he) fun i hi hs hne => ?_
        split
        · exact mem_filter.2 ⟨hi, by simpa using hne⟩
        · exact hi
      exact hstep
    · rename_i hn
      refine .single (.pass hcur fun hocc => ?_)
      obtain ⟨e, he⟩ := occupant_effect_iff.1 hocc
      exact hn e he
  · exact .refl

theorem steps_step (e : QueueEvent τ V) :
    Relation.ReflTransGen (Step True) r.tasks (r.step e).tasks := by
  cases e with
  | source value tag =>
    exact r.steps_created rfl
  | slot compute equals tag => exact r.steps_created rfl
  | effect run =>
    obtain ⟨h, c, hrun, hid, hroster⟩ := roster_newEffect r.context run
    simp only [QueueRun.step, hrun, hid]
    have hinsert : Step True { r.tasks with roster := r.context.roster.alloc }
        (r.tasks.created r.context.roster.fresh c.roster (r.log ++ [.scheduled r.births])) :=
      hroster ▸ .insertTask mem_cons_self
    exact .head (.alloc r.tasks) (.single hinsert)
  | schedule id force =>
    simp only [QueueRun.step]
    split
    · rename_i e he
      have hstep : Step True r.tasks { r.tasks with
          roster := (r.context.scheduleEffect id force).roster
          log := r.log ++ [.scheduled (r.birth id)] } :=
        roster_scheduleEffect he force ▸ .schedule (occupant_eq_effect he)
      exact .single hstep
    · exact .refl
  | makeLazy id => exact .single (r.step_disposed (retires_makeLazy r.context id))
  | disposeCell k => exact .single (r.step_disposed (retires_disposeCell r.context k))
  | disposeSlot k => exact .single (r.step_disposed (retires_disposeSlot r.context k))
  | disposeEffect k => exact .single (r.step_disposed (retires_disposeEffect r.context k))
  | setDrainBudget budget =>
    simp only [QueueRun.step, setDrainBudget]
    by_cases hb : 0 < budget
    · simp only [hb]
      exact .refl
    · simp only [hb]
      exact .refl
  | flush =>
    simp only [QueueRun.step]
    split
    · exact .refl
    · exact .single (.flush r.tasks)
  | iterate => exact r.steps_iterate
  | unchanged =>
    simp only [QueueRun.step]
    split
    · exact .single (.unchanged ‹_›)
    · exact .refl
  | start => exact r.steps_start

end QueueRun

/-!
## Exactness of the effect queue

An episode of an effect begins when it is scheduled while it is not (`awaiting`). The flag of a slot
says whether an episode of its occupant is open (`TaskRun.Inv`), so whatever the queue holds, a pop
takes an effect that was scheduled and has not been disposed since. An episode ends by a pop, by the
disposal of the effect, or by the start of a run of it: a recompute inside `effect_should_run`
schedules the very effect that is about to run, and `remove_pending_effect` takes that entry off the
queue. So the number of pops is the number of episodes less these (`QueueRun.episodes_end_once`).
-/

namespace QueueRun

theorem run_inv (revisionMode : Bool) (events : List (QueueEvent τ V)) :
    ((new revisionMode : QueueRun τ V).run events).tasks.Inv True := by
  refine foldl_invariant (I := fun r : QueueRun τ V => r.tasks.Inv True) (.empty True)
    fun r e h => h.steps (r.steps_step e)

/-! ## Episodes -/

/-- The episodes of an effect, by how they ended. -/
def episodes (log : List QueueEntry) (b : Nat) : Tally QueueEntry :=
  tally (.scheduled b) [.popped b, .started b, .disposed b] log

/-- The next iteration of the drain finds the queue empty. -/
def Drained (r : QueueRun τ V) : Prop := r.context.popScheduledEffect.1 = none

/-- What the queue promises. -/
structure QueueExact (r : QueueRun τ V) : Prop where
  /-- A popped effect was scheduled, and not disposed since. -/
  popped : ∀ before b, before ++ [.popped b] <+: r.log → awaiting before b = true
  /-- Each episode ends once: by a pop, a run or the disposal of the effect. -/
  once : ∀ b, (episodes r.log b).opened = r.log.count (.popped b) +
    (episodes r.log b).closed (.started b) + (episodes r.log b).closed (.disposed b) +
      (awaiting r.log b).toNat
  /-- A drain that comes to its end leaves none open. -/
  drained : r.Drained → ∀ b, awaiting r.log b = false
  /-- And it does, unless effects are scheduled faster than it pops them. -/
  shortens : ¬ r.Drained → r.context.popScheduledEffect.2.pendingEffects.length <
    r.context.pendingEffects.length
  /-- A run is of an effect that was itself scheduled, and not run or disposed since. -/
  started : ∀ before b, before ++ [.started b] <+: r.log → owed before b = true

theorem pendingEffects_shortens {r : QueueRun τ V} (h : ¬ r.Drained) :
    r.context.popScheduledEffect.2.pendingEffects.length < r.context.pendingEffects.length := by
  unfold Drained popScheduledEffect at h
  unfold popScheduledEffect
  split at h
  · rename_i hpop
    exact popQueue_length hpop
  · exact absurd rfl h

theorem queueExact_of_inv {r : QueueRun τ V} (h : r.tasks.Inv True) : r.QueueExact := by
  refine ⟨h.history.popped, fun b => ?_, fun hd => h.closed (popped_none (Prod.ext hd rfl)).2,
    pendingEffects_shortens, h.history.started trivial⟩
  have hcount : (episodes r.log b).closed (.popped b) = r.log.count (.popped b) :=
    Tally.closed_eq_count (by simp) (by simp) fun before hbefore =>
      h.history.popped before b hbefore
  have hbalance : (episodes r.log b).opened =
      ([.popped b, .started b, .disposed b].map (episodes r.log b).closed).sum +
        (awaiting r.log b).toNat := Tally.balance (by simp) r.log
  rw [hbalance, ← hcount]
  simp [Nat.add_assoc]

theorem episodes_end_once (revisionMode : Bool) (events : List (QueueEvent τ V)) :
    ((new revisionMode : QueueRun τ V).run events).QueueExact :=
  queueExact_of_inv (run_inv revisionMode events)

/-- An effect runs; it is scheduled, popped, and scheduled again before its run starts. -/
def rescheduled : List (QueueEvent Unit Nat) :=
  [.effect (.done none []), .flush, .iterate, .start, .iterate,
    .schedule 0 false, .flush, .iterate, .schedule 0 true, .start, .iterate]

/-- The third episode ends without a pop. -/
theorem pops_fewer_than_episodes : ¬ ∀ (events : List (QueueEvent Unit Nat)) (b : Nat),
    .disposed b ∉ ((new false).run events).log →
    awaiting ((new false).run events).log b = false →
    (episodes ((new false).run events).log b).opened =
      ((new false).run events).log.count (.popped b) := by
  intro h
  have hpops := h rescheduled 0 (by decide +kernel) (by decide +kernel)
  revert hpops
  decide +kernel

end QueueRun

end Lazily
