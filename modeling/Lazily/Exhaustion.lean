import Lazily.Context.Queue
import Lazily.ThreadSafe.Queue

/-!
# Drains that are cut short

Both contexts bound a drain by a budget of iterations, and both check the bound between the pop of
an effect and its run. The effect at the head of the queue is dropped by the iteration that spends
the budget: it was scheduled, has not run, and is in the queue no more, although the worklist is
said to be left as it is (`exhausted_drain_drops_popped`). So is, on threads, an effect whose
dependencies panic while the drain looks at them. No other effect is
(`exhausted_drains_keep_others`).
-/

namespace Lazily

open Lib List

variable {τ V : Type}

namespace QueueRun

variable (r : QueueRun τ V) (b : Nat)

/-- The event is an iteration that spends the budget of its drain, and `b` is at the head of the
queue. -/
def cuts : QueueEvent τ V → Bool
  | .iterate => r.context.flushingEffects && r.current.isNone &&
    decide (r.context.drainBudget ≤ r.iterations + 1) &&
    (r.context.pendingEffects.find? r.context.scheduledEffects).map r.birth == some b
  | _ => false

def schedules : QueueEvent τ V → Bool
  | .effect _ => decide (r.births = b)
  | .schedule id _ => r.context.kindOf id == some .effect && decide (r.birth id = b)
  | _ => false

/-- Since `b` was last scheduled, it was at the head of the queue of a drain that was cut. -/
def cutSince (events : List (QueueEvent τ V)) : Bool :=
  sinceStep step (·.cuts b) (·.schedules b) false r events

variable {r b}

theorem lost_disposed {c : Context τ V} : lost (r.disposed c).log b = lost r.log b :=
  since_append_frame fun e he => by
    obtain ⟨i, -, rfl⟩ := mem_map.1 he
    simp

theorem lost_iterate : lost r.iterate.log b = (r.cuts b .iterate || lost r.log b) := by
  unfold iterate cuts
  cases hguard : r.context.flushingEffects && r.current.isNone with
  | false => simp
  | true =>
    rw [← fst_popQueue, Context.popScheduledEffect]
    cases popQueue r.context.scheduledEffects r.context.pendingEffects with
    | none => simp [withContext]
    | some popped =>
      obtain ⟨id, rest⟩ := popped
      have hbudget : (Context.countRun { r.context.descheduleEffect id with
          pendingEffects := rest } id).drainBudget = r.context.drainBudget := rfl
      simp only [hbudget, if_true]
      split
      · simp [logged, withContext, lost_dropped, *]
      · simp [*]

theorem lost_step (r : QueueRun τ V) (e : QueueEvent τ V) : lost (r.step e).log b =
    (r.cuts b e || !r.schedules b e && lost r.log b) := by
  cases e with
  | iterate => exact lost_iterate
  | effect run =>
    obtain ⟨h, c, hrun, -⟩ := Context.roster_newEffect r.context run
    simp [step, hrun, logged, created, cuts, schedules]
  | schedule id force =>
    cases hn : r.context.nodes id with
    | none => simp [step, cuts, schedules, Context.kindOf, hn]
    | some n => cases n <;> simp [step, cuts, schedules, Context.kindOf, hn, Node.kind, logged,
        withContext]
  | source value tag | slot compute equals tag => rfl
  | makeLazy id | disposeCell h | disposeSlot h | disposeEffect h => exact lost_disposed
  | setDrainBudget budget =>
    by_cases hb : 0 < budget <;> simp [step, setDrainBudget, hb, cuts, schedules, withContext]
  | flush | unchanged | start =>
    simp only [step, start, cuts, schedules]
    repeat' split
    all_goals simp [logged]

theorem lost_run (revisionMode : Bool) (events : List (QueueEvent τ V)) (b : Nat) :
    lost ((new revisionMode).run events).log b = (new revisionMode).cutSince b events :=
  eq_sinceStep (fun r : QueueRun τ V => lost r.log b) lost_step events _

end QueueRun

namespace ThreadSafe.QueueRun

variable (r : QueueRun V) (b : Nat)

/-- The event is an iteration that spends the budget of its drain with `b` at the head of the queue,
or a panic that leaves the drain when `b` is popped and not yet considered. -/
def cuts : QueueEvent V → Bool
  | .iterate => r.session.state.flushing.isSome && r.current.isNone &&
    decide (r.budget ≤ r.iterations + 1) &&
    (r.session.state.pendingEffects.find? r.session.state.scheduledEffects).map r.session.birth ==
      some b
  | .unwind => r.session.state.flushing.isSome && r.abandons == some b
  | _ => false

def schedules : QueueEvent V → Bool
  | .schedule id _ => (r.session.state.effect id).isSome && decide (r.session.birth id = b)
  | _ => false

def cutSince (events : List (QueueEvent V)) : Bool :=
  sinceStep step (·.cuts b) (·.schedules b) false r events

variable {r b}

theorem lost_disposed {s : Session V} : lost (r.disposed s).log b = lost r.log b :=
  since_append_frame fun e he => by
    obtain ⟨i, -, rfl⟩ := mem_map.1 he
    simp

theorem lost_iterate : lost r.iterate.log b = (r.cuts b .iterate || lost r.log b) := by
  unfold iterate cuts
  cases hguard : r.session.state.flushing.isSome && r.current.isNone with
  | false => simp
  | true =>
    rw [← fst_popQueue, State.popScheduledEffect]
    cases popQueue r.session.state.scheduledEffects r.session.state.pendingEffects with
    | none => simp [withState, withSession]
    | some popped =>
      simp only [if_true]
      split
      · simp [logged, withState, withSession, lost_dropped, *]
      · simp [*]

theorem lost_unwind : lost r.unwind.log b = (r.cuts b .unwind || lost r.log b) := by
  unfold unwind cuts
  cases hflush : r.session.state.flushing.isSome with
  | false => simp
  | true =>
    cases ha : r.abandons with
    | none => simp [dropped, ha]
    | some x => by_cases hx : x = b <;> simp [dropped, ha, hx]

theorem lost_step (r : QueueRun V) (e : QueueEvent V) : lost (r.step e).log b =
    (r.cuts b e || !r.schedules b e && lost r.log b) := by
  cases e with
  | iterate => exact lost_iterate
  | unwind => exact lost_unwind
  | schedule id force =>
    cases he : r.session.state.effect id <;>
      simp [step, cuts, schedules, he, logged, withState, withSession]
  | alloc | insert id node | insertEffect id => rfl
  | disposeSlot id generation | disposeCell id generation | disposeEffect id generation =>
    exact lost_disposed
  | setDrainBudget budget =>
    by_cases hb : 0 < budget <;> simp [step, hb, cuts, schedules, withState, withSession]
  | flush thread | unchanged | start =>
    simp only [step, start, cuts, schedules]
    repeat' split
    all_goals simp [logged, withState, withSession]

theorem lost_run (events : List (QueueEvent V)) (b : Nat) :
    lost ((new : QueueRun V).run events).log b = new.cutSince b events :=
  eq_sinceStep (fun r : QueueRun V => lost r.log b) lost_step events _

end ThreadSafe.QueueRun

/-- Between drains, an effect that was scheduled and has neither run nor been found unchanged since
is in the queue iff no drain was cut since then with the effect at its head. In particular when a
drain has just stopped at its budget; and when one has ended with an empty queue every other effect
was considered. -/
theorem exhausted_drains_keep_others :
    (∀ (revisionMode : Bool) (events : List (QueueEvent τ V)) (b : Nat),
      ((QueueRun.new revisionMode).run events).context.flushingEffects = false →
      unsettled ((QueueRun.new revisionMode).run events).log b = true →
      (((QueueRun.new revisionMode).run events).tasks.Pending b ↔
        (QueueRun.new revisionMode).cutSince b events = false)) ∧
    ∀ (events : List (ThreadSafe.QueueEvent V)) (b : Nat),
      (ThreadSafe.QueueRun.new.run events).session.state.flushing = none →
      unsettled (ThreadSafe.QueueRun.new.run events).log b = true →
      ((ThreadSafe.QueueRun.new.run events).tasks.Pending b ↔
        ThreadSafe.QueueRun.new.cutSince b events = false) := by
  constructor
  · intro revisionMode events b hoff hb
    rw [← QueueRun.lost_run]
    exact (QueueRun.run_inv revisionMode events).pending_iff hoff hb
  · intro events b hoff hb
    have hdraining : (ThreadSafe.QueueRun.new.run events).tasks.roster.draining = false :=
      Option.isSome_eq_false_iff.2 (Option.isNone_iff_eq_none.2 hoff)
    rw [← ThreadSafe.QueueRun.lost_run]
    exact (ThreadSafe.QueueRun.run_inv events).pending_iff hdraining hb

/-- An effect under a budget of two that reads a source. Its first run creates another effect and
writes the source, so it is scheduled again; the new effect is popped by the iteration that stops
the drain. -/
def cutEvents : List (QueueEvent Unit Nat) :=
  [.setDrainBudget 2, .source 0 (), .effect (.done none []), .flush, .iterate, .start,
    .effect (.done none []), .schedule 1 true, .iterate]

/-- Two threads create an effect each, and one of them drains; its effect is scheduled again. -/
def cutSections : List (ThreadSafe.QueueEvent Nat) :=
  [.setDrainBudget 2, .alloc, .alloc, .insertEffect 1, .insertEffect 0, .schedule 0 false,
    .schedule 1 false, .flush 0, .iterate, .start, .schedule 0 true, .iterate]

theorem exhausted_drains_keep_others_cut : ((QueueRun.new false).run cutEvents).tasks.Pending 1 ∧
      ¬ ((QueueRun.new false).run cutEvents).tasks.Pending 2 ∧
      (ThreadSafe.QueueRun.new.run cutSections).tasks.Pending 1 ∧
      ¬ (ThreadSafe.QueueRun.new.run cutSections).tasks.Pending 0 := by
  obtain ⟨hcontext, hthreads⟩ := exhausted_drains_keep_others (τ := Unit) (V := Nat)
  refine ⟨(hcontext false cutEvents 1 (by decide +kernel) (by decide +kernel)).2
      (by decide +kernel), fun hpending => ?_,
    (hthreads cutSections 1 (by decide +kernel) (by decide +kernel)).2 (by decide +kernel),
    fun hpending => ?_⟩
  · have hcut := (hcontext false cutEvents 2 (by decide +kernel) (by decide +kernel)).1 hpending
    revert hcut
    decide +kernel
  · have hcut := (hthreads cutSections 0 (by decide +kernel) (by decide +kernel)).1 hpending
    revert hcut
    decide +kernel

/-- The second effect is scheduled and has not run, and the drain that stopped has dropped it. -/
theorem exhausted_drain_drops_popped : ¬ ∀ (events : List (QueueEvent Unit Nat)) (b : Nat),
    ((QueueRun.new false).run events).context.flushingEffects = false →
    ((QueueRun.new false).run events).context.lastDrainExhaustion ≠ none →
    unsettled ((QueueRun.new false).run events).log b = true →
    ((QueueRun.new false).run events).tasks.Pending b := by
  intro h
  have hpending := h cutEvents 2 (by decide +kernel) (by decide +kernel) (by decide +kernel)
  have hlost := ((QueueRun.run_inv false cutEvents).pending_iff (by decide +kernel)
    (by decide +kernel)).1 hpending
  revert hlost
  decide +kernel

end Lazily
