import Lazily.Context.Proof.Create

/-!
# The drain keeps the invariants

An effect closure keeps `Sound` at each of its steps (`runBody_spec`), the drain takes one effect
off the queue after another (`drainLoop_spec`), and when it ends by itself the queue is empty:
`flushEffects_spec` and `flushEffects_drains`.
-/

namespace Lazily

open Lib Context Unwind List

variable {τ V : Type}

namespace Context

/-! ## The queue -/

variable {scheduled : SlotId → Bool} {e : EffectNode τ V}

section Queue

variable {R : EffectFn τ V → Prop} {D : SlotId → Prop} {out out' : SlotId → SlotId → Prop}
  {c c' : Context τ V} {x : SlotId}

theorem SoundUpTo.unscheduled {pending : List SlotId} (h : SoundUpTo R D out c)
    (hout : ∀ d, out x d)
    (hc' : c' = { c with scheduledEffects := scheduled, pendingEffects := pending })
    (hsched : ∀ i, i ≠ x → scheduled i = c.scheduledEffects i) (hx : scheduled x = false)
    (hpend : ∀ i ∈ c.pendingEffects, c.scheduledEffects i = true → i ≠ x → i ∈ pending) :
    SoundUpTo R D out c' := by
  have hsame : SameCells c c' := by
    rw [hc']
    exact sameCells_of_nodes rfl rfl rfl rfl
  have hs' : c'.scheduledEffects = scheduled := by rw [hc']
  have hnodes : c'.nodes = c.nodes := by rw [hc']
  have hq : Queued c' := fun i hi => by
    have hix : i ≠ x := fun hix => by
      rw [hs', hix, hx] at hi
      cases hi
    rw [hs', hsched i hix] at hi
    obtain ⟨hp, he⟩ := h.queued i hi
    rw [hnodes]
    refine ⟨?_, he⟩
    rw [hc']
    exact hpend i hp hi hix
  refine ⟨h.toRegular.congr hnodes ?_ ?_ ?_ ?_ hq, h.coherent.sameCells hsame,
    fun hn i e d hi he => ?_⟩
  · rw [hc']
  · rw [hc']
  · rw [hc']
  · rw [hc']
  · have hix : i ≠ x := fun hix => hi (hix ▸ hout d)
    refine (h.watched (by rw [hc'] at hn; exact hn) i e d hi (hnodes ▸ he)).sameCells hsame ?_
    rw [hs', hsched i hix]

theorem removePendingEffect_sound (h : Sound R out c) (hout : ∀ d, out x d) :
    Sound R out (c.removePendingEffect x) ∧ (c.removePendingEffect x).scheduledEffects x = false ∧
      Frame c (c.removePendingEffect x) := by
  unfold removePendingEffect
  split
  · refine ⟨h.unscheduled hout rfl (fun i hi => if_neg hi) (if_pos rfl) fun i hi _ hix => ?_,
      if_pos rfl, .of_frame rfl fun _ h => h⟩
    exact mem_filter.2 ⟨hi, by simpa using hix⟩
  · rename_i hs
    exact ⟨h, by simpa using hs, .refl c⟩

def Popped (x d : SlotId) (c : Context τ V) : Prop :=
  c.lastDrainExhaustion = none → ∀ e, c.nodes x = some (.effect e) →
    (c.revisionMode = true → e.forceRun = true) ∧
      (e.forceRun = false → 0 < e.runs ∧
        (c.revisionMode = false → d ∈ e.dependencies → ObservedHold (pendingWrites c) c e d))

/-- A pop that takes `x`. -/
theorem popped_some (hpop : c.popScheduledEffect = (some x, c')) : c.scheduledEffects x = true ∧
    ∃ rest, c' = { c.descheduleEffect x with pendingEffects := rest } ∧
      ∀ i ∈ c.pendingEffects, c.scheduledEffects i = true → i ≠ x → i ∈ rest := by
  unfold popScheduledEffect at hpop
  split at hpop
  · rename_i id rest hq
    cases hpop
    obtain ⟨hx, hrest⟩ := popQueue_some hq
    exact ⟨hx, rest, rfl, hrest⟩
  · cases hpop

theorem popped_none (hpop : c.popScheduledEffect = (none, c')) :
    c' = { c with pendingEffects := [] } ∧
      ∀ i ∈ c.pendingEffects, c.scheduledEffects i = false := by
  unfold popScheduledEffect at hpop
  split at hpop
  · cases hpop
  · rename_i hq
    cases hpop
    exact ⟨rfl, popQueue_none hq⟩

theorem popScheduledEffect_some (h : Sound R out c) (hpop : c.popScheduledEffect = (some x, c')) :
    Sound R (fun i d => out i d ∨ i = x) c' ∧ (∀ d, ¬ out x d → Popped x d c') ∧ Frame c c' := by
  obtain ⟨hx, rest, rfl, hrest⟩ := popped_some hpop
  refine ⟨(h.popped x).unscheduled (fun _ => .inr rfl) rfl (fun i hi => if_neg hi) (if_pos rfl)
    hrest, fun d hin hn e he => ?_, .of_frame rfl fun _ h => h⟩
  have hw := h.watched hn x e d hin he
  exact ⟨fun hm => hw.revision hm hx, fun hf => ⟨hw.ran hf, fun hm =>
    hw.observed hf fun hm' => by rw [show c.revisionMode = false from hm] at hm'; cases hm'⟩⟩

theorem popScheduledEffect_none (h : Sound R out c) (hpop : c.popScheduledEffect = (none, c')) :
    Sound R out c' ∧ Quiet c' ∧ Frame c c' := by
  obtain ⟨rfl, hq⟩ := popped_none hpop
  have hoff : ∀ i, c.scheduledEffects i = false := fun i => by
    by_contra hs
    rw [Bool.not_eq_false] at hs
    rw [hq i (h.queued i hs).1] at hs
    cases hs
  have hsame : SameCells c { c with pendingEffects := [] } := sameCells_of_nodes rfl rfl rfl rfl
  refine ⟨⟨h.toRegular.congr rfl rfl rfl rfl rfl fun i hi => ?_, h.coherent.sameCells hsame,
    fun hn i e d hi he => ?_⟩, fun _ => hoff, .of_frame rfl fun _ h => h⟩
  · exact absurd hi (by simp [hoff i])
  · exact (h.watched hn i e d hi he).sameCells hsame rfl

/-- A drain that is cut short: the effect invariant is no longer claimed. -/
theorem SoundUpTo.exhausted (h : SoundUpTo R D out c) (report : DrainExhaustion) :
    SoundUpTo R D out' { c with
      lastDrainExhaustion := some report
      flushingEffects := false } :=
  ⟨h.toRegular.congr rfl rfl rfl rfl rfl (h.queued.congr rfl rfl rfl),
    h.coherent.sameCells (sameCells_of_nodes rfl rfl rfl rfl), fun hn => by cases hn⟩

end Queue

/-! ## Bodies -/

section Body

variable {R : EffectFn τ V → Prop} {out : SlotId → SlotId → Prop} {c c' : Context τ V}
  {x : SlotId}

section

variable (h : RunObserved x c)
include h

/-- Steps of a running effect that change neither the values read so far nor the record of them. -/
theorem RunObserved.transport (hframe : Frame c c')
    (hval : ∀ i v, c.valueAt i = some v → c'.valueAt i = some v)
    (heff : ∀ e', c'.nodes x = some (.effect e') → e'.forceRun = false →
      ∃ e, c.nodes x = some (.effect e) ∧ e.forceRun = false ∧ e'.observed = e.observed) :
    RunObserved x c' := by
  refine ⟨hframe.moves.whole h.whole, fun hm hn e' he' hf d v hv => ?_⟩
  obtain ⟨e, he, hef, hobs⟩ := heff e' he' hf
  exact (h.hold (hframe.revisionMode ▸ hm) (hframe.exhaustion hn) e he hef d v
    (hobs ▸ hv)).imp_left (hval d v)

theorem RunObserved.push (hframe : Frame c c')
    (hmode : c.revisionMode = false) : RunObserved x c' := by
  refine ⟨hframe.moves.whole h.whole, fun hm => ?_⟩
  rw [hframe.revisionMode, hmode] at hm
  cases hm

theorem RunObserved.schedules {effects : List (SlotId × Bool)} (hsched : Schedules c c' effects)
    (hcollected : ∀ p ∈ effects, ∃ e, c.nodes p.1 = some (.effect e)) : RunObserved x c' := by
  refine h.transport (hsched.stirs hcollected).toFrame
    (fun i v hv => hsched.sameCells.valueAt ▸ hv) fun e' he' hf => ?_
  obtain ⟨e, he⟩ := (hsched.effect_iff x).1 ⟨e', he'⟩
  rw [hsched.effect x e he] at he'
  cases he'
  exact ⟨e, he, (Bool.or_eq_false_iff.1 hf).1, rfl⟩

theorem RunObserved.addNode {n : Node τ V} {all : List SlotId}
    (hnew : c.nodes c.newId = none) (hx : ∃ e, c.nodes x = some (.effect e))
    (hframe : Frame c c') (hc' : c' = c.addNode n all) : RunObserved x c' := by
  subst hc'
  refine h.transport hframe (fun i v => valueAt_addNode hnew) fun e' he' hf => ?_
  obtain ⟨e, he⟩ := hx
  rw [addNode_nodes hnew he] at he'
  cases he'
  exact ⟨_, he, hf, rfl⟩

theorem RunObserved.addEffect {all : List SlotId}
    (hnew : c.nodes c.newId = none) (hx : ∃ e, c.nodes x = some (.effect e))
    (hframe : Frame c (c.addNode (.effect e) all))
    (hc' : c' = (c.addNode (.effect e) all).scheduleEffect c.newId false) : RunObserved x c' := by
  have hadd : RunObserved x (c.addNode (.effect e) all) := h.addNode hnew hx hframe rfl
  rw [hc']
  refine hadd.schedules (scheduleEffect_schedules _ (c.newId, false)) fun p hp => ?_
  cases mem_singleton.1 hp
  exact ⟨e, addNode_same⟩

end

theorem flushNested_eq (h : flushNested c = .ok () c') : c' = c := by
  unfold flushNested at h
  split at h
  · cases h
    rfl
  · cases h

theorem flushNested_spec : FlushSpec R (flushNested : M τ V Unit) := fun hs h => by
  rw [flushNested_eq h]
  exact ⟨hs, .refl _⟩

/-- A batch that ends inside a running effect: in the revision engine nothing has been written. -/
theorem RunObserved.finishBatch (h : RunObserved x c) (hs : Sound R out c)
    (hrun : finishBatch flushNested c = .ok () c') : RunObserved x c' := by
  obtain ⟨hk, -⟩ := finishBatch_keeps flushNested_spec hs hrun
  cases hmode : c.revisionMode with
  | false =>
    have hclosed : RunObserved x { c with batchDepth := c.batchDepth - 1 } := ⟨h.whole, h.hold⟩
    exact hclosed.push hk.frame hmode
  | true =>
    unfold Lazily.finishBatch at hrun
    split at hrun
    · dsimp only at hrun
      split at hrun
      · rw [flushBatchedInvalidations, if_pos hmode, flushEffectsRevision] at hrun
        split at hrun
        · rename_i c2 hflush
          cases hrun
          have hb : RunObserved x { c with
            batchDepth := c.batchDepth - 1
            revision := c.revision + 1 } := ⟨h.whole, h.hold⟩
          have h2 : RunObserved x c2 := by
            rw [flushNested_eq hflush]
            refine hb.schedules (scheduleEffects_schedules _ _) fun p hp => ?_
            obtain ⟨i, hi, rfl⟩ := mem_map.1 hp
            exact effect_of_staleEffect (mem_filter.1 hi).2
          exact ⟨h2.whole, h2.hold⟩
        · cases hrun
      · cases hrun
        exact ⟨h.whole, h.hold⟩
    · cases hrun

/-- The contract of the steps of effect `x` while it runs. -/
structure BodyKeeps (R : EffectFn τ V → Prop) (out : SlotId → SlotId → Prop) (x : SlotId)
    (c c' : Context τ V) : Prop where
  sound : Sound R out c'
  frame : Frame c c'
  observed : RunObserved x c'

theorem BodyKeeps.trans {c1 : Context τ V} (h1 : BodyKeeps R out x c c1)
    (h2 : BodyKeeps R out x c1 c') : BodyKeeps R out x c c' :=
  ⟨h2.sound, h1.frame.trans h2.frame, h2.observed⟩

theorem batch_bodyKeeps {α : Type} {body : M τ V α} {a : α}
    (hbody : ∀ {c2}, body { c with batchDepth := c.batchDepth + 1 } = .ok a c2 →
      BodyKeeps R out x { c with batchDepth := c.batchDepth + 1 } c2)
    (hrun : batch flushNested body c = .ok a c') : BodyKeeps R out x c c' := by
  unfold batch at hrun
  split at hrun
  · rename_i a' c2 hb
    split at hrun
    · rename_i c3 hfin
      cases hrun
      have h2 := hbody hb
      obtain ⟨hk, hun⟩ := finishBatch_keeps flushNested_spec h2.sound hfin
      have hdepth : c2.batchDepth = c.batchDepth + 1 := h2.frame.depth
      have hback : c'.batchDepth = c.batchDepth := hk.frame.depth.trans (by simp [hdepth])
      refine ⟨hk.sound, ⟨hk.frame.revisionMode.trans h2.frame.revisionMode,
        hk.frame.flushing.trans h2.frame.flushing, hk.frame.budget.trans h2.frame.budget, hback,
        fun hn => h2.frame.exhaustion (hk.frame.exhaustion hn), fun h _ => hun (hback.trans h),
        h2.frame.moves.trans hk.frame.moves⟩, h2.observed.finishBatch h2.sound hfin⟩
    · cases hrun
  · split at hrun <;> cases hrun

variable [DecidableEq τ] [BEq V]

/-- An effect closure keeps the invariants; in the revision engine it must not write. -/
theorem runBody_spec [LawfulBEq V] [hR : EffectFn.Closed R] :
    ∀ {t : EffectFn τ V} {c c' : Context τ V} {r : Option Nat × List V},
    (∀ d, ¬ out x d) → Sound R out c → (∃ e, c.nodes x = some (.effect e)) → RunObserved x c →
    R t → runBody flushNested x t c = .ok r c' → BodyKeeps R out x c c'
  | .done cleanup result, c, c', r, hin, hs, _, hobs, _, hrun => by
    cases hrun
    exact ⟨hs, .refl c, hobs⟩
  | .get k next, c, c', r, hin, hs, ⟨e, he⟩, hobs, ht, hrun => by
    obtain ⟨v, c1, hv, hrun⟩ := bind_eq_ok.1 hrun
    obtain ⟨_, c2, hc2, hrun⟩ := bind_eq_ok.1 hrun
    cases hc2
    obtain ⟨hs2, hframe, hobs2⟩ := hs.effectRead hin he hobs hv
    have h2 : BodyKeeps R out x c (c1.observe x k.id v) := ⟨hs2, hframe, hobs2⟩
    exact h2.trans (runBody_spec hin hs2 (hframe.effect x e he) hobs2 (hR.get ht v) hrun)
  | .set k v next, c, c', r, hin, hs, ⟨e, he⟩, hobs, ht, hrun => by
    obtain ⟨_, c1, hset, hrun⟩ := bind_eq_ok.1 hrun
    have hk := setSource_keeps flushNested_spec hs hset
    have hmode : c.revisionMode = false := by
      cases hm : c.revisionMode with
      | false => rfl
      | true => exact absurd ht (hs.noWrites hm k v next)
    have h1 : BodyKeeps R out x c c1 := ⟨hk.sound, hk.frame, hobs.push hk.frame hmode⟩
    exact h1.trans (runBody_spec hin h1.sound (h1.frame.effect x e he) h1.observed (hR.set ht) hrun)
  | .batch body next, c, c', r, hin, hs, ⟨e, he⟩, hobs, ht, hrun => by
    obtain ⟨result, c1, hb, hrun⟩ := bind_eq_ok.1 hrun
    have h1 : BodyKeeps R out x c c1 := batch_bodyKeeps (fun hbody =>
      runBody_spec hin (beginBatch_sound hs) ⟨e, he⟩ ⟨hobs.whole, hobs.hold⟩ (hR.batch ht).1 hbody)
      hb
    exact h1.trans (runBody_spec hin h1.sound (h1.frame.effect x e he) h1.observed
      ((hR.batch ht).2 _) hrun)
  | .source v tag next, c, c', r, hin, hs, ⟨e, he⟩, hobs, ht, hrun => by
    obtain ⟨k, c1, hnew, hrun⟩ := bind_eq_ok.1 hrun
    obtain ⟨hc1, hs1, hframe⟩ := newSource_spec hs hnew
    have h1 : BodyKeeps R out x c c1 := ⟨hs1, hframe, hobs.addNode hs.newId ⟨e, he⟩ hframe hc1⟩
    exact h1.trans (runBody_spec hin h1.sound (h1.frame.effect x e he) h1.observed
      (hR.source ht k) hrun)
  | .computed compute tag next, c, c', r, hin, hs, ⟨e, he⟩, hobs, ht, hrun => by
    obtain ⟨k, c1, hnew, hrun⟩ := bind_eq_ok.1 hrun
    obtain ⟨⟨s, hc1⟩, hs1, hframe⟩ := slotWithEquals_spec hs
      (fun f hf old new h => by cases hf; exact eq_of_beq h) hnew
    have h1 : BodyKeeps R out x c c1 := ⟨hs1, hframe, hobs.addNode hs.newId ⟨e, he⟩ hframe hc1⟩
    exact h1.trans (runBody_spec hin h1.sound (h1.frame.effect x e he) h1.observed
      (hR.computed ht k) hrun)
  | .effect run next, c, c', r, hin, hs, ⟨e, he⟩, hobs, ht, hrun => by
    obtain ⟨k, c1, hnew, hrun⟩ := bind_eq_ok.1 hrun
    obtain ⟨en, c0, hc0, hadded, hs0, hframe, hflush⟩ := newEffect_spec hs (hR.effect ht).1 hnew
    cases flushNested_eq hflush
    have h1 : BodyKeeps R out x c c1 := ⟨hs0, hframe, hobs.addEffect hs.newId ⟨e, he⟩ hadded hc0⟩
    exact h1.trans (runBody_spec hin h1.sound (h1.frame.effect x e he) h1.observed
      ((hR.effect ht).2 k) hrun)

end Body

/-! ## One effect -/

section Run

variable {R : EffectFn τ V → Prop} {out : SlotId → SlotId → Prop} {c c' : Context τ V}
  {x : SlotId}

theorem detach_effect (he : c.nodes x = some (.effect e)) :
    (c.detach x).nodes x = some (.effect { e with dependencies := [] }) := by
  obtain ⟨m, hm, -⟩ := (detach_rewires c x).effect x e he
  have hnil : m = [] := by
    simpa [dependenciesOf_effect hm] using dependenciesOf_detach (c := c) x x
  rw [hm, hnil]

theorem startRun_sound (h : Sound R out c) (hout : ∀ d, out x d) (he : c.nodes x = some (.effect e))
    (hx : c.scheduledEffects x = false) :
    BodyKeeps R (fun i d => out i d ∧ i ≠ x) x c (c.startRun x) := by
  have hrew := detach_rewires c x
  have hc : Coherent (pendingWrites c) (c.detach x) := h.coherent.detach (untrusted_effect he)
  have hdet := h.rewires he hout hrew hc
  have hm := detach_effect he
  obtain ⟨e', he'⟩ : ∃ e' : EffectNode τ V, e' = { e with
    dependencies := [], cleanup := none, forceRun := false, observed := [], runs := e.runs + 1 } :=
      ⟨_, rfl⟩
  have hstart : c.startRun x = (c.detach x).setNode x (some (.effect e')) := by
    simp [startRun, modifyEffect, hm, he']
  have hsched : (c.detach x).scheduledEffects x = false := by
    rw [hrew.frame]
    exact hx
  rw [hstart]
  have hset : Sound R out ((c.detach x).setNode x (some (.effect e'))) :=
    hdet.setEffect hm hout (by rw [he']) (by rw [he'])
  have hempty : e'.observed = [] ∧ e'.dependencies = [] := by rw [he']; exact ⟨rfl, rfl⟩
  have hwhole : e'.Whole := fun p hp => by
    rw [hempty.1] at hp
    cases hp
  have hlater : e.Later e' := by
    refine ⟨.inl (by rw [he']; exact Nat.lt_succ_self _), fun _ => hwhole, fun _ d hd => ?_⟩
    rw [hempty.2] at hd
    cases hd
  refine ⟨hset.fill (fun hn e2 d _ he2 => ?_) fun _ _ hix ho => ⟨ho, hix⟩,
    (hrew.stirs.trans (stirs_setEffect hm (by rw [he']))).toFrame.fill he (setNode_same ..) hlater,
    fun e2 he2 => ?_, fun _ _ e2 he2 _ d => ?_⟩
  · rw [setNode_same] at he2
    cases he2
    refine ⟨fun hf => ?_, fun _ hd => ?_, fun _ _ hd => ?_, fun _ hs => ?_,
      fun _ => he' ▸ Nat.succ_pos _⟩
    · rw [he'] at hf
      cases hf
    · rw [he'] at hd
      cases hd
    · rw [he'] at hd
      cases hd
    · rw [show ((c.detach x).setNode x (some (.effect e'))).scheduledEffects x = false from hsched]
        at hs
      cases hs
  · rw [setNode_same] at he2
    cases he2
    exact hwhole
  · rw [setNode_same] at he2
    cases he2
    intro v hv
    rw [hempty.1] at hv
    cases hv

theorem storeCleanup_sound (h : Sound R out c) (cleanup : Option Nat) :
    Sound R out (c.storeCleanup x cleanup) ∧ Frame c (c.storeCleanup x cleanup) := by
  unfold storeCleanup
  split
  · rename_i e he
    have hsame : SameCells c (c.setNode x (some (.effect { e with cleanup := cleanup }))) :=
      sameCells_setEffect he rfl
    have hstirs : Stirs (· = x) c (c.setNode x (some (.effect { e with cleanup := cleanup }))) :=
      stirs_setEffect he rfl
    have hset : Sound R (fun i d => out i d ∨ i = x)
        (c.setNode x (some (.effect { e with cleanup := cleanup }))) :=
      (h.popped x).setEffect he (fun _ => .inr rfl) rfl rfl
    refine ⟨hset.back fun hn e2 d hin he2 => ?_,
      hstirs.toFrame.fill he (setNode_same ..) (.of_same rfl rfl rfl)⟩
    rw [setNode_same] at he2
    cases he2
    rw [hstirs.pendingWrites]
    have hw := (h.watched hn x e d hin he).sameCells hsame rfl
    exact ⟨hw.forced, hw.settled, hw.observed, hw.revision, hw.ran⟩
  · cases cleanup with
    | none => exact ⟨h, .refl c⟩
    | some token =>
      exact ⟨h.congr (fun _ hi => hi) rfl, .of_frame rfl fun _ h => h⟩

theorem runCleanup_keeps (h : BodyKeeps R out x c c') (cleanup : Option Nat) :
    BodyKeeps R out x c (c'.runCleanup cleanup) := by
  cases cleanup with
  | none => exact h
  | some token =>
    have hframe : Frame c' (c'.runCleanup (some token)) := .of_frame rfl fun _ h => h
    exact ⟨h.sound.congr (fun _ hi => hi) rfl,
      h.frame.trans hframe, ⟨h.observed.whole, h.observed.hold⟩⟩

theorem FrameBut.unflag (h : Frame c c') :
    Frame { c with flushingEffects := false } { c' with flushingEffects := false } :=
  ⟨h.revisionMode, rfl, h.budget, h.depth, h.exhaustion, h.unbatched, h.moves⟩

variable [DecidableEq τ]

theorem anyChanged_spec {D : SlotId → Prop} : ∀ {ds : List SlotId} {c c' : Context τ V} {b : Bool},
    Coherent D c → anyChanged ds c = .ok b c' →
    Coherent D c' ∧ Evolves none c c' ∧ (b = false → ∀ d ∈ ds, Readable c d → Grounded c' d)
  | [], c, c', b, hc, h => by
    rw [anyChanged, pure_eq_ok] at h
    obtain ⟨rfl, rfl⟩ := h
    exact ⟨hc, .refl _ c, by simp⟩
  | d :: ds, c, c', b, hc, h => by
    unfold anyChanged at h
    split at h
    · split at h
      · rename_i c1 h1
        cases h
        obtain ⟨hc1, he1, -⟩ := refresh_spec.spec hc h1
        exact ⟨hc1, he1, by simp⟩
      · rename_i c1 h1
        obtain ⟨hc1, he1, hg1, -⟩ := refresh_spec.spec hc h1
        obtain ⟨hc2, he2, hg⟩ := anyChanged_spec hc1 h
        refine ⟨hc2, he1.trans he2, fun hb d' hd' hread => ?_⟩
        rcases mem_cons.1 hd' with rfl | hd'
        · exact (he2.grounded _ (hg1 hread)).1
        · exact hg hb d' hd' (he1.readable hread)
      · cases h
    · rename_i hslot
      obtain ⟨hc1, he1, hg⟩ := anyChanged_spec hc h
      refine ⟨hc1, he1, fun hb d' hd' hread => ?_⟩
      rcases mem_cons.1 hd' with rfl | hd'
      · obtain ⟨s, hs⟩ | ⟨s, hs⟩ := hread
        · exact (he1.grounded _ (.source hs)).1
        · simp [isSlotNode, hs] at hslot
      · exact hg hb d' hd' hread

/-- An effect that does not have to run is current, or has been scheduled again. -/
theorem effectShouldRun_spec (h : Sound R (fun i d => out i d ∨ i = x) c)
    (hpop : ∀ d, ¬ out x d → Popped x d c) {b : Bool} (hrun : effectShouldRun x c = .ok b c') :
    Sound R (fun i d => out i d ∨ i = x) c' ∧ Frame c c' ∧ (b = false → Sound R out c') := by
  unfold effectShouldRun at hrun
  split at hrun
  · rename_i e he
    split at hrun
    · cases hrun
      exact ⟨h, .refl c, by simp⟩
    · rename_i hforce
      rw [Bool.not_eq_true] at hforce
      obtain ⟨hc', hev, hground⟩ := anyChanged_spec h.coherent hrun
      have hs' := h.evolves hev hc'
      refine ⟨hs', hev.frame', fun hb => hs'.back fun hn e' d hin he' => ?_⟩
      obtain ⟨hforced, hobs⟩ := hpop d hin (hev.frame'.exhaustion hn) e he
      have hmode : c.revisionMode = false := by
        by_contra hm
        rw [hforced (by simpa using hm)] at hforce
        cases hforce
      obtain ⟨f, hf, hmono, hnew⟩ := hev.effect x e he
      rw [hf] at he'
      cases he'
      refine ⟨fun hft => ?_, fun _ hd =>
        hground hb d hd (h.coherent.readable ((dependenciesOf_effect he).symm ▸ hd)),
        fun hff _ hd => ?_, fun hm => ?_, fun _ => (hobs hforce).1⟩
      · rcases hnew hft with hef | hs
        · rw [hforce] at hef
          cases hef
        · exact hs
      · rw [(hev.stirs : Stirs (fun _ => False) c c').pendingWrites]
        exact ((hobs hforce).2 hmode hd).evolves hmode he hd hev hf hff
      · rw [hev.revisionMode, hmode] at hm
        cases hm
  · rename_i hnot
    cases hrun
    exact ⟨h, .refl c, fun _ => h.back fun _ e _ _ he => absurd he (hnot e)⟩

variable [BEq V]

/-- The three ways `run_effect` returns: the effect is skipped, it is gone, or it has run. -/
theorem runEffect_cases (hrun : runEffect flushNested x c = .ok () c') :
    effectShouldRun x c = .ok false c' ∨ ∃ c1, effectShouldRun x c = .ok true c1 ∧
      ((∀ e, (c1.removePendingEffect x).nodes x ≠ some (.effect e)) ∧
          c' = c1.removePendingEffect x ∨
        ∃ e r c2, (c1.removePendingEffect x).nodes x = some (.effect e) ∧
          runBody flushNested x e.run
              (((c1.removePendingEffect x).startRun x).runCleanup e.cleanup) = .ok r c2 ∧
            c' = c2.storeCleanup x r.1) := by
  obtain ⟨b, c1, hb, hrun⟩ := bind_eq_ok.1 hrun
  cases b with
  | false =>
    cases hrun
    exact .inl hb
  | true =>
    obtain ⟨_, c2, hc2, hrun⟩ := bind_eq_ok.1 hrun
    obtain rfl := modify_eq_ok.1 hc2
    obtain ⟨c2, c2', hget, hrun⟩ := bind_eq_ok.1 hrun
    obtain ⟨rfl, rfl⟩ := get_eq_ok.1 hget
    refine .inr ⟨c1, hb, ?_⟩
    by_cases heff : ∃ e, (c1.removePendingEffect x).nodes x = some (.effect e)
    · obtain ⟨e, he⟩ := heff
      simp only [he] at hrun
      obtain ⟨_, c3, hc3, hrun⟩ := bind_eq_ok.1 hrun
      obtain rfl := modify_eq_ok.1 hc3
      obtain ⟨_, c4, hc4, hrun⟩ := bind_eq_ok.1 hrun
      obtain rfl := modify_eq_ok.1 hc4
      obtain ⟨r, c5, hbody, hrun⟩ := bind_eq_ok.1 hrun
      exact .inr ⟨e, r, c5, he, hbody, (modify_eq_ok.1 hrun).symm⟩
    · refine .inl ⟨fun e he => heff ⟨e, he⟩, ?_⟩
      cases hn : (c1.removePendingEffect x).nodes x with
      | none =>
        simp only [hn] at hrun
        exact (pure_eq_ok.1 hrun).2.symm
      | some n =>
        cases n with
        | effect e => exact absurd ⟨e, hn⟩ heff
        | source s =>
          simp only [hn] at hrun
          exact (pure_eq_ok.1 hrun).2.symm
        | computed s =>
          simp only [hn] at hrun
          exact (pure_eq_ok.1 hrun).2.symm

/-- The three ways a round of the drain ends: the queue is empty, the budget is spent, or an effect
is handled and the loop goes on. -/
theorem drainLoop_cases {fuel iterations : Nat}
    (hrun : drainLoop (runEffect flushNested) (fuel + 1) iterations c = .ok () c') :
    (∃ c1, c.popScheduledEffect = (none, c1) ∧ c' = { c1 with flushingEffects := false }) ∨
      ∃ x c1, c.popScheduledEffect = (some x, c1) ∧
        (c' = { c1.countRun x with
            lastDrainExhaustion := some ((c1.countRun x).drainExhaustionReport (iterations + 1))
            flushingEffects := false } ∨
          ¬ c1.drainBudget ≤ iterations + 1 ∧ ∃ c2,
            runEffect flushNested x (c1.countRun x) = .ok () c2 ∧
            drainLoop (runEffect flushNested) fuel (iterations + 1) c2 = .ok () c') := by
  unfold drainLoop at hrun
  split at hrun
  · rename_i c1 hpop
    cases hrun
    exact .inl ⟨c1, hpop, rfl⟩
  · rename_i x c1 hpop
    refine .inr ⟨x, c1, hpop, ?_⟩
    dsimp only at hrun
    split at hrun
    · cases hrun
      exact .inl rfl
    · rename_i hbudget
      split at hrun
      · rename_i c2 hstep
        exact .inr ⟨hbudget, c2, hstep, hrun⟩
      · cases hrun

theorem flushEffects_loop (hrun : flushEffects c = .ok () c') :
    c.flushingEffects = true ∧ c' = c ∨ c.flushingEffects = false ∧
      drainLoop (runEffect flushNested) (c.drainBudget + 1) 0
        { c with flushingEffects := true, drainRuns := fun _ => 0 } = .ok () c' := by
  unfold flushEffects at hrun
  split at hrun
  · rename_i hfl
    cases hrun
    exact .inl ⟨hfl, rfl⟩
  · rename_i hfl
    exact .inr ⟨by simpa using hfl, hrun⟩

variable [LawfulBEq V] [EffectFn.Closed R]

/-- The run itself, from the start of the effect to the cleanup it leaves. -/
theorem runBody_keeps (h : Sound R (fun i d => out i d ∨ i = x) c)
    (he : c.nodes x = some (.effect e)) (hx : c.scheduledEffects x = false)
    {r : Option Nat × List V}
    (hrun : runBody flushNested x e.run ((c.startRun x).runCleanup e.cleanup) = .ok r c') :
    Sound R out (c'.storeCleanup x r.1) ∧ Frame c (c'.storeCleanup x r.1) := by
  have hstart := runCleanup_keeps (startRun_sound h (fun _ => .inr rfl) he hx) e.cleanup
  have hbody := runBody_spec (fun _ hx => hx.2 rfl) hstart.sound (hstart.frame.effect x e he)
    hstart.observed (h.allowed x e he) hrun
  obtain ⟨hs, hframe⟩ := storeCleanup_sound hbody.sound r.1
  exact ⟨hs.leave fun i d hi => hi.1.resolve_right hi.2,
    (hstart.frame.trans hbody.frame).trans hframe⟩

/-- `run_effect` on an effect just taken off the queue. -/
theorem runEffect_spec (h : Sound R (fun i d => out i d ∨ i = x) c)
    (hpop : ∀ d, ¬ out x d → Popped x d c)
    (hrun : runEffect flushNested x c = .ok () c') : Sound R out c' ∧ Frame c c' := by
  obtain hb | ⟨c1, hb, hcase⟩ := runEffect_cases hrun
  · obtain ⟨-, hframe, hskip⟩ := effectShouldRun_spec h hpop hb
    exact ⟨hskip rfl, hframe⟩
  · obtain ⟨hs1, hframe1, -⟩ := effectShouldRun_spec h hpop hb
    obtain ⟨hs2, hoff, hframe2⟩ := removePendingEffect_sound hs1 (fun _ => .inr rfl)
    have hframe := hframe1.trans hframe2
    obtain ⟨hgone, rfl⟩ | ⟨e, r, c2, he, hbody, rfl⟩ := hcase
    · exact ⟨hs2.back fun _ e _ _ he => absurd he (hgone e), hframe⟩
    · obtain ⟨hs, hframe3⟩ := runBody_keeps hs2 he hoff hbody
      exact ⟨hs, hframe.trans hframe3⟩

/-! ## The drain -/

/-- The loop of the drain. What it leaves alone is stated from the context with the flushing flag
already taken back. -/
theorem drainLoop_spec : ∀ {fuel iterations : Nat} {c c' : Context τ V}, Sound R out c →
    drainLoop (runEffect flushNested) fuel iterations c = .ok () c' →
    Sound R out c' ∧ Quiet c' ∧ Frame { c with flushingEffects := false } c'
  | 0, _, _, _, _, hrun => by cases hrun
  | fuel + 1, iterations, c, c', h, hrun => by
    obtain ⟨c1, hpop, rfl⟩ | ⟨x, c1, hpop, hround⟩ := drainLoop_cases hrun
    · obtain ⟨hs, hquiet, hframe⟩ := popScheduledEffect_none h hpop
      exact ⟨hs.congr (fun _ hi => hi) rfl, hquiet, hframe.unflag⟩
    · obtain ⟨hs1, hpopped, hframe1⟩ := popScheduledEffect_some h hpop
      have hcount : Sound R (fun i d => out i d ∨ i = x) (c1.countRun x) :=
        hs1.congr (fun _ hi => hi) rfl
      have hframe2 : Frame c (c1.countRun x) := hframe1.trans (.of_frame rfl fun _ h => h)
      obtain rfl | ⟨-, c2, hstep, hrest⟩ := hround
      · exact ⟨hcount.exhausted _, fun hn => (by cases hn), ⟨hframe2.revisionMode, rfl,
          hframe2.budget, hframe2.depth, fun hn => (by cases hn), hframe2.unbatched, hframe2.moves⟩⟩
      · obtain ⟨hs2, hframe3⟩ := runEffect_spec hcount hpopped hstep
        obtain ⟨hs', hq, hframe'⟩ := drainLoop_spec hs2 hrest
        exact ⟨hs', hq, (hframe2.trans hframe3).unflag.trans hframe'⟩

theorem flushEffects_cases (h : Sound R out c) (hrun : flushEffects c = .ok () c') :
    c' = c ∧ c.flushingEffects = true ∨ Sound R out c' ∧ Quiet c' ∧ Frame c c' := by
  obtain ⟨hfl, rfl⟩ | ⟨hfl, hloop⟩ := flushEffects_loop hrun
  · exact .inl ⟨rfl, hfl⟩
  · have hstart : Sound R out { c with flushingEffects := true, drainRuns := fun _ => 0 } :=
      h.congr (fun _ hi => hi) rfl
    obtain ⟨hs, hq, hframe⟩ := drainLoop_spec hstart hloop
    exact .inr ⟨hs, hq, ⟨hframe.revisionMode, hframe.flushing.trans hfl.symm, hframe.budget,
      hframe.depth, hframe.exhaustion, hframe.unbatched, hframe.moves⟩⟩

theorem flushEffects_spec : FlushSpec R (flushEffects : M τ V Unit) := fun h hrun => by
  rcases flushEffects_cases h hrun with ⟨rfl, -⟩ | ⟨hs, -, hframe⟩
  · exact ⟨h, .refl _⟩
  · exact ⟨hs, hframe⟩

theorem flushEffects_drains : Drains R (flushEffects : M τ V Unit) := fun hfl h hrun => by
  rcases flushEffects_cases h hrun with ⟨-, htrue⟩ | ⟨-, hq, -⟩
  · rw [hfl] at htrue
    cases htrue
  · exact hq

end Run

end Context

end Lazily
