import Lazily.Context.Proof.Ops
import Mathlib.Data.List.Destutter

/-!
# Writes and batches keep the invariants

A write of a source (`SoundUpTo.setSource`) leaves the readers of that source untold. They are told
by the walk of the push engine (`Sound.walked`), by the batch the source is queued in
(`Sound.queued`), or by the revision engine, which bumps the global revision and schedules every
effect that reads a computed cell (`SoundUpTo.bump`).

The operations may end in a drain. What is known of it is `FlushSpec` (it keeps `Sound`) and
`Drains` (it leaves nothing scheduled); `Keeps` is the resulting contract of an operation.
-/

namespace Lazily

open Lib Context List Bool Nat

variable {τ V : Type}

namespace Context

section Source

variable {R : EffectFn τ V → Prop} {D : SlotId → Prop} {out : SlotId → SlotId → Prop}
  {c : Context τ V} {x i : SlotId} {s s' : SourceNode τ V} {effects : List (SlotId × Bool)}

/-! ## The value of a source -/

section

variable (hs : c.nodes x = some (.source s))
include hs

theorem computed_setSource {n : ComputedNode τ V} :
    (c.setNode x (some (.source s'))).nodes i = some (.computed n) ↔
      c.nodes i = some (.computed n) :=
  setNode_nodes_iff hs (by simp) (by simp)

theorem effect_setSource {e : EffectNode τ V} :
    (c.setNode x (some (.source s'))).nodes i = some (.effect e) ↔ c.nodes i = some (.effect e) :=
  setNode_nodes_iff hs (by simp) (by simp)

theorem grounded_setSource (hg : Grounded c i) : Grounded (c.setNode x (some (.source s'))) i := by
  refine hg.imp (fun j t ht => ?_) fun j t hg ht =>
    ⟨t, (computed_setSource hs).2 ht, hg.upToDate ht, rfl⟩
  by_cases hj : j = x
  · exact ⟨s', by rw [hj, setNode_same]⟩
  · exact ⟨t, by rw [setNode_ne _ hj, ht]⟩

omit hs in
theorem Coherent.setSource (hc : Coherent D c) (hs : c.nodes x = some (.source s))
    (hd : s'.dependents = s.dependents) :
    Coherent (fun i => D i ∨ i = x) (c.setNode x (some (.source s'))) where
  toShaped := by
    refine hc.carry ?_ (fun i hi => ?_) rfl
      (fun y n hn => ⟨n, (computed_setSource hs).1 hn, rfl, rfl⟩)
      fun y n hn hu => grounded_setSource hs (hc.grounded y n ((computed_setSource hs).1 hn) hu)
    · exact hc.toLinked.congr (congrFun (dependenciesOf_setNode hs rfl))
        (congrFun (dependentsOf_setNode hs hd))
    · exact (setNode_nodes_iff hs (by simp) (by simp)).2 (hc.live i hi)
  reads y n v hn ht hv := by
    obtain ⟨l, hpath, hl⟩ := hc.reads y n v ((computed_setSource hs).1 hn) ht hv
    refine ⟨l, hpath, fun p hp => ⟨(hl p hp).1, ?_⟩⟩
    by_cases hpx : p.1.id = x
    · exact .inr (.inr hpx)
    · rw [valueAt_setNode_ne hpx]
      exact (hl p hp).2.imp_right .inl

omit hs in
theorem Watched.setSource (h : Watched D out c) (hs : c.nodes x = some (.source s)) :
    Watched (fun i => D i ∨ i = x) out (c.setNode x (some (.source s'))) := by
  intro i e d hi he
  have hw := h i e d hi ((effect_setSource hs).1 he)
  refine ⟨hw.forced, fun hn hd => grounded_setSource hs (hw.settled hn hd),
    fun hf hcov hd v hv => ?_, hw.revision, hw.ran⟩
  have hcov' : Covered c e := fun hm => by
    obtain ⟨d, hd, n, hn⟩ := hcov hm
    exact ⟨d, hd, n, (computed_setSource hs).1 hn⟩
  by_cases hdx : d = x
  · exact .inr (.inr hdx)
  · rw [valueAt_setNode_ne hdx]
    exact (hw.observed hf hcov' hd v hv).imp_right .inl

theorem stirs_setSource : Stirs (fun _ => False) c (c.setNode x (some (.source s'))) :=
  stirs_setNode hs (.source s s')

end

theorem SoundUpTo.setSource (h : SoundUpTo R D out c) (hs : c.nodes x = some (.source s))
    (hd : s'.dependents = s.dependents) :
    SoundUpTo R (fun i => D i ∨ i = x) out (c.setNode x (some (.source s'))) :=
  ⟨h.toRegular.stirs (stirs_setSource hs), h.coherent.setSource hs hd,
    fun hn => (h.watched hn).setSource hs⟩

end Source

section Frame

variable {c c' c1 : Context τ V} {x : SlotId} {effects : List (SlotId × Bool)}

theorem FrameBut.of_frame (hframe : c' = { c with
      pendingEffects := c'.pendingEffects, scheduledEffects := c'.scheduledEffects
      drainRuns := c'.drainRuns, batchedCells := c'.batchedCells
      batchedCellClears := c'.batchedCellClears, batchedSlots := c'.batchedSlots
      revision := c'.revision, cleanupLog := c'.cleanupLog })
    (hun : c.batchDepth = 0 → Unbatched c → Unbatched c') : Frame c c' := by
  rw [hframe] at hun ⊢
  exact { FrameBut.refl c with unbatched := hun }

end Frame

/-! ## The revision bump -/

section Bump

variable {R : EffectFn τ V → Prop} {D D' : SlotId → Prop} {out : SlotId → SlotId → Prop}
  {c c' : Context τ V} {i d : SlotId} {e : EffectNode τ V} {effects : List (SlotId × Bool)}

/-- One revision later no cached value stands, so nothing is claimed of any. -/
theorem Coherent.bump (hc : Coherent D c) (hmode : c.revisionMode = true) :
    Coherent D' { c with revision := c.revision + 1 } := by
  have hold : ∀ y n, c.nodes y = some (.computed n) →
      trusted { c with revision := c.revision + 1 } n = false := fun y n hn => by
    have hver := hc.verified y n hn
    have hne : n.verifiedAt ≠ c.revision + 1 := by omega
    simp [trusted, hmode, hne]
  exact
    { hc with
      verified := fun y n hn => le_succ_of_le (hc.verified y n hn)
      grounded := fun y n hn hu => by
        have ht := trusted_of_upToDate hu
        rw [hold y n hn] at ht
        cases ht
      reads := fun y n v hn ht => by
        rw [hold y n hn] at ht
        cases ht }

/-- The scan finds the forced effects and, one revision later, those that read a computed cell. -/
theorem staleEffect_bump (hc : Coherent D c) (he : c.nodes i = some (.effect e)) :
    staleEffect { c with revision := c.revision + 1 } i = true ↔
      (∃ d ∈ e.dependencies, ∃ n, c.nodes d = some (.computed n)) ∨ e.forceRun = true := by
  simp only [staleEffect, he, or_eq_true, any_eq_true]
  refine or_congr_left (exists_congr fun d => and_congr_right fun _ => ?_)
  cases hd : c.nodes d with
  | none => simp
  | some n =>
    cases n with
    | source s => simp
    | effect e => simp
    | computed n =>
      have := hc.verified d n hd
      simp only [decide_eq_true_eq, Option.some.injEq, Node.computed.injEq, exists_eq', iff_true]
      omega

theorem effect_of_staleEffect (h : staleEffect c i = true) : ∃ e, c.nodes i = some (.effect e) := by
  unfold staleEffect at h
  split at h
  · exact ⟨_, by assumption⟩
  · cases h

theorem WatchedAt.bump (h : WatchedAt D c i e d) (hc : Coherent D c) (hmode : c.revisionMode = true)
    (he : c.nodes i = some (.effect e))
    (hsched : Schedules { c with revision := c.revision + 1 } c' effects)
    (hstale : (i, true) ∈ effects ↔ staleEffect { c with revision := c.revision + 1 } i = true)
    (hforce : ∀ f, (i, f) ∈ effects → f = true) :
    WatchedAt D' c' i { e with forceRun := e.forceRun || decide ((i, true) ∈ effects) } d := by
  rw [staleEffect_bump hc he] at hstale
  obtain ⟨new, hq, hnew⟩ := hsched.queue
  have hmono : c.scheduledEffects i = true → c'.scheduledEffects i = true := fun h => hq.mono h
  have hin : (i, true) ∈ effects → c'.scheduledEffects i = true := fun hmem =>
    hsched.scheduled _ hmem ⟨e, he⟩
  refine ⟨fun hf => ?_, fun hn hd => ?_, fun hf hcov _ => ?_, fun _ hs => ?_,
    fun hf => h.ran (or_eq_false_iff.1 hf).1⟩
  · rcases or_eq_true_iff.1 hf with hf | hf
    · exact hmono (h.forced hf)
    · exact hin (of_decide_eq_true hf)
  · -- an effect the scan did not pick reads sources only
    have hno : c.scheduledEffects i = false := by
      by_contra hs
      rw [hmono (by simpa using hs)] at hn
      cases hn
    obtain ⟨s, hs⟩ | ⟨n, hn', -⟩ := (h.settled hno hd).cases'
    · exact .source (hsched.sameCells.source.2 hs)
    · rw [hin (hstale.2 (.inl ⟨d, hd, n, hn'⟩))] at hn
      cases hn
  · obtain ⟨hef, hnot⟩ := or_eq_false_iff.1 hf
    have hm' : c'.revisionMode = true := by rw [hsched.frame]; exact hmode
    obtain ⟨d', hd, n, hn⟩ := hcov hm'
    rw [decide_eq_false_iff_not] at hnot
    exact absurd (hstale.2 (.inl ⟨d', hd, n, hsched.sameCells.computed.1 hn⟩)) hnot
  · rw [hq.scheduled, or_eq_true, decide_eq_true_eq] at hs
    rcases hs with hs | hs
    · rw [h.revision hmode hs, Bool.true_or]
    · obtain ⟨f, hf⟩ := hnew i hs
      rw [hforce f hf] at hf
      simp [hf]

/-- `flush_effects_revision` up to the drain: whatever was written, every effect that reads a
computed cell is scheduled. -/
theorem SoundUpTo.bump (h : SoundUpTo R D out c) (hmode : c.revisionMode = true)
    (hc' : c' = scheduleEffects { c with revision := c.revision + 1 }
      ((c.allEffectIds.filter (staleEffect { c with revision := c.revision + 1 })).map (·, true))) :
    SoundUpTo R D' out c' ∧ Frame c c' ∧
      Stirs (fun _ => False) { c with revision := c.revision + 1 } c' := by
  obtain ⟨effects, heffects⟩ : ∃ effects, effects =
    (c.allEffectIds.filter (staleEffect { c with revision := c.revision + 1 })).map (·, true) :=
      ⟨_, rfl⟩
  have hsched := scheduleEffects_schedules effects { c with revision := c.revision + 1 }
  rw [← heffects] at hc'
  rw [← hc'] at hsched
  have hmem : ∀ i f, (i, f) ∈ effects ↔
      f = true ∧ i ∈ c.allEffectIds ∧ staleEffect { c with revision := c.revision + 1 } i = true :=
    fun i f => by
      rw [heffects]
      cases f <;> simp
  have hord : Regular R { c with revision := c.revision + 1 } :=
    h.toRegular.congr rfl rfl rfl rfl rfl (h.queued.congr rfl rfl rfl)
  have hstirs : Stirs (fun _ => False) { c with revision := c.revision + 1 } c' :=
    hsched.stirs fun p hp => effect_of_staleEffect ((hmem p.1 p.2).1 hp).2.2
  refine ⟨⟨hord.stirs hstirs, (h.coherent.bump hmode).sameCells hsched.sameCells,
    fun hn i e' d hi he' => ?_⟩, ?_, hstirs⟩
  · rw [hsched.frame] at hn
    obtain ⟨e, he, rfl⟩ := hsched.of_effect he'
    refine (h.watched hn i e d hi he).bump h.coherent hmode he hsched ?_
      fun f hf => ((hmem i f).1 hf).1
    rw [hmem]
    exact ⟨fun hp => hp.2.2, fun hst => ⟨rfl, h.listed i e he, hst⟩⟩
  · refine FrameBut.trans ?_ hstirs.toFrame
    exact .of_frame rfl fun _ h => h

end Bump

/-! ## Operations that may drain -/

def Quiet (c : Context τ V) : Prop :=
  c.lastDrainExhaustion = none → ∀ i, c.scheduledEffects i = false

variable (R : EffectFn τ V → Prop)

/-- The drain keeps the invariants. -/
def FlushSpec (flush : M τ V Unit) : Prop :=
  ∀ {out : SlotId → SlotId → Prop} {c c' : Context τ V}, Sound R out c → flush c = .ok () c' →
    Sound R out c' ∧ Frame c c'

/-- Outside a drain, `flush` leaves nothing scheduled. -/
def Drains (flush : M τ V Unit) : Prop :=
  ∀ {out : SlotId → SlotId → Prop} {c c' : Context τ V}, c.flushingEffects = false → Sound R out c →
    flush c = .ok () c' → Quiet c'

/-- The contract of an operation that ends in `flush`. -/
structure Keeps (R : EffectFn τ V → Prop) (out : SlotId → SlotId → Prop) (flush : M τ V Unit)
    (c c' : Context τ V) : Prop where
  sound : Sound R out c'
  frame : Frame c c'
  quiet : Drains R flush → c.flushingEffects = false → ∀ i,
    (c.lastDrainExhaustion = none → c.scheduledEffects i = false) →
    c'.lastDrainExhaustion = none → c'.scheduledEffects i = false

section Keeps

variable {R : EffectFn τ V → Prop} {out : SlotId → SlotId → Prop} {flush : M τ V Unit}
  {c c1 c' : Context τ V} {x i : SlotId} {s : SourceNode τ V} {effects : List (SlotId × Bool)}

theorem Keeps.flushed (hf : FlushSpec R flush) (h : Sound R out c1) (hframe : Frame c c1)
    (hflush : flush c1 = .ok () c') : Keeps R out flush c c' :=
  ⟨(hf h hflush).1, hframe.trans (hf h hflush).2, fun hd hfl i _ hn =>
    hd (hframe.flushing.trans hfl) h hflush hn i⟩

theorem Keeps.unflushed (h : Sound R out c') (hframe : Frame c c')
    (hsched : c'.scheduledEffects = c.scheduledEffects) : Keeps R out flush c c' :=
  ⟨h, hframe, fun _ _ _ hq hn => hsched ▸ hq (hframe.exhaustion hn)⟩

theorem Keeps.refl (h : Sound R out c) : Keeps R out flush c c := .unflushed h (.refl c) rfl

theorem Keeps.trans {c2 : Context τ V} (h1 : Keeps R out flush c c1)
    (h2 : Keeps R out flush c1 c2) : Keeps R out flush c c2 :=
  ⟨h2.sound, h1.frame.trans h2.frame, fun hd hfl i hq =>
    h2.quiet hd (h1.frame.flushing.trans hfl) i (h1.quiet hd hfl i hq)⟩

theorem Schedules.quiet (h : Schedules c c' effects) (hnil : effects = []) :
    c'.scheduledEffects = c.scheduledEffects := by
  obtain ⟨new, hq, hnew⟩ := h.queue
  funext i
  have hi : i ∉ new := fun hi => by
    obtain ⟨f, hf⟩ := hnew i hi
    rw [hnil] at hf
    cases hf
  rw [hq.scheduled, decide_eq_false hi, Bool.or_false]

/-! ## Writes -/

theorem SoundUpTo.walked {D : SlotId → Prop} (h : SoundUpTo R (fun i => D i ∨ i = x) out c)
    (hmode : c.revisionMode = false) (hs : c.nodes x = some (.source s)) :
    SoundUpTo R D out (c.invalidateDependentsNow x).2 ∧
      Stirs (fun _ => False) c (c.invalidateDependentsNow x).2 ∧
      ((c.invalidateDependentsNow x).1 = false →
        (c.invalidateDependentsNow x).2.scheduledEffects = c.scheduledEffects) := by
  have hsrc : c.dependenciesOf x = [] := by simp [dependenciesOf, hs, Node.dependencies]
  -- the source itself is on no path of the walk
  have hclosed : Frontier.ClosedSet c (· = x) := fun y z hz hzx => by
    rw [← h.coherent.edge, hzx, hsrc] at hz
    cases hz
  have hself : ∀ r ∈ c.dependentsOf x, r ≠ x := fun r hr hrx => by
    rw [← h.coherent.edge, hrx, hsrc] at hr
    cases hr
  obtain ⟨c1, effects, hinv, -, hsched, hany, -⟩ :=
    invalidateDependentsNow_spec h.coherent.live hmode hclosed rfl hself
  refine ⟨h.invalidates hmode hinv (fun d hd y hy => hd ▸ hy) hsched, hinv.stirs_schedules hsched,
    fun hno => ?_⟩
  rw [hany, not_eq_false', List.isEmpty_iff] at hno
  rw [hsched.quiet hno, hinv.frame]

theorem propagateSource_keeps (hf : FlushSpec R flush)
    (h : SoundUpTo R (fun i => pendingWrites c i ∨ i = x) out c) (hs : c.nodes x = some (.source s))
    (hrun : propagateSource flush x c = .ok () c') : Keeps R out flush c c' := by
  unfold propagateSource at hrun
  split at hrun
  · -- in a batch: the source is queued
    rename_i hdepth
    cases hrun
    refine .unflushed (h.congr ?_ rfl) ?_ rfl
    · rintro i (⟨-, hi, hsrc⟩ | rfl)
      · exact ⟨hdepth, mem_append_left _ hi, hsrc⟩
      · exact ⟨hdepth, mem_append_right _ (mem_singleton_self i), s, hs⟩
    · exact .of_frame rfl fun hzero => absurd hdepth (by omega)
  · split at hrun
    · rename_i hmode
      obtain ⟨hb, hframe, -⟩ := h.bump hmode rfl
      exact .flushed hf hb hframe hrun
    · rename_i hmode
      obtain ⟨hw, hstirs, hsched⟩ := h.walked (by simpa using hmode) hs
      rw [← hstirs.pendingWrites] at hw
      split at hrun
      · exact .flushed hf hw hstirs.toFrame hrun
      · rename_i hno
        cases hrun
        exact .unflushed hw hstirs.toFrame (hsched (by simpa using hno))

section

variable [DecidableEq τ] [BEq V]

theorem setSource_keeps (hf : FlushSpec R flush) (h : Sound R out c) {k : Source τ} {v : V}
    (hrun : setSource flush k v c = .ok () c') : Keeps R out flush c c' := by
  unfold setSource at hrun
  split at hrun
  · rename_i s hs
    split at hrun
    · split at hrun
      · have hset : SoundUpTo R (fun i => pendingWrites c i ∨ i = k.id) out
            (c.setNode k.id (some (.source { s with value := v }))) := h.setSource hs rfl
        rw [← (stirs_setSource hs).pendingWrites] at hset
        have hk := propagateSource_keeps hf hset (setNode_same ..) hrun
        exact ⟨hk.sound, (stirs_setSource hs).toFrame.trans hk.frame, hk.quiet⟩
      · cases hrun
        exact .refl h
    · cases hrun
  · cases hrun

theorem mergeSource_keeps (hf : FlushSpec R flush) (h : Sound R out c) {k : Source τ}
    {policy : V → V → V} {v : V} (hrun : mergeSource flush k policy v c = .ok () c') :
    Keeps R out flush c c' := by
  unfold mergeSource at hrun
  split at hrun
  · split at hrun
    · exact setSource_keeps hf h hrun
    · cases hrun
  · cases hrun

end

/-! ## Batches -/

theorem mem_destutter'_ne (l : List SlotId) (d : SlotId) :
    i ∈ l.destutter' (· ≠ ·) d ↔ i ∈ d :: l := by
  induction l generalizing d with
  | nil => simp
  | cons x xs ih =>
    by_cases h : d = x
    · simp [h, ih]
    · simp [h, ih]

theorem mem_sortDedup {l : List SlotId} : i ∈ sortDedup l ↔ i ∈ l := by
  rw [sortDedup, ← mem_insertionSort (· ≤ ·) (l := l)]
  cases l.insertionSort (· ≤ ·) with
  | nil => rfl
  | cons d l => exact mem_destutter'_ne l d

theorem Invalidates.live {roots : List SlotId} (h : Invalidates c c' effects roots)
    (hlive : ∀ j, c.nextId ≤ j → c.nodes j = none) :
    ∀ j, c'.nextId ≤ j → c'.nodes j = none := fun j hj => by
  rw [h.frame] at hj
  exact (hlive j hj ▸ h.weaker j).of_none

def batchedSources (c : Context τ V) (i : SlotId) : Prop :=
  i ∈ c.batchedCells ∧ ∃ s, c.nodes i = some (.source s)

/-- The three walks of a batch tell the readers of every source written in it. -/
theorem SoundUpTo.walkBatched (h : SoundUpTo R (batchedSources c) out c)
    (hmode : c.revisionMode = false) :
    SoundUpTo R (fun _ => False) out c.walkBatched ∧ Frame c c.walkBatched ∧
      Stirs (fun _ => False) c.clearBatched c.walkBatched ∧
      (c.batchDepth = 0 → Unbatched c.walkBatched) := by
  have hclear : SoundUpTo R (fun i => False ∨ batchedSources c i) out c.clearBatched :=
    h.congr (fun _ hi => .inr hi) rfl
  have hlive : ∀ j, c.clearBatched.nextId ≤ j → c.clearBatched.nodes j = none :=
    hclear.coherent.live
  obtain ⟨roots, hroots⟩ : ∃ roots, roots =
    (sortDedup c.batchedCells).flatMap c.clearBatched.sourceDependents := ⟨_, rfl⟩
  have hmark := markFrontier_invalidates (c := c.clearBatched) hlive hmode roots
  have hcells := clearFrontier_invalidates (hmark.live hlive)
    ((sortDedup c.batchedCellClears).flatMap (c.clearBatched.markFrontier roots).1.sourceDependents)
  have hslots := clearFrontier_invalidates (hcells.live (hmark.live hlive))
    (sortDedup c.batchedSlots)
  have hall := (hmark.trans hcells).trans hslots
  have hframe : Frame c c.clearBatched := .of_frame rfl fun _ _ => ⟨rfl, rfl, rfl⟩
  unfold Context.walkBatched
  simp only [← hroots]
  have hwalk : Stirs (fun _ => False) c.clearBatched _ :=
    hall.stirs_schedules (scheduleEffects_schedules _ _)
  refine ⟨hclear.invalidates hmode hall (fun d hd y hy => ?_) (scheduleEffects_schedules _ _),
    hframe.trans hwalk.toFrame, hwalk,
    fun hdepth => hwalk.toFrame.unbatched hdepth ⟨rfl, rfl, rfl⟩⟩
  obtain ⟨hd, s, hs⟩ := hd
  rw [hroots]
  refine mem_append_left _ (mem_append_left _ (mem_flatMap.2 ⟨d, mem_sortDedup.2 hd, ?_⟩))
  have hs' : c.clearBatched.nodes d = some (.source s) := hs
  rw [dependentsOf_source hs'] at hy
  simp only [sourceDependents, hs']
  exact hy

theorem flushBatchedInvalidations_keeps (hf : FlushSpec R flush) (hdepth : c.batchDepth = 0)
    (h : SoundUpTo R (batchedSources c) out c)
    (hrun : flushBatchedInvalidations flush c = .ok () c') :
    Keeps R out flush c c' ∧ Unbatched c' := by
  unfold flushBatchedInvalidations at hrun
  split at hrun
  · rename_i hmode
    split at hrun
    · rename_i c2 hflush
      cases hrun
      obtain ⟨hb, hframe, -⟩ := h.bump hmode rfl
      have hk : Keeps R out flush c c2 := .flushed hf hb hframe hflush
      refine ⟨hk.trans (.unflushed (hk.sound.congr ?_ rfl) ?_ rfl), rfl, rfl, rfl⟩
      · rintro i ⟨hpos, -⟩
        rw [hk.frame.depth, hdepth] at hpos
        exact absurd hpos (lt_irrefl 0)
      · exact .of_frame rfl fun _ _ => ⟨rfl, rfl, rfl⟩
    · cases hrun
  · rename_i hmode
    obtain ⟨hw, hframe, -, hun⟩ := h.walkBatched (by simpa using hmode)
    have hs : Sound R out c.walkBatched := hw.congr (fun _ hi => hi.elim) rfl
    exact ⟨.flushed hf hs hframe hrun,
      (hf hs hrun).2.unbatched (hframe.depth.trans hdepth) (hun hdepth)⟩

theorem beginBatch_sound (h : Sound R out c) :
    Sound R out { c with batchDepth := c.batchDepth + 1 } :=
  h.congr (fun _ hi => ⟨succ_pos _, hi.2⟩) rfl

/-- The end of a batch, measured from the context with the depth already taken back. -/
theorem finishBatch_keeps (hf : FlushSpec R flush) (h : Sound R out c)
    (hrun : finishBatch flush c = .ok () c') :
    Keeps R out flush { c with batchDepth := c.batchDepth - 1 } c' ∧
      (c'.batchDepth = 0 → Unbatched c') := by
  unfold finishBatch at hrun
  split at hrun
  · dsimp only at hrun
    split at hrun
    · rename_i hzero
      have hs : SoundUpTo R (batchedSources c) out { c with batchDepth := c.batchDepth - 1 } :=
        h.congr (fun _ hi => hi.2) rfl
      obtain ⟨hk, hun⟩ := flushBatchedInvalidations_keeps hf hzero hs hrun
      exact ⟨hk, fun _ => hun⟩
    · rename_i hzero
      cases hrun
      exact ⟨.refl (h.congr (fun _ hi => ⟨Nat.pos_of_ne_zero hzero, hi.2⟩) rfl),
        fun h => absurd h hzero⟩
  · cases hrun

end Keeps

end Context

end Lazily
