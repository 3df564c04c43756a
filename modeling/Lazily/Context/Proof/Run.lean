import Lazily.Context.Proof.Drain

/-!
# Whole programs

`Steady` holds between any two operations: the invariants (`Sound`) with some effects left out, and
no drain going on. `AtRest` leaves no effect out and has an empty effect queue besides. Each
operation of a program that disposes of nothing keeps both (`step_steady`, `step_atRest`), so a run
does (`run_atRest`). The same statement serves both engines; the revision engine takes effects that
do not write.
-/

namespace Lazily

open Lib Context Unwind List

variable {τ V : Type}

/-- The operations that build a graph, write, batch, clear and read. -/
def Op.Plain : Op τ V → Prop
  | .source _ _ | .computed _ _ | .slot _ _ | .effect _ | .get _ | .readValue _ | .set _ _
  | .merge _ _ _ | .beginBatch | .endBatch | .clear _ | .clearDependents _ | .setDrainBudget _ =>
    True
  | _ => False

/-- The effects of a program are from the class `R`. -/
def Op.Within (R : EffectFn τ V → Prop) : Op τ V → Prop
  | .effect run => R run
  | _ => True

/-- The operation does not clear caches. -/
def Op.KeepsCaches : Op τ V → Prop
  | .clear _ | .clearDependents _ => False
  | _ => True

/-- The batch depth after an operation. -/
def Op.depth : Op τ V → Nat → Nat
  | .beginBatch, n => n + 1
  | .endBatch, n => n - 1
  | _, n => n

namespace Context

/-- Between two operations; nothing is said of the effects `out`. -/
structure Steady (R : EffectFn τ V → Prop) (out : SlotId → SlotId → Prop) (c : Context τ V) :
    Prop where
  sound : Sound R out c
  idle : c.flushingEffects = false
  unbatched : c.batchDepth = 0 → Unbatched c
  logged : ∀ i e, c.nodes i = some (.effect e) → e.Logged

/-- Between two operations, with every effect run that had to and no cell disposed of that an effect
has read. -/
structure AtRest (R : EffectFn τ V → Prop) (c : Context τ V) : Prop
    extends Steady R (fun _ _ => False) c where
  quiet : Quiet c
  whole : ∀ i e, c.nodes i = some (.effect e) → e.Whole

variable {R : EffectFn τ V → Prop}

theorem newImpl_steady {out : SlotId → SlotId → Prop} (revisionMode : Bool)
    (hR : revisionMode = true → EffectFn.NoWrites R) :
    Steady R out (newImpl revisionMode : Context τ V) where
  sound :=
    { coherent :=
        { live := fun _ _ => rfl
          edge := fun _ _ => by simp [dependenciesOf, dependentsOf, newImpl]
          nodupDependencies := fun _ => nodup_nil
          nodupDependents := fun _ => nodup_nil
          verified := fun _ _ h => nomatch h
          guard := fun _ _ _ h => nomatch h
          grounded := fun _ _ h => nomatch h
          reads := fun _ _ _ h => nomatch h }
      tidy := ⟨nodup_nil, fun _ h => (nomatch h), fun _ _ h => nomatch h⟩
      listed := fun _ _ h => nomatch h
      queued := fun _ h => nomatch h
      noWrites := hR
      allowed := fun _ _ h => nomatch h
      watched := fun _ _ _ _ _ h => nomatch h }
  idle := rfl
  unbatched _ := ⟨rfl, rfl, rfl⟩
  logged _ _ h := nomatch h

theorem newImpl_atRest (revisionMode : Bool) (hR : revisionMode = true → EffectFn.NoWrites R) :
    AtRest R (newImpl revisionMode : Context τ V) :=
  ⟨newImpl_steady revisionMode hR, fun _ _ => rfl, fun _ _ h => nomatch h⟩

section Rest

variable {R : EffectFn τ V → Prop} {out : SlotId → SlotId → Prop} {c c' : Context τ V}
    {replies : List (Reply τ V)} {op : Op τ V} {reply : Reply τ V}

theorem Steady.keeps {flush : M τ V Unit} (h : Steady R out c) (hk : Keeps R out flush c c') :
    Steady R out c' :=
  ⟨hk.sound, hk.frame.flushing.trans h.idle,
    fun hz => hk.frame.unbatched (hk.frame.depth ▸ hz) (h.unbatched (hk.frame.depth ▸ hz)),
    fun i => hk.frame.moves.logged (h.logged i)⟩

theorem Steady.evolves (h : Steady R out c) (hev : Evolves none c c') (hs : Sound R out c') :
    Steady R out c' := by
  refine ⟨hs, hev.frame'.flushing.trans h.idle, fun hz => ?_,
    fun i => hev.frame'.moves.logged (h.logged i)⟩
  rw [hev.frame'.depth] at hz
  exact hev.frame'.unbatched hz (h.unbatched hz)

/-- No effect depends on a cell that a read changes. -/
theorem Sound.quiet_evolves (h : Sound R out c) (hout : ∀ i d, ¬ out i d) (hq : Quiet c)
    (hev : Evolves none c c') : Quiet c' := by
  intro hn i
  have hn0 := hev.frame'.exhaustion hn
  have hoff := hq hn0 i
  obtain ⟨new, hq, hnew⟩ := hev.queue
  by_cases hi : i ∈ new
  · obtain ⟨e, he⟩ := hnew i hi
    rw [hev.calm i e he (fun d => (h.watched hn0 i e d (hout i d) he).settled hoff), hoff]
  · rw [hq.scheduled, hoff, decide_eq_false hi, Bool.or_false]

theorem clearSlotsNow_sound (h : Sound R out c) (hmode : c.revisionMode = false)
    (roots : List SlotId) :
    Sound R out (c.clearSlotsNow roots) ∧ Frame c (c.clearSlotsNow roots) := by
  have hinv := clearFrontier_invalidates h.coherent.live roots
  have hsched := scheduleEffects_schedules (c.clearFrontier roots).2 (c.clearFrontier roots).1
  have hup : SoundUpTo R (fun i => pendingWrites c i ∨ False) out c :=
    h.congr (fun _ hi => .inl hi) rfl
  have hstirs : Stirs (fun _ => False) c (c.clearSlotsNow roots) := hinv.stirs_schedules hsched
  have hw := hup.invalidates hmode hinv (fun d hd => hd.elim) hsched
  rw [← hstirs.pendingWrites] at hw
  exact ⟨hw, hstirs.toFrame⟩

variable [DecidableEq τ]

/-- `read_value_untracked`, as `readUntracked_spec`. -/
theorem readValueUntracked_spec {D : SlotId → Prop} (hc : Coherent D c) {id : SlotId} {tag : τ}
    {v : V} (h : readValueUntracked refresh id tag c = .ok v c') :
    Coherent D c' ∧ Evolves none c c' ∧ Grounded c' id ∧ c'.valueAt id = some v := by
  obtain ⟨b, c1, hr, h⟩ := bind_eq_ok.1 h
  obtain ⟨hc1, hev, hg, -⟩ := refresh_spec.spec hc hr
  split at h
  · rename_i s hs
    split at h
    · rename_i w hw
      split at h
      · cases h
        obtain ⟨s0, hs0, -⟩ := hev.of_computed hs
        exact ⟨hc1, hev, hg (.inr ⟨s0, hs0⟩), (valueAt_computed hs).trans hw⟩
      · cases h
    · cases h
  · rename_i s hs
    split at h
    · cases h
      exact ⟨hc1, hev, .source hs, valueAt_source hs⟩
    · cases h
  · cases h

variable [BEq V]

theorem clearComputed_keeps [LawfulBEq V] [EffectFn.Closed R] (h : Sound R out c)
    (hmode : c.revisionMode = false) {k : Computed τ} (hrun : clearComputed k c = .ok () c') :
    Keeps R out flushEffects c c' := by
  unfold clearComputed at hrun
  split at hrun
  · cases hrun
    exact .unflushed (h.congr (fun _ hi => hi) rfl)
      (.of_frame rfl fun hz => absurd hz (by omega)) rfl
  · obtain ⟨hs, hframe⟩ := clearSlotsNow_sound h hmode [k.id]
    exact .flushed flushEffects_spec hs hframe hrun

theorem clearCellDependents_keeps [LawfulBEq V] [EffectFn.Closed R] (h : Sound R out c)
    (hmode : c.revisionMode = false) {k : Source τ} (hrun : clearCellDependents k c = .ok () c') :
    Keeps R out flushEffects c c' := by
  unfold clearCellDependents at hrun
  split at hrun
  · cases hrun
    exact .unflushed (h.congr (fun _ hi => hi) rfl)
      (.of_frame rfl fun hz => absurd hz (by omega)) rfl
  · unfold clearCellDependentsNow at hrun
    split at hrun
    · rename_i s hs
      obtain ⟨hs, hframe⟩ := clearSlotsNow_sound h hmode s.dependents
      exact .flushed flushEffects_spec hs hframe hrun
    · exact .flushed flushEffects_spec h (.refl c) hrun

theorem run_nil_ok (h : run [] c = .ok replies c') : c = c' := (pure_eq_ok.1 h).2

theorem run_cons_ok {ops : List (Op τ V)} (h : run (op :: ops) c = .ok replies c') :
    ∃ reply c1 rest, step op c = .ok reply c1 ∧ run ops c1 = .ok rest c' := by
  obtain ⟨reply, c1, hstep, h⟩ := bind_eq_ok.1 h
  obtain ⟨rest, c2, hrest, hret⟩ := bind_eq_ok.1 h
  obtain ⟨-, rfl⟩ := pure_eq_ok.1 hret
  exact ⟨reply, c1, rest, hstep, hrest⟩

variable [LawfulBEq V] [EffectFn.Closed R]

theorem step_steady (h : Steady R out c) (hplain : op.Plain)
    (hR : op.Within R) (hkeep : c.revisionMode = true → op.KeepsCaches)
    (hrun : step op c = .ok reply c') :
    Steady R out c' ∧ c'.revisionMode = c.revisionMode ∧ c'.batchDepth = op.depth c.batchDepth ∧
      Moves (fun _ => False) c.nodes c'.nodes ∧ ((∀ i d, ¬ out i d) → Quiet c → Quiet c') := by
  have done : Keeps R out flushEffects c c' → Steady R out c' ∧
      c'.revisionMode = c.revisionMode ∧ c'.batchDepth = c.batchDepth ∧
      Moves (fun _ => False) c.nodes c'.nodes ∧ ((∀ i d, ¬ out i d) → Quiet c → Quiet c') :=
    fun hk => ⟨h.keeps hk, hk.frame.revisionMode, hk.frame.depth, hk.frame.moves,
      fun _ hq hn i => hk.quiet flushEffects_drains h.idle i (fun hn => hq hn i) hn⟩
  have read : Sound R out c' ∧ Evolves none c c' → Steady R out c' ∧
      c'.revisionMode = c.revisionMode ∧ c'.batchDepth = c.batchDepth ∧
      Moves (fun _ => False) c.nodes c'.nodes ∧ ((∀ i d, ¬ out i d) → Quiet c → Quiet c') :=
    fun hr => ⟨h.evolves hr.2 hr.1, hr.2.revisionMode, hr.2.frame'.depth, hr.2.frame'.moves,
      fun hout hq => h.sound.quiet_evolves hout hq hr.2⟩
  have pushed : (c.revisionMode = true → False) → c.revisionMode = false := by simp
  cases op with
  | source v tag =>
    obtain ⟨k, hrun, -⟩ := map_eq_ok.1 hrun
    obtain ⟨hc', hs, hframe⟩ := newSource_spec h.sound hrun
    exact done (.unflushed hs hframe (by rw [hc']; rfl))
  | computed compute tag =>
    obtain ⟨k, hrun, -⟩ := map_eq_ok.1 hrun
    obtain ⟨⟨s, hc'⟩, hs, hframe⟩ := slotWithEquals_spec h.sound
      (fun f hf old new h => by cases hf; exact eq_of_beq h) hrun
    exact done (.unflushed hs hframe (by rw [hc']; rfl))
  | slot compute tag =>
    obtain ⟨k, hrun, -⟩ := map_eq_ok.1 hrun
    obtain ⟨⟨s, hc'⟩, hs, hframe⟩ := slotWithEquals_spec h.sound (fun f hf => by cases hf) hrun
    exact done (.unflushed hs hframe (by rw [hc']; rfl))
  | effect run =>
    obtain ⟨k, hrun, -⟩ := map_eq_ok.1 hrun
    exact done (newEffect_keeps flushEffects_spec h.sound hR hrun)
  | get k =>
    obtain ⟨v, hrun, -⟩ := map_eq_ok.1 hrun
    obtain ⟨hs, hev, -⟩ := h.sound.read hrun
    exact read ⟨hs, hev⟩
  | readValue k =>
    obtain ⟨v, hrun, -⟩ := map_eq_ok.1 hrun
    obtain ⟨hc, hev, -⟩ := readValueUntracked_spec h.sound.coherent hrun
    exact read ⟨h.sound.evolves hev hc, hev⟩
  | set k v =>
    obtain ⟨_, hrun, -⟩ := map_eq_ok.1 hrun
    exact done (setSource_keeps flushEffects_spec h.sound hrun)
  | merge k policy v =>
    obtain ⟨_, hrun, -⟩ := map_eq_ok.1 hrun
    exact done (mergeSource_keeps flushEffects_spec h.sound hrun)
  | beginBatch =>
    obtain ⟨_, hrun, -⟩ := map_eq_ok.1 hrun
    obtain rfl := modify_eq_ok.1 hrun
    exact ⟨⟨beginBatch_sound h.sound, h.idle, fun hz => absurd hz (Nat.succ_ne_zero _), h.logged⟩,
      rfl, rfl, (FrameBut.refl c).moves, fun _ hq => hq⟩
  | endBatch =>
    obtain ⟨_, hrun, -⟩ := map_eq_ok.1 hrun
    obtain ⟨hk, hun⟩ := finishBatch_keeps flushEffects_spec h.sound hrun
    exact ⟨⟨hk.sound, hk.frame.flushing.trans h.idle, hun,
      fun i => hk.frame.moves.logged (h.logged i)⟩, hk.frame.revisionMode, hk.frame.depth,
      hk.frame.moves, fun _ hq hn i => hk.quiet flushEffects_drains h.idle i (fun hn => hq hn i) hn⟩
  | clear k =>
    obtain ⟨_, hrun, -⟩ := map_eq_ok.1 hrun
    exact done (clearComputed_keeps h.sound (pushed hkeep) hrun)
  | clearDependents k =>
    obtain ⟨_, hrun, -⟩ := map_eq_ok.1 hrun
    exact done (clearCellDependents_keeps h.sound (pushed hkeep) hrun)
  | setDrainBudget budget =>
    obtain ⟨_, hrun, -⟩ := map_eq_ok.1 hrun
    unfold setDrainBudget at hrun
    split at hrun
    · cases hrun
      exact ⟨⟨h.sound.congr (fun _ hi => hi) rfl, h.idle,
        h.unbatched, h.logged⟩, rfl, rfl, (FrameBut.refl c).moves, fun _ hq => hq⟩
    · cases hrun
  | _ => exact hplain.elim

theorem step_atRest (h : AtRest R c) (hplain : op.Plain)
    (hR : op.Within R) (hkeep : c.revisionMode = true → op.KeepsCaches)
    (hrun : step op c = .ok reply c') : AtRest R c' ∧ c'.revisionMode = c.revisionMode ∧
      c'.batchDepth = op.depth c.batchDepth := by
  obtain ⟨hs, hmode, hdepth, hmoves, hquiet⟩ := step_steady h.toSteady hplain hR hkeep hrun
  exact ⟨⟨hs, hquiet (fun _ _ => id) h.quiet, fun i => hmoves.whole (h.whole i)⟩, hmode, hdepth⟩

theorem run_atRest : ∀ {ops : List (Op τ V)} {c c' : Context τ V} {replies : List (Reply τ V)},
    AtRest R c → (∀ op ∈ ops, op.Plain) → (∀ op ∈ ops, op.Within R) →
    (c.revisionMode = true → ∀ op ∈ ops, op.KeepsCaches) →
    run ops c = .ok replies c' → AtRest R c' ∧ c'.revisionMode = c.revisionMode
  | [], c, c', replies, h, _, _, _, hrun => by
    obtain rfl := run_nil_ok hrun
    exact ⟨h, rfl⟩
  | op :: ops, c, c', replies, h, hplain, hR, hkeep, hrun => by
    obtain ⟨reply, c1, rest, hstep, hrest⟩ := run_cons_ok hrun
    obtain ⟨h1, hmode1, -⟩ := step_atRest h (hplain op mem_cons_self)
      (hR op mem_cons_self) (fun hm => hkeep hm op mem_cons_self) hstep
    obtain ⟨h2, hmode2⟩ := run_atRest h1 (fun o ho => hplain o (mem_cons_of_mem _ ho))
      (fun o ho => hR o (mem_cons_of_mem _ ho))
      (fun hm o ho => hkeep (hmode1 ▸ hm) o (mem_cons_of_mem _ ho)) hrest
    exact ⟨h2, hmode2.trans hmode1⟩

end Rest

/-! ## What a context at rest says -/

section Reading

variable {R : EffectFn τ V → Prop} {out : SlotId → SlotId → Prop} {c c' : Context τ V}
  {i : SlotId}

theorem Sound.coherent_outside (h : Sound R out c) (hdepth : c.batchDepth = 0) :
    Coherent (fun _ => False) c :=
  h.coherent.mono fun i hi => by
    rw [pendingWrites, hdepth] at hi
    exact absurd hi.1 (Nat.lt_irrefl 0)

/-- A cell that stands holds its value from scratch, before and after the read. -/
theorem Sound.fromScratch {off : Option SlotId} (h : Sound R out c')
    (hev : Evolves off c c') (hdepth : c.batchDepth = 0) {v : V}
    (hg : Grounded c' i) (hv : c'.valueAt i = some v) : FromScratch c i v :=
  (fromScratch_congr hev.recipe).1
    ((h.coherent_outside (hev.frame'.depth.trans hdepth)).fromScratch hg hv)

theorem AtRest.observed (h : AtRest R c) (hdepth : c.batchDepth = 0)
    (hex : c.lastDrainExhaustion = none) {e : EffectNode τ V}
    (he : c.nodes i = some (.effect e)) (hcov : Covered c e) :
    0 < e.runs ∧ ∀ p ∈ e.observed, FromScratch c p.1 p.2 := by
  have hw := fun d => h.sound.watched hex i e d id he
  have hoff := h.quiet hex i
  have hunforced : e.forceRun = false := by
    by_contra hf
    rw [(hw i).forced (by simpa using hf)] at hoff
    cases hoff
  refine ⟨(hw i).ran hunforced, fun p hp => ?_⟩
  have hd := h.whole i e he p hp
  refine (h.sound.coherent_outside hdepth).fromScratch ((hw p.1).settled hoff hd)
    (((hw p.1).observed hunforced hcov hd p.2 hp).resolve_right ?_)
  rintro ⟨hpos, -⟩
  rw [hdepth] at hpos
  exact absurd hpos (Nat.lt_irrefl 0)

end Reading

end Context

end Lazily
