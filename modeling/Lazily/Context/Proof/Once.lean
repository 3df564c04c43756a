import Lazily.Context.Proof.Run

/-!
# How often an effect runs in one drain

An effect is `Done` when it has run and nothing has called for another run: it is not forced, and
every cell it read is grounded (in the revision engine: it is not scheduled). A drain skips such an
effect, and leaves it done: pulling a cell forces an effect only if a stale cell it reads changes
(`Evolves.blamed`), and its cells are not stale. What another effect, a read or a new node does is
summed up by `Spares`.

The effect that is running is done from its first step. It stays done as long as it does not read
an outdated cell (`Done.read`); such a read recomputes the cell, which tells its readers, the
running effect among them. `drainLoop_once` is the result for a whole drain.
-/

namespace Lazily

open Lib Context List Unwind

variable {τ V : Type}

namespace Context

/-- Nothing calls for another run of the effect. -/
structure DoneAt (c : Context τ V) (i : SlotId) (e : EffectNode τ V) : Prop where
  unforced : e.forceRun = false
  settled : c.revisionMode = false → ∀ d ∈ e.dependencies, Grounded c d
  descheduled : c.revisionMode = true → c.scheduledEffects i = false

/-- Effect `i` has run `r` times. -/
def Ran (i : SlotId) (r : Nat) (c : Context τ V) : Prop :=
  ∃ e, c.nodes i = some (.effect e) ∧ e.runs = r

def Done (i : SlotId) (r : Nat) (c : Context τ V) : Prop :=
  ∃ e, c.nodes i = some (.effect e) ∧ e.runs = r ∧ DoneAt c i e

/-- Effect `i` does not run, and stays done if it is. -/
structure Spares (i : SlotId) (c c' : Context τ V) : Prop where
  ran : ∀ r, Ran i r c → Ran i r c'
  done : ∀ r, Done i r c → Done i r c'

section Spares

variable {i x : SlotId} {c c1 c' : Context τ V} {e : EffectNode τ V} {all : List SlotId}

theorem Spares.refl (i : SlotId) (c : Context τ V) : Spares i c c := ⟨fun _ h => h, fun _ h => h⟩

theorem Spares.trans (h1 : Spares i c c1) (h2 : Spares i c1 c') : Spares i c c' :=
  ⟨fun r h => h2.ran r (h1.ran r h), fun r h => h2.done r (h1.done r h)⟩

theorem Spares.of_effect (h : ∀ e, c.nodes i = some (.effect e) → ∃ e',
    c'.nodes i = some (.effect e') ∧ e'.runs = e.runs ∧ (DoneAt c i e → DoneAt c' i e')) :
    Spares i c c' where
  ran := by
    rintro r ⟨e, he, rfl⟩
    obtain ⟨e', he', hr, -⟩ := h e he
    exact ⟨e', he', hr⟩
  done := by
    rintro r ⟨e, he, rfl, hd⟩
    obtain ⟨e', he', hr, hdone⟩ := h e he
    exact ⟨e', he', hr, hdone hd⟩

theorem Spares.of_same (hnode : ∀ e, c.nodes i = some (.effect e) → c'.nodes i = some (.effect e))
    (hg : ∀ d, Grounded c d → Grounded c' d) (hmode : c'.revisionMode = c.revisionMode)
    (hoff : c.scheduledEffects i = false → c'.scheduledEffects i = false) : Spares i c c' :=
  .of_effect fun e he => ⟨e, hnode e he, rfl, fun hd => ⟨hd.unforced,
    fun hm d hdep => hg d (hd.settled (hmode ▸ hm) d hdep),
    fun hm => hoff (hd.descheduled (hmode ▸ hm))⟩⟩

theorem Spares.of_nodes (hnodes : c'.nodes = c.nodes) (hrev : c'.revision = c.revision)
    (hmode : c'.revisionMode = c.revisionMode)
    (hoff : c.scheduledEffects i = false → c'.scheduledEffects i = false) : Spares i c c' := by
  refine .of_same (fun e he => hnodes ▸ he) (fun d hg => ?_) hmode hoff
  refine hg.imp (fun j s hs => ⟨s, hnodes ▸ hs⟩) fun j s hg hs => ⟨s, hnodes ▸ hs, ?_, rfl⟩
  have hu := hg.upToDate hs
  rwa [upToDate, hmode, hrev, ← upToDate]

/-- A refresh: an effect that is forced has a stale dependency. -/
theorem Evolves.spares {off : Option SlotId} (h : Evolves off c c') (i : SlotId) :
    Spares i c c' := by
  refine .of_effect fun e he => ?_
  obtain ⟨f, hf, -, hnew⟩ := h.effect i e he
  refine ⟨_, hf, rfl, fun hd => ⟨?_, fun hm d hdep => ?_, fun hm => ?_⟩⟩
  · cases hff : f with
    | false => rfl
    | true =>
      cases hmode : c.revisionMode with
      | false =>
        obtain hforced | ⟨-, d, hdep, hng, -⟩ := h.blamed i e _ he hf hff
        · exact hd.unforced ▸ hforced.symm
        · exact absurd (hd.settled hmode d hdep) hng
      | true =>
        obtain hforced | hs := hnew hff
        · exact hd.unforced ▸ hforced.symm
        · rw [h.quiet hmode, hd.descheduled hmode] at hs
          cases hs
  · exact (h.grounded d (hd.settled (h.revisionMode ▸ hm) d hdep)).1
  · rw [h.revisionMode] at hm
    rw [h.quiet hm]
    exact hd.descheduled hm

theorem Rewires.spares (h : Rewires x c c') (he : c.nodes x = some (.effect e)) (hi : i ≠ x) :
    Spares i c c' := by
  refine .of_same (fun e he => ?_) (fun d hg => h.grounded (.inl (not_grounded_effect he)) hg)
    (by rw [h.frame]) (fun hs => by rw [h.frame]; exact hs)
  obtain ⟨m, hm, hd⟩ := h.effect i e he
  rw [hm, hd hi]

theorem SameCells.spares (h : SameCells c c') (hnode : c'.nodes i = c.nodes i)
    (hoff : c.scheduledEffects i = false → c'.scheduledEffects i = false) : Spares i c c' :=
  .of_same (fun _ he => hnode ▸ he) (fun _ hg => h.grounded hg) h.revisionMode hoff

theorem spares_setEffect {e' : EffectNode τ V} (he : c.nodes x = some (.effect e))
    (hd : e'.dependencies = e.dependencies) (hi : i ≠ x) :
    Spares i c (c.setNode x (some (.effect e'))) :=
  (sameCells_setEffect he hd).spares (setNode_ne _ hi _) fun h => h

theorem spares_addNode {n : Node τ V} (hnew : c.nodes c.newId = none) :
    Spares i c (c.addNode n all) :=
  .of_same (fun _ he => addNode_nodes hnew he) (fun _ hg => grounded_addNode hnew hg) rfl fun h => h

theorem Schedules.spares {effects : List (SlotId × Bool)} (h : Schedules c c' effects)
    (hi : ∀ f, (i, f) ∉ effects) : Spares i c c' := by
  refine h.sameCells.spares ?_ fun hoff => ?_
  · rw [h.node, decide_eq_false (hi true)]
    rcases c.nodes i with _ | (s | s | e) <;> simp [Node.force]
  · obtain ⟨new, hq, hnew⟩ := h.queue
    have hno : i ∉ new := fun hmem => by
      obtain ⟨f, hf⟩ := hnew i hmem
      exact hi f hf
    rw [hq.scheduled, hoff, decide_eq_false hno]
    rfl

/-- A new effect is none of those that were there. -/
theorem spares_newEffect {f : Bool} (hnew : c.nodes c.newId = none) :
    Spares i c ((c.addNode (.effect e) all).scheduleEffect c.newId f) := by
  by_cases hi : i = c.newId
  · exact .of_effect fun e he => absurd hi (ne_newId hnew he)
  · refine (spares_addNode hnew).trans ((scheduleEffect_schedules _ (c.newId, f)).spares ?_)
    exact fun f' hmem => hi (Prod.mk.inj (mem_singleton.1 hmem)).1

theorem spares_runCleanup (cleanup : Option Nat) : Spares i c (c.runCleanup cleanup) := by
  cases cleanup with
  | none => exact .refl i c
  | some token => exact .of_nodes rfl rfl rfl fun h => h

theorem spares_removePendingEffect : Spares i c (c.removePendingEffect x) := by
  unfold removePendingEffect
  split
  · refine .of_nodes rfl rfl rfl fun h => ?_
    simp [descheduleEffect, h]
  · exact .refl i c

theorem spares_startRun (he : c.nodes x = some (.effect e)) (hi : i ≠ x) :
    Spares i c (c.startRun x) := by
  have hrew := detach_rewires c x
  obtain ⟨m, hm, -⟩ := hrew.effect x e he
  refine (hrew.spares he hi).trans ?_
  simp only [startRun, modifyEffect, hm]
  exact spares_setEffect hm rfl hi

/-- Only the cleanup of the node changes, which `DoneAt` does not look at. -/
theorem spares_storeCleanup (cleanup : Option Nat) : Spares i c (c.storeCleanup x cleanup) := by
  unfold storeCleanup
  split
  · rename_i e he
    by_cases hi : i = x
    · subst hi
      have hsame : SameCells c (c.setNode i (some (.effect { e with cleanup := cleanup }))) :=
        sameCells_setEffect he rfl
      refine .of_effect fun e1 he1 => ⟨_, setNode_same .., ?_, fun hd => ?_⟩
      · rw [he] at he1
        cases he1
        rfl
      · rw [he] at he1
        cases he1
        exact ⟨hd.unforced, fun hm d hdep => hsame.grounded (hd.settled hm d hdep), hd.descheduled⟩
    · exact spares_setEffect he rfl hi
  · exact spares_runCleanup cleanup

end Spares

/-! ## The running effect -/

section Body

variable {R : EffectFn τ V → Prop} {mode : Bool} {i x : SlotId} {c c1 c' : Context τ V}

/-- Nothing is queued for the end of a batch; the revision engine empties its lists after the
drain. -/
def Unqueued (c : Context τ V) : Prop := c.revisionMode = false → Unbatched c

theorem FrameBut.unqueued (h : Frame c c') (hz : c.batchDepth = 0) (hun : Unqueued c) :
    Unqueued c' :=
  fun hm => h.unbatched hz (hun (h.revisionMode ▸ hm))

theorem pendingWrites_of_unbatched (hun : Unbatched c) (d : SlotId) : ¬ pendingWrites c d := by
  rintro ⟨-, hd, -⟩
  rw [hun.1] at hd
  cases hd

/-- The read of a cell forces its reader only if the cell is outdated. -/
theorem Replaced.outdated {c0 : Context τ V} {D : SlotId → Prop} {d : SlotId}
    (h : Replaced c0 c1 d) (hc : Coherent D c) (hrew : Rewires x c c0)
    (hx : ¬ Grounded c x) (hev : Evolves none c0 c1) (hc1 : Coherent (fun _ => False) c1) :
    Outdated c d := by
  obtain ⟨hng, hg, s0, old, new, hs0, hold, hnew, hchg⟩ := h
  obtain ⟨s, hs, hsame, -⟩ := hrew.of_computed hs0
  rw [hsame] at hold hchg
  refine ⟨s, old, new, hs, ?_, hold, ?_, hchg⟩
  · by_contra hup
    rw [Bool.not_eq_false] at hup
    exact hng (hrew.grounded (.inl hx) (hc.grounded d s hs hup))
  · exact (fromScratch_congr hrew.recipe).1
      ((fromScratch_congr hev.recipe).1 (hc1.fromScratch hg hnew))

/-! ## Closures -/

/-- With nothing queued, the end of a batch walks nowhere. -/
theorem walkBatched_of_unbatched (hun : Unbatched c) : c.walkBatched = c := by
  obtain ⟨hcells, hclears, hslots⟩ := hun
  have hclear : c.clearBatched = c := by
    cases c
    simp_all [clearBatched]
  simp [walkBatched, hcells, hclears, hslots, hclear, sortDedup, markFrontier,
    clearFrontier, rootStack, scheduleEffects]

theorem finishBatch_of_unbatched (hmode : c.revisionMode = false)
    (hun : c.batchDepth = 1 → Unbatched c) (hrun : finishBatch flushNested c = .ok () c') :
    c' = { c with batchDepth := c.batchDepth - 1 } := by
  unfold finishBatch at hrun
  split at hrun
  · dsimp only at hrun
    split at hrun
    · have hone : c.batchDepth = 1 := by omega
      have hun' : Unbatched { c with batchDepth := c.batchDepth - 1 } := hun hone
      rw [flushBatchedInvalidations, if_neg (by simp [hmode]), walkBatched_of_unbatched hun']
        at hrun
      exact flushNested_eq hrun
    · cases hrun
      rfl
  · cases hrun

/-- The steps of a closure of effect `x` that does not write. -/
structure Coalesces (x : SlotId) (clean : Prop) (c c' : Context τ V) : Prop where
  unbatched : Unqueued c → Unqueued c'
  others : ∀ i, i ≠ x → Spares i c c'
  self : clean → Unqueued c → ∀ r, Done x r c → Done x r c'

theorem Coalesces.trans {clean clean1 clean2 : Prop} (h1 : Coalesces x clean1 c c1)
    (h2 : Coalesces x clean2 c1 c') (hc1 : clean → clean1) (hc2 : clean → clean2) :
    Coalesces x clean c c' where
  unbatched hun := h2.unbatched (h1.unbatched hun)
  others i hi := (h1.others i hi).trans (h2.others i hi)
  self hclean hun r hd := h2.self (hc2 hclean) (h1.unbatched hun) r (h1.self (hc1 hclean) hun r hd)

theorem Coalesces.of_spares (hun : Unqueued c → Unqueued c') (h : ∀ i, Spares i c c') :
    Coalesces x True c c' :=
  ⟨hun, fun i _ => h i, fun _ _ => (h x).done⟩

instance readOnly_closed : EffectFn.Closed (EffectFn.ReadOnly mode : EffectFn τ V → Prop) where
  get h v := h v
  set h := h.elim
  batch h := h.2
  source h k := h k
  computed h k := h k
  effect h := h

/-- What is known while effect `x` runs. -/
structure BodyReady (mode : Bool) (x : SlotId) (c : Context τ V) : Prop where
  sound : Sound (EffectFn.ReadOnly mode) (fun _ _ => False) c
  mode : c.revisionMode = mode
  effect : ∃ e, c.nodes x = some (.effect e)
  observed : RunObserved x c
  unbatched : c.batchDepth = 0 → Unqueued c

theorem BodyReady.next (h : BodyReady mode x c)
    (hk : BodyKeeps (EffectFn.ReadOnly mode) (fun _ _ => False) x c c') : BodyReady mode x c' := by
  obtain ⟨e, he⟩ := h.effect
  refine ⟨hk.sound, hk.frame.revisionMode.trans h.mode, hk.frame.effect x e he, hk.observed,
    fun hz => ?_⟩
  rw [hk.frame.depth] at hz
  exact hk.frame.unqueued hz (h.unbatched hz)

theorem BodyReady.addNode {n : Node τ V} {all : List SlotId} (h : BodyReady mode x c)
    (hs : Sound (EffectFn.ReadOnly mode) (fun _ _ => False) c1) (hframe : Frame c c1)
    (hc1 : c1 = c.addNode n all) : Coalesces x True c c1 ∧ BodyReady mode x c1 := by
  refine ⟨?_, h.next ⟨hs, hframe, h.observed.addNode h.sound.newId h.effect hframe hc1⟩⟩
  rw [hc1]
  exact .of_spares (fun h => h) fun i => spares_addNode h.sound.newId

/-- A batch in a closure: nothing is queued, so its end changes the depth only. -/
theorem batch_coalesces {clean : Prop} {body : M τ V (Option Nat × List V)}
    {r : Option Nat × List V} (h : BodyReady false x c)
    (hbody : ∀ {c2}, body { c with batchDepth := c.batchDepth + 1 } = .ok r c2 →
      BodyKeeps (EffectFn.ReadOnly false) (fun _ _ => False) x
          { c with batchDepth := c.batchDepth + 1 } c2 ∧
        Coalesces x clean { c with batchDepth := c.batchDepth + 1 } c2)
    (hrun : batch flushNested body c = .ok r c') : Coalesces x clean c c' := by
  unfold batch at hrun
  split at hrun
  · rename_i a c2 hb
    split at hrun
    · rename_i c3 hfin
      cases hrun
      obtain ⟨hk, hco⟩ := hbody hb
      have hdepth : c2.batchDepth = c.batchDepth + 1 := hk.frame.depth
      have hc' := finishBatch_of_unbatched (hk.frame.revisionMode.trans h.mode)
        (fun hone => hco.unbatched (h.unbatched (by omega))
          (hk.frame.revisionMode.trans h.mode)) hfin
      have hopen : Coalesces x True c { c with batchDepth := c.batchDepth + 1 } :=
        .of_spares (fun h => h) fun i => .of_nodes rfl rfl rfl fun h => h
      have hclose : Coalesces x True c2 c' := by
        rw [hc']
        exact .of_spares (fun h => h) fun i => .of_nodes rfl rfl rfl fun h => h
      exact (hopen.trans hco (fun _ => trivial) id).trans hclose id fun _ => trivial
    · cases hrun
  · split at hrun <;> cases hrun

variable [DecidableEq τ]

theorem Done.read {out : SlotId → SlotId → Prop} (hs : Sound R out c) (hun : Unqueued c) {r : Nat}
    (hd : Done x r c) {k : Cell τ} {v : V} (hread : readTracked refresh x k c = .ok v c1)
    (hclean : c.revisionMode = false → ¬ Outdated c k.id) : Done x r (c1.observe x k.id v) := by
  obtain ⟨e, he, rfl, hdone⟩ := hd
  obtain ⟨m, f, hrew, -, hev, hc1, hg, -, hmem, hm, hf, hobs⟩ := hs.coherent.effectRead he hread
  have hng := not_grounded_effect he
  obtain ⟨f', hf', -, hnew⟩ := hev.effect x _ hm
  rw [hf] at hf'
  cases hf'
  have hmode : c1.revisionMode = c.revisionMode := by rw [hev.revisionMode, hrew.frame]
  have hoff : c.revisionMode = true → c1.scheduledEffects x = false := fun hmd => by
    rw [hev.quiet (by rw [hrew.frame]; exact hmd), hrew.frame]
    exact hdone.descheduled hmd
  have hsettled : c.revisionMode = false → ∀ d ∈ e.dependencies,
      Grounded (c.registerDependency k.id x) d := fun hmd d hd =>
    hrew.grounded (.inl hng) (hdone.settled hmd d hd)
  have hff : f = false := by
    by_contra hft
    rw [Bool.not_eq_false] at hft
    cases hmd : c.revisionMode with
    | false =>
      obtain hforced | ⟨-, d, hd, hrep⟩ := hev.blamed x _ _ hm hf hft
      · rw [hdone.unforced] at hforced
        cases hforced
      · rcases (hmem d).1 hd with hd | rfl
        · exact hrep.1 (hsettled hmd d hd)
        · exact hclean hmd (hrep.outdated hs.coherent hrew hng hev
            (hc1.mono (pendingWrites_of_unbatched (hun hmd))))
    | true =>
      obtain hforced | hsch := hnew hft
      · rw [hdone.unforced] at hforced
        cases hforced
      · rw [hoff hmd] at hsch
        cases hsch
  have hsame : SameCells c1 (c1.observe x k.id v) := by
    rw [hobs]
    exact sameCells_setEffect hf rfl
  refine ⟨{ e with dependencies := m, forceRun := f, observed := e.observed ++ [(k.id, v)] },
    by rw [hobs, setNode_same], rfl, hff, fun hmd d hd => ?_, fun hmd => ?_⟩
  · have hmd' : c.revisionMode = false := hmode ▸ hsame.revisionMode ▸ hmd
    rcases (hmem d).1 hd with hd | rfl
    · exact hsame.grounded (hev.grounded d (hsettled hmd' d hd)).1
    · exact hsame.grounded hg
  · rw [hobs]
    exact hoff (hmode ▸ hsame.revisionMode ▸ hmd)

theorem refresh_grounded {d : SlotId} (hg : Grounded c d) : refresh d c = .ok false c := by
  unfold refresh refreshSlot
  obtain ⟨s, hs⟩ | ⟨s, hs, hup, -⟩ := hg.cases'
  · simp [hs]
  · simp [hs, hup]

theorem anyChanged_grounded : ∀ {ds : List SlotId}, (∀ d ∈ ds, Grounded c d) →
    anyChanged ds c = .ok false c
  | [], _ => rfl
  | d :: ds, h => by
    have ih := anyChanged_grounded fun d' hd' => h d' (mem_cons_of_mem d hd')
    unfold anyChanged
    split
    · rw [refresh_grounded (h d mem_cons_self)]
      exact ih
    · exact ih

theorem effectShouldRun_evolves {D : SlotId → Prop} (hc : Coherent D c) {b : Bool}
    (hrun : effectShouldRun x c = .ok b c') : Evolves none c c' := by
  unfold effectShouldRun at hrun
  split at hrun
  · split at hrun
    · cases hrun
      exact .refl none c
    · exact (anyChanged_spec hc hrun).2.1
  · cases hrun
    exact .refl none c

theorem Done.skipped {r : Nat} (h : Done x r c) (hmode : c.revisionMode = false) :
    effectShouldRun x c = .ok false c := by
  obtain ⟨e, he, -, hd⟩ := h
  simp only [effectShouldRun, he, hd.unforced, Bool.false_eq_true, if_false]
  exact anyChanged_grounded (hd.settled hmode)

variable [BEq V]

/-- The closure reads no outdated cell; in the revision engine it may. -/
def CleanBody (mode : Bool) (x : SlotId) (t : EffectFn τ V) (c : Context τ V) : Prop :=
  mode = false → ∀ p ∈ bodyReads x t c, ¬ Outdated p.2 p.1

theorem CleanBody.next {t t' : EffectFn τ V} (h : CleanBody mode x t c)
    (hread : bodyReads x t' c1 ⊆ bodyReads x t c) : CleanBody mode x t' c1 :=
  fun hm p hp => h hm p (hread hp)

theorem runBody_coalesces [LawfulBEq V] : ∀ {mode : Bool} {t : EffectFn τ V} {c c' : Context τ V}
    {r : Option Nat × List V}, BodyReady mode x c → t.ReadOnly mode →
    runBody flushNested x t c = .ok r c' → Coalesces x (CleanBody mode x t c) c c'
  | mode, .done cleanup result, c, c', r, _, _, hrun => by
    cases hrun
    exact ⟨fun h => h, fun i _ => .refl i c, fun _ _ _ h => h⟩
  | mode, .get k next, c, c', r, h, ht, hrun => by
    obtain ⟨v, c1, hv, hrun⟩ := bind_eq_ok.1 hrun
    obtain ⟨_, c2, hc2, hrun⟩ := bind_eq_ok.1 hrun
    cases hc2
    obtain ⟨e, he⟩ := h.effect
    obtain ⟨hs2, hframe, hobs2⟩ := h.sound.effectRead (fun _ => id) he h.observed hv
    obtain ⟨m, f, hr⟩ := h.sound.coherent.effectRead he hv
    have h1 : Coalesces x (CleanBody mode x (.get k next) c) c (c1.observe x k.id v) := by
      refine ⟨fun hun => ?_, fun i hi => ?_, fun hclean hun r hd => ?_⟩
      · rw [hr.observe]
        show Unqueued c1
        rw [hr.evolves.frame, hr.rewires.frame]
        exact hun
      · rw [hr.observe]
        exact ((hr.rewires.spares he hi).trans (hr.evolves.spares i)).trans
          (spares_setEffect hr.node₁ rfl hi)
      · exact hd.read h.sound hun hv fun hm => hclean (h.mode ▸ hm) (k.id, c) (by simp [bodyReads])
    exact h1.trans (runBody_coalesces (h.next ⟨hs2, hframe, hobs2⟩) (ht v) hrun) id
      fun hclean => hclean.next (by simp [bodyReads, hv])
  | mode, .set k v next, c, c', r, _, ht, _ => ht.elim
  | mode, .batch body next, c, c', r, h, ht, hrun => by
    obtain ⟨rfl, ht, hnext⟩ := ht
    obtain ⟨result, c1, hb, hrun⟩ := bind_eq_ok.1 hrun
    have hin : BodyReady false x { c with batchDepth := c.batchDepth + 1 } :=
      ⟨beginBatch_sound h.sound, h.mode, h.effect, ⟨h.observed.whole, h.observed.hold⟩,
        fun hz => absurd hz (Nat.succ_ne_zero _)⟩
    have hk : BodyKeeps (EffectFn.ReadOnly false) (fun _ _ => False) x c c1 :=
      batch_bodyKeeps (runBody_spec (fun _ => id) hin.sound hin.effect hin.observed ht) hb
    have h1 := batch_coalesces h (fun hbody =>
      ⟨runBody_spec (fun _ => id) hin.sound hin.effect hin.observed ht hbody,
        runBody_coalesces hin ht hbody⟩) hb
    exact h1.trans (runBody_coalesces (h.next hk) (hnext _) hrun)
      (fun hclean => hclean.next (by simp [bodyReads]))
      fun hclean => hclean.next (by simp [bodyReads, hb])
  | mode, .source v tag next, c, c', r, h, ht, hrun => by
    obtain ⟨k, c1, hnew, hrun⟩ := bind_eq_ok.1 hrun
    obtain ⟨hc1, hs1, hframe⟩ := newSource_spec h.sound hnew
    obtain ⟨h1, hready⟩ := h.addNode hs1 hframe hc1
    exact h1.trans (runBody_coalesces hready (ht k) hrun)
      (fun _ => trivial) fun hclean => hclean.next (by simp [bodyReads, hnew])
  | mode, .computed compute tag next, c, c', r, h, ht, hrun => by
    obtain ⟨k, c1, hnew, hrun⟩ := bind_eq_ok.1 hrun
    obtain ⟨⟨s, hc1⟩, hs1, hframe⟩ := slotWithEquals_spec h.sound
      (fun f hf old new h => by cases hf; exact eq_of_beq h) hnew
    obtain ⟨h1, hready⟩ := h.addNode hs1 hframe hc1
    exact h1.trans (runBody_coalesces hready (ht k) hrun)
      (fun _ => trivial) fun hclean => hclean.next (by simp [bodyReads, hnew])
  | mode, .effect run next, c, c', r, h, ht, hrun => by
    obtain ⟨k, c1, hnew, hrun⟩ := bind_eq_ok.1 hrun
    obtain ⟨en, c0, hc0, hadded, hs0, hframe, hflush⟩ := newEffect_spec h.sound ht.1 hnew
    cases flushNested_eq hflush
    have h1 : Coalesces x True c c1 := by
      refine .of_spares (fun hun => ?_) fun i => hc0 ▸ spares_newEffect h.sound.newId
      rw [hc0, (scheduleEffect_schedules _ (c.newId, false)).frame]
      exact hun
    have hobs1 : RunObserved x c1 := h.observed.addEffect h.sound.newId h.effect hadded hc0
    exact h1.trans (runBody_coalesces (h.next ⟨hs0, hframe, hobs1⟩) (ht.2 k) hrun)
      (fun _ => trivial) fun hclean => hclean.next (by simp [bodyReads, hnew])

end Body

/-! ## One effect -/

section Step

variable {mode : Bool} {i x : SlotId} {c c1 c2 c' : Context τ V} {e : EffectNode τ V} {r : Nat}

theorem bodyReady_start (hs : Sound (EffectFn.ReadOnly mode) (fun i _ => False ∨ i = x) c)
    (hmode : c.revisionMode = mode) (hlist : c.batchDepth = 0 → Unqueued c)
    (he : c.nodes x = some (.effect e)) (hoff : c.scheduledEffects x = false) :
    BodyReady mode x ((c.startRun x).runCleanup e.cleanup) := by
  have hk := runCleanup_keeps (startRun_sound hs (fun _ => .inr rfl) he hoff) e.cleanup
  refine ⟨hk.sound.leave fun i d hi => hi.2 (hi.1.resolve_left id),
    hk.frame.revisionMode.trans hmode, hk.frame.effect x e he, hk.observed,
    fun hz => ?_⟩
  rw [hk.frame.depth] at hz
  exact hk.frame.unqueued hz (hlist hz)

theorem done_start (he : c.nodes x = some (.effect e)) (hoff : c.scheduledEffects x = false) :
    Done x (e.runs + 1) ((c.startRun x).runCleanup e.cleanup) := by
  refine (spares_runCleanup _).done _ ?_
  have hrew := detach_rewires c x
  have hm := detach_effect he
  simp only [startRun, modifyEffect, hm]
  refine ⟨_, setNode_same .., rfl, rfl, fun _ d hd => ?_, fun _ => ?_⟩
  · cases hd
  · show (c.detach x).scheduledEffects x = false
    rw [hrew.frame]
    exact hoff

theorem spares_pop (h : c.popScheduledEffect = (some x, c')) : Spares i c (c'.countRun x) := by
  obtain ⟨-, rest, rfl, -⟩ := popped_some h
  refine .of_nodes rfl rfl rfl fun hoff => ?_
  simp [countRun, descheduleEffect, hoff]

/-- What is known between two rounds of the drain. -/
structure DrainReady (mode : Bool) (c : Context τ V) : Prop where
  sound : Sound (EffectFn.ReadOnly mode) (fun _ _ => False) c
  mode : c.revisionMode = mode
  unbatched : c.batchDepth = 0 → Unqueued c

variable (h : DrainReady mode c)
include h

theorem DrainReady.frame (hs : Sound (EffectFn.ReadOnly mode) (fun _ _ => False) c')
    (hframe : Frame c c') : DrainReady mode c' := by
  refine ⟨hs, hframe.revisionMode.trans h.mode, fun hz => ?_⟩
  rw [hframe.depth] at hz
  exact hframe.unqueued hz (h.unbatched hz)

theorem DrainReady.begin :
    DrainReady mode { c with flushingEffects := true, drainRuns := fun _ => 0 } ∧
      Spares i c { c with flushingEffects := true, drainRuns := fun _ => 0 } :=
  ⟨⟨h.sound.congr (fun _ hi => hi) rfl, h.mode,
    h.unbatched⟩, .of_nodes rfl rfl rfl fun hoff => hoff⟩

theorem DrainReady.pop (hpop : c.popScheduledEffect = (some x, c1)) :
    Sound (EffectFn.ReadOnly mode) (fun i _ => False ∨ i = x) (c1.countRun x) ∧
      (∀ d, Popped x d (c1.countRun x)) ∧ Frame c (c1.countRun x) := by
  obtain ⟨hs1, hpopped, hframe1⟩ := popScheduledEffect_some h.sound hpop
  have hframe2 : Frame c1 (c1.countRun x) := .of_frame rfl fun _ h => h
  exact ⟨hs1.congr (fun _ hi => hi) rfl, fun d => hpopped d id, hframe1.trans hframe2⟩

variable [DecidableEq τ] [BEq V]

omit h in
/-- An invariant of the rounds (over the fuel that is left, the iterations counted so far and the
context) holds in a context the end of the drain agrees with. -/
theorem drainLoop_induction {I : Nat → Nat → Context τ V → Prop}
    (hstep : ∀ {fuel n c x c1 c2}, I (fuel + 1) n c → c.popScheduledEffect = (some x, c1) →
      ¬ c1.drainBudget ≤ n + 1 → runEffect flushNested x (c1.countRun x) = .ok () c2 →
      I fuel (n + 1) c2) : ∀ {fuel n : Nat} {c c' : Context τ V}, I fuel n c →
      drainLoop (runEffect flushNested) fuel n c = .ok () c' →
      ∃ fuel' m c1, I fuel' m c1 ∧ ∀ i, Spares i c1 c'
  | 0, _, _, _, _, hrun => by cases hrun
  | fuel + 1, n, c, c', h, hrun => by
    obtain ⟨c1, hpop, rfl⟩ | ⟨x, c1, hpop, rfl | ⟨hbudget, c2, hrun2, hrest⟩⟩ :=
      drainLoop_cases hrun
    · refine ⟨fuel + 1, n, c, h, fun i => ?_⟩
      rw [(popped_none hpop).1]
      exact .of_nodes rfl rfl rfl fun hoff => hoff
    · exact ⟨fuel + 1, n, c, h, fun i =>
        (spares_pop hpop).trans (.of_nodes rfl rfl rfl fun hoff => hoff)⟩
    · exact drainLoop_induction hstep (hstep h hpop hbudget hrun2) hrest

omit h in
/-- The reads of a round: those of the effect itself, and those of the rounds after it. -/
theorem drainReads_round {fuel n : Nat} (hpop : c.popScheduledEffect = (some x, c1))
    (hbudget : ¬ c1.drainBudget ≤ n + 1)
    (hrun : runEffect flushNested x (c1.countRun x) = .ok () c2) : drainReads i (fuel + 1) n c =
      (if x = i then effectReads i (c1.countRun x) else []) ++ drainReads i fuel (n + 1) c2 := by
  have hbudget' : ¬ (c1.countRun x).drainBudget ≤ n + 1 := hbudget
  simp only [drainReads, hpop, if_neg hbudget', hrun]

variable [LawfulBEq V]

section Round

variable (hpop : c.popScheduledEffect = (some x, c1))
include hpop

/-- An effect that runs is done at the start, and its closure coalesces. -/
theorem DrainReady.run {start c3 c4 : Context τ V} {r : Option Nat × List V}
    (hshould : effectShouldRun x (c1.countRun x) = .ok true c3)
    (he : (c3.removePendingEffect x).nodes x = some (.effect e))
    (hstart : start = ((c3.removePendingEffect x).startRun x).runCleanup e.cleanup)
    (hbody : runBody flushNested x e.run start = .ok r c4) :
    Coalesces x (CleanBody mode x e.run start) start c4 ∧ Done x (e.runs + 1) start ∧
      (c.batchDepth = 0 → Unqueued start) := by
  subst hstart
  obtain ⟨hs1, hpopped, hframe1⟩ := h.pop hpop
  obtain ⟨hs2, hframe2, -⟩ := effectShouldRun_spec hs1 (fun d _ => hpopped d) hshould
  obtain ⟨hs3, hoff, hframe3⟩ := removePendingEffect_sound hs2 (fun _ => .inr rfl)
  have hframe := (hframe1.trans hframe2).trans hframe3
  have hready := bodyReady_start hs3 (hframe.revisionMode.trans h.mode)
    (fun hz => hframe.unqueued (hframe.depth ▸ hz) (h.unbatched (hframe.depth ▸ hz))) he hoff
  have hk := runCleanup_keeps (startRun_sound hs3 (fun _ => .inr rfl) he hoff) e.cleanup
  exact ⟨runBody_coalesces hready (hs3.allowed x e he) hbody, done_start he hoff,
    fun hz => hready.unbatched (hk.frame.depth.trans (hframe.depth.trans hz))⟩

variable (hrun : runEffect flushNested x (c1.countRun x) = .ok () c2)
include hrun

theorem DrainReady.next : DrainReady mode c2 ∧ c2.batchDepth = c.batchDepth := by
  obtain ⟨hs1, hpopped, hframe1⟩ := h.pop hpop
  obtain ⟨hs2, hframe2⟩ := runEffect_spec hs1 (fun d _ => hpopped d) hrun
  exact ⟨h.frame hs2 (hframe1.trans hframe2), (hframe1.trans hframe2).depth⟩

theorem DrainReady.spares (hi : i ≠ x) : Spares i c c2 := by
  refine (spares_pop hpop).trans ?_
  have hc := (h.pop hpop).1.coherent
  obtain hb | ⟨c3, hb, ⟨-, rfl⟩ | ⟨e, r, c4, he, hbody, rfl⟩⟩ := runEffect_cases hrun
  · exact (effectShouldRun_evolves hc hb).spares i
  · exact ((effectShouldRun_evolves hc hb).spares i).trans spares_removePendingEffect
  · obtain ⟨hco, -⟩ := h.run hpop hb he rfl hbody
    exact (((((effectShouldRun_evolves hc hb).spares i).trans spares_removePendingEffect).trans
      (spares_startRun he hi)).trans (spares_runCleanup _)).trans
      ((hco.others i hi).trans (spares_storeCleanup _))

theorem DrainReady.done (hd : Done i r c) : Done i r c2 := by
  by_cases hi : i = x
  · subst hi
    have hd1 : Done i r (c1.countRun i) := (spares_pop hpop).done r hd
    cases hmode : c.revisionMode with
    | true =>
      obtain ⟨e, -, -, hdone⟩ := hd
      have hon := (popped_some hpop).1
      rw [hdone.descheduled hmode] at hon
      cases hon
    | false =>
      have hskip := hd1.skipped ((h.pop hpop).2.2.revisionMode.trans hmode)
      obtain hb | ⟨c3, hb, -⟩ := runEffect_cases hrun
      · rw [hskip] at hb
        cases hb
        exact hd1
      · rw [hskip] at hb
        cases hb
  · exact (h.spares hpop hrun hi).done r hd

/-- The effect that is popped runs at most once, and is done if it did. -/
theorem DrainReady.once (hr : Ran x r c) (hdepth : c.batchDepth = 0)
    (hclean : ∀ {c3 e}, effectShouldRun x (c1.countRun x) = .ok true c3 →
      (c3.removePendingEffect x).nodes x = some (.effect e) →
      CleanBody mode x e.run (((c3.removePendingEffect x).startRun x).runCleanup e.cleanup)) :
    Ran x r c2 ∨ Done x (r + 1) c2 := by
  have hc := (h.pop hpop).1.coherent
  have hr1 : Ran x r (c1.countRun x) := (spares_pop hpop).ran r hr
  obtain hb | ⟨c3, hb, ⟨-, rfl⟩ | ⟨e, result, c4, he, hbody, rfl⟩⟩ := runEffect_cases hrun
  · exact .inl (((effectShouldRun_evolves hc hb).spares x).ran r hr1)
  · exact .inl ((((effectShouldRun_evolves hc hb).spares x).trans
      spares_removePendingEffect).ran r hr1)
  · obtain ⟨hco, hstart, hun⟩ := h.run hpop hb he rfl hbody
    obtain ⟨e', he', hruns⟩ := (((effectShouldRun_evolves hc hb).spares x).trans
      spares_removePendingEffect).ran r hr1
    rw [he] at he'
    cases he'
    rw [hruns] at hstart
    exact .inr ((spares_storeCleanup _).done _ (hco.self (hclean hb he) (hun hdepth) _ hstart))

end Round

/-! ## The drain -/

theorem flushEffects_done (hd : Done i r c) (hrun : flushEffects c = .ok () c') : Done i r c' := by
  obtain ⟨-, rfl⟩ | ⟨-, hloop⟩ := flushEffects_loop hrun
  · exact hd
  · obtain ⟨hready, hspares⟩ := h.begin (i := i)
    obtain ⟨_, _, c1, ⟨-, hd1⟩, hend⟩ := drainLoop_induction
      (I := fun _ _ c => DrainReady mode c ∧ Done i r c)
      (fun hI hpop _ hrun2 => ⟨(hI.1.next hpop hrun2).1, hI.1.done hpop hrun2 hI.2⟩)
      ⟨hready, hspares.done r hd⟩ hloop
    exact (hend i).done r hd1

/-- The invariant of a drain in which the closure of effect `i` reads no outdated cell. -/
structure OnceInv (mode : Bool) (i : SlotId) (r fuel n : Nat) (c : Context τ V) : Prop where
  ready : DrainReady mode c
  depth : c.batchDepth = 0
  clean : mode = false → ∀ p ∈ drainReads i fuel n c, ¬ Outdated p.2 p.1
  once : Ran i r c ∨ Done i (r + 1) c

omit h in
theorem OnceInv.next {fuel n : Nat} (h : OnceInv mode i r (fuel + 1) n c)
    (hpop : c.popScheduledEffect = (some x, c1)) (hbudget : ¬ c1.drainBudget ≤ n + 1)
    (hrun : runEffect flushNested x (c1.countRun x) = .ok () c2) :
    OnceInv mode i r fuel (n + 1) c2 := by
  obtain ⟨hready, hdepth⟩ := h.ready.next hpop hrun
  have hclean := h.clean
  rw [drainReads_round hpop hbudget hrun] at hclean
  refine ⟨hready, hdepth.trans h.depth, fun hm p hp => hclean hm p (mem_append_right _ hp), ?_⟩
  rcases h.once with hr | hd
  · by_cases hi : i = x
    · subst hi
      refine h.ready.once hpop hrun hr h.depth fun hb he hm p hp => ?_
      refine hclean hm p (mem_append_left _ ?_)
      simpa [effectReads, hb, he] using hp
    · exact .inl ((h.ready.spares hpop hrun hi).ran r hr)
  · exact .inr (h.ready.done hpop hrun hd)

theorem flushEffects_once (hdepth : c.batchDepth = 0)
    (hr : Ran i r c) (hclean : mode = false → ∀ p ∈ flushReads i c, ¬ Outdated p.2 p.1)
    (hrun : flushEffects c = .ok () c') : Ran i r c' ∨ Ran i (r + 1) c' := by
  obtain ⟨-, rfl⟩ | ⟨-, hloop⟩ := flushEffects_loop hrun
  · exact .inl hr
  · obtain ⟨hready, hspares⟩ := h.begin (i := i)
    obtain ⟨_, _, c1, hinv, hend⟩ := drainLoop_induction (I := OnceInv mode i r)
      (fun hI hpop hbudget hrun2 => hI.next hpop hbudget hrun2)
      ⟨hready, hdepth, hclean, .inl (hspares.ran r hr)⟩ hloop
    rcases hinv.once with hr1 | ⟨e, he, hruns, -⟩
    · exact .inl ((hend i).ran r hr1)
    · exact .inr ((hend i).ran (r + 1) ⟨e, he, hruns⟩)

end Step

end Context

end Lazily
