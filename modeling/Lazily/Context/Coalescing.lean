import Lazily.Context.Proof.Once

/-!
# How many runs one change causes

A change is one unbatched `set` or one whole outermost batch. `effects_run_once`: it runs an effect
at most once, if in the drain the closure of the effect reads no cell that is outdated at that
moment. Without the condition this fails (`siblings_run_twice`): an effect that reads two computed
cells off one source runs twice. The second cell is recomputed while the effect is running, the edge
is already there, and the notification enters the running effect into the queue again.
-/

namespace Lazily

open Lib Context Unwind List Change

variable {τ V : Type}

namespace Context

section Batch

variable {mode : Bool} {i x : SlotId} {c c' : Context τ V} {r : Nat}

theorem Stirs.ran (h : Stirs (fun _ => False) c c') (hr : Ran i r c) : Ran i r c' := by
  obtain ⟨e, he, rfl⟩ := hr
  obtain ⟨e', he', -, hsame⟩ := (he ▸ h.alike i).to_effect
  exact ⟨e', he', by rw [hsame id]⟩

theorem spares_setSource {s s' : SourceNode τ V} (hs : c.nodes x = some (.source s)) :
    Spares i c (c.setNode x (some (.source s'))) :=
  .of_same (fun _ he => (effect_setSource hs).2 he) (fun _ hg => grounded_setSource hs hg) rfl
    fun h => h

variable (h : AtRest (EffectFn.ReadOnly mode) c)
include h

theorem AtRest.drainReady (hmode : c.revisionMode = mode) : DrainReady mode c :=
  ⟨h.sound, hmode, fun hz _ => h.unbatched hz⟩

/-- At rest an effect is done, unless a drain was cut short. -/
theorem AtRest.done {e : EffectNode τ V}
    (hex : c.lastDrainExhaustion = none) (he : c.nodes i = some (.effect e)) : Done i e.runs c := by
  have hw := fun d => h.sound.watched hex i e d id he
  have hoff := h.quiet hex i
  refine ⟨e, he, rfl, ?_, fun _ d => (hw d).settled hoff, fun _ => hoff⟩
  by_contra hf
  rw [(hw i).forced (by simpa using hf)] at hoff
  cases hoff

variable [DecidableEq τ] [BEq V] {k : Source τ} {v : V} {flush : M τ V Unit}

omit h in
/-- A write in a batch: the source is stored and queued. -/
theorem setSource_inBatch (hpos : 0 < c.batchDepth)
    (hrun : setSource flush k v c = .ok () c') : Spares i c c' := by
  unfold setSource at hrun
  split at hrun
  · rename_i s hs
    split at hrun
    · split at hrun
      · have hpos' : 0 < (c.setNode k.id (some (.source { s with value := v }))).batchDepth := hpos
        rw [propagateSource, if_pos hpos'] at hrun
        cases hrun
        exact (spares_setSource hs).trans (.of_nodes rfl rfl rfl fun h => h)
      · cases hrun
        exact .refl i c
    · cases hrun
  · cases hrun

omit h in
theorem mergeSource_inBatch {policy : V → V → V} (hpos : 0 < c.batchDepth)
    (hrun : mergeSource flush k policy v c = .ok () c') : Spares i c c' := by
  unfold mergeSource at hrun
  split at hrun
  · split at hrun
    · exact setSource_inBatch hpos hrun
    · cases hrun
  · cases hrun

omit h in
theorem run_append {a b : List (Op τ V)} {c c' : Context τ V} {replies : List (Reply τ V)}
    (hrun : run (a ++ b) c = .ok replies c') :
    ∃ r1 c1 r2, run a c = .ok r1 c1 ∧ run b c1 = .ok r2 c' := by
  induction a generalizing c replies with
  | nil => exact ⟨[], c, replies, rfl, hrun⟩
  | cons op ops ih =>
    obtain ⟨reply, c1, hstep, hrun⟩ := bind_eq_ok.1 hrun
    obtain ⟨rest, c2, hrest, hret⟩ := bind_eq_ok.1 hrun
    obtain ⟨-, rfl⟩ := pure_eq_ok.1 hret
    obtain ⟨r1, c3, r2, h1, h2⟩ := ih hrest
    exact ⟨reply :: r1, c3, r2, bind_eq_ok.2 ⟨reply, c1, hstep, bind_eq_ok.2 ⟨r1, c3, h1, rfl⟩⟩, h2⟩

variable [LawfulBEq V]

/-- An operation in a batch runs no effect but new ones. -/
theorem step_inBatch {op : Op τ V} {reply : Reply τ V}
    (hmode : c.revisionMode = mode) (hpos : 0 < c.batchDepth) (hplain : op.Plain)
    (hread : op.Within (EffectFn.ReadOnly mode)) (hend : op = .endBatch → 1 < c.batchDepth)
    (hrun : step op c = .ok reply c') :
    (Done i r c → Done i r c') ∧ ((∀ run, op ≠ .effect run) → Ran i r c → Ran i r c') := by
  have spared : Spares i c c' →
      (Done i r c → Done i r c') ∧ ((∀ run, op ≠ .effect run) → Ran i r c → Ran i r c') :=
    fun hs => ⟨hs.done r, fun _ => hs.ran r⟩
  cases op with
  | source v tag =>
    obtain ⟨k, hrun, -⟩ := map_eq_ok.1 hrun
    obtain ⟨rfl, -⟩ := newSource_spec h.sound hrun
    exact spared (spares_addNode h.sound.newId)
  | computed compute tag =>
    obtain ⟨k, hrun, -⟩ := map_eq_ok.1 hrun
    obtain ⟨⟨s, rfl⟩, -⟩ := slotWithEquals_spec h.sound
      (fun f hf old new h => by cases hf; exact eq_of_beq h) hrun
    exact spared (spares_addNode h.sound.newId)
  | slot compute tag =>
    obtain ⟨k, hrun, -⟩ := map_eq_ok.1 hrun
    obtain ⟨⟨s, rfl⟩, -⟩ := slotWithEquals_spec h.sound (fun f hf => by cases hf) hrun
    exact spared (spares_addNode h.sound.newId)
  | effect run =>
    obtain ⟨k, hrun, -⟩ := map_eq_ok.1 hrun
    obtain ⟨en, c0, hc0, -, hs0, hframe, hflush⟩ := newEffect_spec h.sound hread hrun
    have hready := (h.drainReady hmode).frame hs0 hframe
    refine ⟨fun hd => flushEffects_done hready ?_ hflush, fun hne => absurd rfl (hne run)⟩
    rw [hc0]
    exact (spares_newEffect h.sound.newId).done r hd
  | get k =>
    obtain ⟨v, hrun, -⟩ := map_eq_ok.1 hrun
    obtain ⟨-, hev, -⟩ := h.sound.read hrun
    exact spared (hev.spares i)
  | readValue k =>
    obtain ⟨v, hrun, -⟩ := map_eq_ok.1 hrun
    obtain ⟨-, hev, -⟩ := readValueUntracked_spec h.sound.coherent hrun
    exact spared (hev.spares i)
  | set k v =>
    obtain ⟨_, hrun, -⟩ := map_eq_ok.1 hrun
    exact spared (setSource_inBatch hpos hrun)
  | merge k policy v =>
    obtain ⟨_, hrun, -⟩ := map_eq_ok.1 hrun
    exact spared (mergeSource_inBatch hpos hrun)
  | beginBatch =>
    obtain ⟨_, hrun, -⟩ := map_eq_ok.1 hrun
    obtain rfl := modify_eq_ok.1 hrun
    exact spared (.of_nodes rfl rfl rfl fun h => h)
  | endBatch =>
    obtain ⟨_, hrun, -⟩ := map_eq_ok.1 hrun
    have hdepth := hend rfl
    have hne : ¬ c.batchDepth - 1 = 0 := by omega
    rw [finishBatch, if_pos hpos] at hrun
    simp only [hne] at hrun
    cases hrun
    exact spared (.of_nodes rfl rfl rfl fun h => h)
  | clear k =>
    obtain ⟨_, hrun, -⟩ := map_eq_ok.1 hrun
    rw [clearComputed, if_pos hpos] at hrun
    cases hrun
    exact spared (.of_nodes rfl rfl rfl fun h => h)
  | clearDependents k =>
    obtain ⟨_, hrun, -⟩ := map_eq_ok.1 hrun
    rw [clearCellDependents, if_pos hpos] at hrun
    cases hrun
    exact spared (.of_nodes rfl rfl rfl fun h => h)
  | setDrainBudget budget =>
    obtain ⟨_, hrun, -⟩ := map_eq_ok.1 hrun
    unfold setDrainBudget at hrun
    split at hrun
    · cases hrun
      exact spared (.of_nodes rfl rfl rfl fun h => h)
    · cases hrun
  | _ => exact hplain.elim

omit h in
/-- The closure of a batch, `n` batches deep in it. -/
theorem run_inBatch : ∀ {ops : List (Op τ V)} {n : Nat} {c c' : Context τ V}
    {replies : List (Reply τ V)}, AtRest (EffectFn.ReadOnly mode) c → c.revisionMode = mode →
    c.batchDepth = n + 1 → balanced n ops = true → (∀ op ∈ ops, op.Plain) →
    (∀ op ∈ ops, op.Within (EffectFn.ReadOnly mode)) →
    (mode = true → ∀ op ∈ ops, op.KeepsCaches) → run ops c = .ok replies c' →
    AtRest (EffectFn.ReadOnly mode) c' ∧ c'.revisionMode = mode ∧ c'.batchDepth = 1 ∧
      (Done i r c → Done i r c') ∧ ((∀ run, .effect run ∉ ops) → Ran i r c → Ran i r c')
  | [], n, c, c', replies, h, hmode, hdepth, hbal, _, _, _, hrun => by
    obtain rfl := run_nil_ok hrun
    have hzero : n = 0 := by simpa [balanced] using hbal
    exact ⟨h, hmode, by omega, id, fun _ => id⟩
  | op :: ops, n, c, c', replies, h, hmode, hdepth, hbal, hplain, hread, hkeep, hrun => by
    obtain ⟨reply, c1, rest, hstep, hrest⟩ := run_cons_ok hrun
    have hp := hplain op mem_cons_self
    have hr := hread op mem_cons_self
    obtain ⟨h1, hmode1, hdepth1⟩ := step_atRest h hp hr
      (fun hm => hkeep (hmode ▸ hm) op mem_cons_self) hstep
    rw [hdepth] at hdepth1
    -- the depth the rest of the closure starts at
    obtain ⟨m, hm, hbal1, hend⟩ : ∃ m, c1.batchDepth = m + 1 ∧ balanced m ops = true ∧
        (op = .endBatch → 1 < c.batchDepth) := by
      cases op with
      | beginBatch => exact ⟨n + 1, hdepth1, hbal, fun h => by cases h⟩
      | endBatch =>
        cases n with
        | zero => cases hbal
        | succ n => exact ⟨n, hdepth1, hbal, fun _ => by omega⟩
      | _ => exact ⟨n, hdepth1, hbal, fun h => by cases h⟩
    obtain ⟨hdone, hran⟩ := step_inBatch h hmode (by omega) hp hr hend hstep
    obtain ⟨h2, hmode2, hdepth2, hdone2, hran2⟩ := run_inBatch h1 (hmode1.trans hmode) hm hbal1
      (fun o ho => hplain o (mem_cons_of_mem _ ho))
      (fun o ho => hread o (mem_cons_of_mem _ ho))
      (fun hm o ho => hkeep hm o (mem_cons_of_mem _ ho)) hrest
    refine ⟨h2, hmode2, hdepth2, fun hd => hdone2 (hdone hd), fun hne hr => ?_⟩
    exact hran2 (fun run hmem => hne run (mem_cons_of_mem _ hmem))
      (hran (fun run hop => hne run (hop ▸ mem_cons_self)) hr)

/-! ## The end of a change -/

omit h in
/-- The revision engine: one bump, one drain. -/
theorem flushEffectsRevision_once {D : SlotId → Prop}
    (h : SoundUpTo (EffectFn.ReadOnly true) D (fun _ _ => False) c) (hmode : c.revisionMode = true)
    (hdepth : c.batchDepth = 0) (hr : Ran i r c)
    (hrun : flushEffectsRevision flushEffects { c with revision := c.revision + 1 } = .ok () c') :
    Ran i r c' ∨ Ran i (r + 1) c' := by
  obtain ⟨c1, hc1⟩ : ∃ c1, c1 = Context.scheduleEffects { c with revision := c.revision + 1 }
    ((c.allEffectIds.filter (staleEffect { c with revision := c.revision + 1 })).map (·, true)) :=
      ⟨_, rfl⟩
  obtain ⟨hb, hframe, hstirs⟩ : Sound (EffectFn.ReadOnly true) (fun _ _ => False) c1 ∧ Frame c c1 ∧
      Stirs (fun _ => False) { c with revision := c.revision + 1 } c1 := h.bump hmode hc1
  have hmode1 := hframe.revisionMode.trans hmode
  rw [flushEffectsRevision, ← hc1] at hrun
  exact flushEffects_once ⟨hb, hmode1, fun _ hm => by rw [hmode1] at hm; cases hm⟩
    (hframe.depth.trans hdepth) (hstirs.ran hr) (fun hm => by cases hm) hrun

theorem setSource_once (hmode : c.revisionMode = mode) (hdepth : c.batchDepth = 0) (hr : Ran i r c)
    (hclean : mode = false → ∀ p ∈ (set k v).reads i c, ¬ Outdated p.2 p.1)
    (hrun : setSource flushEffects k v c = .ok () c') : Ran i r c' ∨ Ran i (r + 1) c' := by
  unfold setSource at hrun
  split at hrun
  · rename_i s hs
    split at hrun
    · split at hrun
      · rename_i hne
        obtain ⟨c0, hc0⟩ : ∃ c0, c0 = c.setNode k.id (some (.source { s with value := v })) :=
          ⟨_, rfl⟩
        have hup : SoundUpTo (EffectFn.ReadOnly mode) (fun j => pendingWrites c0 j ∨ j = k.id)
            (fun _ _ => False) c0 := by
          rw [hc0, (stirs_setSource hs).pendingWrites]
          exact h.sound.setSource hs rfl
        have hr0 : Ran i r c0 := hc0 ▸ (spares_setSource hs).ran r hr
        have hdepth0 : c0.batchDepth = 0 := by rw [hc0]; exact hdepth
        have hmode0 : c0.revisionMode = mode := by rw [hc0]; exact hmode
        have hun0 : Unbatched c0 := by rw [hc0]; exact h.unbatched hdepth
        have hs0 : c0.nodes k.id = some (.source { s with value := v }) := by
          rw [hc0, setNode_same]
        rw [← hc0, propagateSource, if_neg (by omega)] at hrun
        split at hrun
        · rename_i hrev
          cases hmode0.symm.trans hrev
          exact flushEffectsRevision_once hup hrev hdepth0 hr0 hrun
        · rename_i hrev
          have hpush : c0.revisionMode = false := by simpa using hrev
          obtain ⟨hw, hstirs, -⟩ := hup.walked hpush hs0
          have hframe := hstirs.toFrame
          rw [← hstirs.pendingWrites] at hw
          split at hrun
          · rename_i hany
            refine flushEffects_once ⟨hw, hframe.revisionMode.trans hmode0,
              fun _ _ => hframe.unbatched hdepth0 hun0⟩ (hframe.depth.trans hdepth0)
              (hstirs.ran hr0) (fun hm p hp => hclean hm p ?_) hrun
            simpa [reads, flushed, hs, ← hc0, hne, hany] using hp
          · cases hrun
            exact .inl (hstirs.ran hr0)
      · cases hrun
        exact .inl hr
    · cases hrun
  · cases hrun

theorem finishBatch_once (hmode : c.revisionMode = mode)
    (hdepth : c.batchDepth = 1) (hr : Ran i r c) (hclean : mode = false →
      ∀ p ∈ flushReads i (walkBatched { c with batchDepth := 0 }), ¬ Outdated p.2 p.1)
    (hrun : finishBatch flushEffects c = .ok () c') : Ran i r c' ∨ Ran i (r + 1) c' := by
  obtain ⟨c0, hc0⟩ : ∃ c0, c0 = { c with batchDepth := 0 } := ⟨_, rfl⟩
  have hs : SoundUpTo (EffectFn.ReadOnly mode) (batchedSources c0) (fun _ _ => False) c0 := by
    rw [hc0]
    exact h.sound.congr (fun _ hi => hi.2) rfl
  have hr0 : Ran i r c0 := by rw [hc0]; exact hr
  have hmode0 : c0.revisionMode = mode := by rw [hc0]; exact hmode
  have hdepth0 : c0.batchDepth = 0 := by rw [hc0]
  have hrun0 : flushBatchedInvalidations flushEffects c0 = .ok () c' := by
    rw [finishBatch, if_pos (by omega)] at hrun
    simp only [hdepth, Nat.sub_self, if_true] at hrun
    rw [hc0]
    exact hrun
  rw [← hc0] at hclean
  unfold flushBatchedInvalidations at hrun0
  split at hrun0
  · rename_i hrev
    cases hmode0.symm.trans hrev
    split at hrun0
    · rename_i c2 hflush
      cases hrun0
      have hr2 : Ran i r c2 ∨ Ran i (r + 1) c2 :=
        flushEffectsRevision_once hs hrev hdepth0 hr0 hflush
      exact hr2
    · cases hrun0
  · rename_i hrev
    obtain ⟨hw, hframe, hstirs, hun⟩ := hs.walkBatched (by simpa using hrev)
    exact flushEffects_once
      ⟨hw.congr (fun _ hi => hi.elim) rfl, hframe.revisionMode.trans hmode0, fun _ _ => hun hdepth0⟩
      (hframe.depth.trans hdepth0) (hstirs.ran hr0) hclean hrun0

end Batch

end Context

section Results

variable [DecidableEq τ] [BEq V] [LawfulBEq V]

/-- One change runs an effect at most once, as long as in its drain the closure of the effect reads
no outdated cell. A batch that creates effects needs a queue that is not left over from a drain that
was cut short. -/
theorem effects_run_once {mode : Bool} {ops : List (Op τ V)} {change : Change τ V}
    {replies replies' : List (Reply τ V)} {c c' : Context τ V}
    (hplain : ∀ op ∈ ops ++ change.ops, op.Plain)
    (hread : ∀ op ∈ ops ++ change.ops, op.Within (EffectFn.ReadOnly mode))
    (hkeep : mode = true → ∀ op ∈ ops ++ change.ops, op.KeepsCaches)
    (hrun : run ops (Context.newImpl mode) = .ok replies c) (hdepth : c.batchDepth = 0)
    (hclosed : change.Closed) (hchange : run change.ops c = .ok replies' c')
    (hex : c.lastDrainExhaustion = none ∨ ∀ run, .effect run ∉ change.ops)
    {i : SlotId} {e : EffectNode τ V} (he : c.nodes i = some (.effect e))
    (hclean : mode = false → ∀ p ∈ change.reads i c, ¬ Outdated p.2 p.1) :
    ∃ e', c'.nodes i = some (.effect e') ∧ e'.runs ≤ e.runs + 1 := by
  have hnoWrites : mode = true → EffectFn.NoWrites (EffectFn.ReadOnly mode : EffectFn τ V → Prop) :=
    fun _ _ _ _ h => h
  obtain ⟨hrest, hmode⟩ := run_atRest (newImpl_atRest mode hnoWrites)
    (fun op hop => hplain op (mem_append_left _ hop))
    (fun op hop => hread op (mem_append_left _ hop))
    (fun hm op hop => hkeep hm op (mem_append_left _ hop)) hrun
  have hmode : c.revisionMode = mode := hmode
  have once : Ran i e.runs c' ∨ Ran i (e.runs + 1) c' →
      ∃ e', c'.nodes i = some (.effect e') ∧ e'.runs ≤ e.runs + 1 := by
    rintro (⟨e', he', hr⟩ | ⟨e', he', hr⟩) <;> exact ⟨e', he', by omega⟩
  cases change with
  | set k v =>
    obtain ⟨reply, c₁, _, hstep, hnil⟩ := run_cons_ok hchange
    obtain rfl := run_nil_ok hnil
    obtain ⟨_, hset, -⟩ := map_eq_ok.1 hstep
    exact once (setSource_once hrest hmode hdepth ⟨e, he, rfl⟩ hclean hset)
  | batch body =>
    have hsub : ∀ op ∈ body, op ∈ ops ++ (Change.batch body).ops := fun op hop => by
      simp [Change.ops, hop]
    obtain ⟨_, c₁, _, hbody, hend⟩ := run_append (a := .beginBatch :: body) hchange
    obtain ⟨_, c₀, _, hbegin, hin⟩ := run_cons_ok hbody
    obtain ⟨_, hbegin', -⟩ := map_eq_ok.1 hbegin
    obtain rfl := modify_eq_ok.1 hbegin'
    have hop : .beginBatch ∈ ops ++ (Change.batch body).ops := by simp [Change.ops]
    obtain ⟨h₀, hmode₀, hdepth₀⟩ := step_atRest hrest (hplain _ hop) (hread _ hop)
      (fun hm => hkeep (hmode ▸ hm) _ hop) hbegin
    have hdepth₁ : c.batchDepth + 1 = 0 + 1 := by rw [hdepth]
    obtain ⟨h₁, hmode₁, hdepth₁, hdone, hran⟩ := run_inBatch h₀
      (hmode₀.trans hmode) hdepth₁ hclosed (fun op hop => hplain op (hsub op hop))
      (fun op hop => hread op (hsub op hop)) (fun hm op hop => hkeep hm op (hsub op hop)) hin
    -- before the end of the batch the effect has not run
    have hr₁ : Ran i e.runs c₁ := by
      rcases hex with hex | hnew
      · have hopen : Spares i c { c with batchDepth := c.batchDepth + 1 } :=
          .of_nodes rfl rfl rfl fun h => h
        obtain ⟨e₁, he₁, hr₁, -⟩ := hdone (hopen.done _ (hrest.done hex he))
        exact ⟨e₁, he₁, hr₁⟩
      · exact hran (fun run hmem => hnew run (by simp [Change.ops, hmem])) ⟨e, he, rfl⟩
    obtain ⟨_, c₃, _, hstep, hnil⟩ := run_cons_ok hend
    obtain rfl := run_nil_ok hnil
    obtain ⟨_, hfinish, -⟩ := map_eq_ok.1 hstep
    refine once (finishBatch_once h₁ hmode₁ hdepth₁ hr₁ (fun hm p hp => hclean hm p ?_) hfinish)
    simpa only [reads, flushed, hbody] using hp

end Results

/-! ## Two graphs -/

def diamondProgram : List (Op Unit Nat) :=
  let input : Source Unit := ⟨0, 0, ()⟩
  let left : Computed Unit := ⟨1, 0, ()⟩
  let right : Computed Unit := ⟨2, 0, ()⟩
  let sum : Computed Unit := ⟨3, 0, ()⟩
  [.source 0 (),
    .computed (.read (.source input) fun v => .ret (v + 1)) (),
    .computed (.read (.source input) fun v => .ret (v + 2)) (),
    .computed (.read (.computed left) fun v => .read (.computed right) fun w => .ret (v + w)) (),
    .effect (.get (.computed sum) fun _ => .done none [])]

def diamondChange : Change Unit Nat := .batch [.set ⟨0, 0, ()⟩ 5, .set ⟨0, 0, ()⟩ 10]

theorem diamondProgram_plain : ∀ op ∈ diamondProgram ++ diamondChange.ops, op.Plain := by
  simp [diamondProgram, diamondChange, ops, Op.Plain]

theorem diamondProgram_readOnly :
    ∀ op ∈ diamondProgram ++ diamondChange.ops, op.Within (EffectFn.ReadOnly false) := by
  simp [diamondProgram, diamondChange, ops, Op.Within, EffectFn.ReadOnly]

theorem diamondProgram_returns : Unwind.Returns (run diamondProgram) (newImpl false) fun _ c =>
    c.batchDepth = 0 ∧ c.lastDrainExhaustion = none ∧ c.runsOf 4 = some 1 ∧
      (∀ p ∈ diamondChange.reads 4 c, p.2.staleAt p.1 = false) ∧
      Unwind.Returns (run diamondChange.ops) c fun _ c' => c'.runsOf 4 = some 2 := by
  decide +kernel

theorem effects_run_once_diamond : ∃ replies replies' c c' e,
    run diamondProgram (newImpl false) = .ok replies c ∧
      run diamondChange.ops c = .ok replies' c' ∧ c.nodes 4 = some (.effect e) ∧ e.runs = 1 ∧
      ∃ e', c'.nodes 4 = some (.effect e') ∧ e'.runs ≤ e.runs + 1 := by
  obtain ⟨replies, c, hrun, hdepth, hex, hruns, hclean, replies', c', hchange, -⟩ :=
    diamondProgram_returns
  obtain ⟨e, he, hr⟩ := runsOf_eq_some.1 hruns
  refine ⟨replies, replies', c, c', e, hrun, hchange, he, hr,
    effects_run_once diamondProgram_plain diamondProgram_readOnly (fun h => by cases h) hrun hdepth
      rfl hchange (.inl hex) he fun _ p hp hout => ?_⟩
  have hstale := hclean p hp
  rw [hout.staleAt] at hstale
  cases hstale

def siblingsProgram : List (Op Unit Nat) :=
  let input : Source Unit := ⟨0, 0, ()⟩
  let left : Computed Unit := ⟨1, 0, ()⟩
  let right : Computed Unit := ⟨2, 0, ()⟩
  [.source 0 (),
    .computed (.read (.source input) fun v => .ret (v + 1)) (),
    .computed (.read (.source input) fun v => .ret (v + 2)) (),
    .effect (.get (.computed left) fun _ => .get (.computed right) fun _ => .done none [])]

theorem siblingsProgram_plain : ∀ op ∈ siblingsProgram ++ (set ⟨0, 0, ()⟩ 10).ops, op.Plain := by
  simp [siblingsProgram, ops, Op.Plain]

theorem siblingsProgram_readOnly : ∀ op ∈ siblingsProgram ++ (set ⟨0, 0, ()⟩ 10).ops,
    op.Within (EffectFn.ReadOnly false) := by
  simp [siblingsProgram, ops, Op.Within, EffectFn.ReadOnly]

theorem siblingsProgram_returns : Unwind.Returns (run siblingsProgram) (newImpl false) fun _ c =>
    c.batchDepth = 0 ∧ c.lastDrainExhaustion = none ∧ c.runsOf 3 = some 1 ∧
      Unwind.Returns (run (set ⟨0, 0, ()⟩ 10).ops) c fun _ c' => c'.runsOf 3 = some 3 := by
  decide +kernel

/-- One `set` runs the effect twice: a change does not in general run an effect at most once. -/
theorem siblings_run_twice : ¬ ∀ (ops : List (Op Unit Nat)) (change : Change Unit Nat)
    (replies replies' : List (Reply Unit Nat)) (c c' : Context Unit Nat) (i : SlotId)
    (e e' : EffectNode Unit Nat), (∀ op ∈ ops ++ change.ops, op.Plain) →
    (∀ op ∈ ops ++ change.ops, op.Within (EffectFn.ReadOnly false)) →
    run ops Context.new = .ok replies c → c.batchDepth = 0 → change.Closed →
    run change.ops c = .ok replies' c' → c.lastDrainExhaustion = none →
    c.nodes i = some (.effect e) → c'.nodes i = some (.effect e') → e'.runs ≤ e.runs + 1 := by
  intro h
  obtain ⟨replies, c, hrun, hdepth, hex, hruns, replies', c', hchange, hruns'⟩ :=
    siblingsProgram_returns
  obtain ⟨e, he, hr⟩ := runsOf_eq_some.1 hruns
  obtain ⟨e', he', hr'⟩ := runsOf_eq_some.1 hruns'
  have hle := h siblingsProgram (.set ⟨0, 0, ()⟩ 10) replies replies' c c' 3 e e'
    siblingsProgram_plain siblingsProgram_readOnly hrun hdepth trivial hchange hex he he'
  omega

end Lazily
