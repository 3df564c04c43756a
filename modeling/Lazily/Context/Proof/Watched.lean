import Lazily.Context.Proof.Refresh

/-!
# The effect invariant

`Watched D out c`: the effect queue and the arena agree on who has to run.

* an effect that is not scheduled only reads grounded cells;
* an effect that is not forced has run, and the cells it depends on hold today what its latest run
  read, except those in `D`.

So an effect that is neither scheduled nor forced is current, once `D` is empty. The invariant is
kept for each dependency on its own, and nothing is said of those in `out`: all of an effect that
has been taken off the queue and is about to run, or one that a disposal has cut off. The revision
engine finds its effects by their computed dependencies, so the second point only covers effects
that have one (`Covered`); on the other hand it schedules with force only. `Queued` is what holds of
the queue in any case. Refreshes, invalidations and new edges keep the invariant
(`Watched.evolves`, `Watched.invalidates`, `Watched.rewires`).
-/

namespace Lazily

open Lib

variable {τ V : Type}

namespace Context

variable (c : Context τ V)

/-- The sources written in the open batch: their readers are told when it ends. -/
def pendingWrites (i : SlotId) : Prop :=
  0 < c.batchDepth ∧ i ∈ c.batchedCells ∧ ∃ s, c.nodes i = some (.source s)

/-- The engine reaches this effect when a cell it reads changes. -/
def Covered (e : EffectNode τ V) : Prop :=
  c.revisionMode = true → ∃ d ∈ e.dependencies, ∃ s, c.nodes d = some (.computed s)

/-- The latest run of an effect would read the same value today from a cell it still depends on,
outside `D`. -/
def ObservedHold (D : SlotId → Prop) (c : Context τ V) (e : EffectNode τ V) (d : SlotId) : Prop :=
  ∀ v, (d, v) ∈ e.observed → c.valueAt d = some v ∨ D d

structure WatchedAt (D : SlotId → Prop) (c : Context τ V) (i : SlotId) (e : EffectNode τ V)
    (d : SlotId) : Prop where
  forced : e.forceRun = true → c.scheduledEffects i = true
  settled : c.scheduledEffects i = false → d ∈ e.dependencies → Grounded c d
  observed : e.forceRun = false → Covered c e → d ∈ e.dependencies → ObservedHold D c e d
  revision : c.revisionMode = true → c.scheduledEffects i = true → e.forceRun = true
  ran : e.forceRun = false → 0 < e.runs

/-- The effect invariant (module doc). -/
def Watched (D : SlotId → Prop) (out : SlotId → SlotId → Prop) (c : Context τ V) : Prop :=
  ∀ i e d, ¬ out i d → c.nodes i = some (.effect e) → WatchedAt D c i e d

/-- What is scheduled is an effect, and stands in the queue. -/
def Queued : Prop :=
  ∀ i, c.scheduledEffects i = true → i ∈ c.pendingEffects ∧ ∃ e, c.nodes i = some (.effect e)

section Watched

variable {off : Option SlotId} {effects : List (SlotId × Bool)} {roots : List SlotId}
  {D D' E : SlotId → Prop} {out out' : SlotId → SlotId → Prop} {c c' : Context τ V} {i x d : SlotId}
  {e e' : EffectNode τ V}

theorem Queued.congr (h : Queued c) (hnodes : c'.nodes = c.nodes)
    (hsched : c'.scheduledEffects = c.scheduledEffects)
    (hpend : c'.pendingEffects = c.pendingEffects) : Queued c' := by
  intro i hi
  rw [hpend, hnodes]
  exact h i (hsched ▸ hi)

theorem ObservedHold.mono (h : ObservedHold D c e d) (hD : ∀ i, D i → D' i) :
    ObservedHold D' c e d :=
  fun v hv => (h v hv).imp_right (hD _)

theorem WatchedAt.mono (h : WatchedAt D c i e d) (hD : ∀ i, D i → D' i) : WatchedAt D' c i e d :=
  ⟨h.forced, h.settled, fun hf hcov hd => (h.observed hf hcov hd).mono hD, h.revision, h.ran⟩

theorem WatchedAt.sameCells (h : WatchedAt D c i e d) (hs : SameCells c c')
    (hsched : c'.scheduledEffects i = c.scheduledEffects i) : WatchedAt D c' i e d := by
  refine ⟨hsched ▸ h.forced, fun hn hd => hs.grounded (h.settled (hsched ▸ hn) hd),
    fun hf hcov hd => ?_, hs.revisionMode ▸ hsched ▸ h.revision, h.ran⟩
  have hcov' : Covered c e := fun hm => by
    obtain ⟨d, hd, s, hs'⟩ := hcov (hs.revisionMode.trans hm)
    exact ⟨d, hd, s, hs.computed.1 hs'⟩
  intro v hv
  rw [hs.valueAt]
  exact h.observed hf hcov' hd v hv

variable (h : Watched D out c)
include h

theorem Watched.congr (hD : ∀ i, D i → D' i) (hs : SameCells c c')
    (hnodes : c'.nodes = c.nodes) (hsched : c'.scheduledEffects = c.scheduledEffects) :
    Watched D' out c' := fun i e d hi he =>
  ((h i e d hi (hnodes ▸ he)).sameCells hs (congrFun hsched i)).mono hD

theorem Watched.leave (hout : ∀ i d, out i d → out' i d) : Watched D out' c :=
  fun i e d hi => h i e d fun ho => hi (hout i d ho)

theorem Watched.fill (hx : ∀ e d, ¬ out' x d → c.nodes x = some (.effect e) → WatchedAt D c x e d)
    (hout : ∀ i d, i ≠ x → out i d → out' i d) : Watched D out' c := by
  intro i e d hi he
  by_cases hix : i = x
  · subst hix
    exact hx e d hi he
  · exact h i e d (fun ho => hi (hout i d hix ho)) he

/-! ## Refreshes -/

omit h in
/-- In the push engine an effect that is still not forced would still read the same values. -/
theorem ObservedHold.evolves (h : ObservedHold D c e d) (hmode : c.revisionMode = false)
    (he : c.nodes i = some (.effect e)) (hd : d ∈ e.dependencies) (hev : Evolves off c c')
    (he' : c'.nodes i = some (.effect e')) (hf : e'.forceRun = false) : ObservedHold D c' e' d := by
  obtain ⟨e0, he0, hsame⟩ := hev.of_effect he'
  rw [he] at he0
  cases he0
  intro v hv
  rw [hsame] at hv
  exact (h v hv).imp_left (hev.kept hmode i e e' he he' hf d hd v)

omit h in
theorem WatchedAt.evolves (h : WatchedAt D c i e d) (he : c.nodes i = some (.effect e))
    (hev : Evolves off c c') (he' : c'.nodes i = some (.effect e')) : WatchedAt D c' i e' d := by
  obtain ⟨f, hf, hmono, hnew⟩ := hev.effect i e he
  rw [hf] at he'
  cases he'
  obtain ⟨new, hq, -⟩ := hev.queue
  have hsched : c'.scheduledEffects i = false → c.scheduledEffects i = false := fun hn => by
    by_contra hs
    rw [hq.mono (by simpa using hs)] at hn
    cases hn
  have hunforced : f = false → e.forceRun = false := fun hff => by
    cases hef : e.forceRun with
    | false => rfl
    | true => rw [hmono hef] at hff; exact hff
  constructor
  · intro hft
    rcases hnew hft with hef | hs'
    · exact hq.mono (h.forced hef)
    · exact hs'
  · exact fun hn hd => (hev.grounded d (h.settled (hsched hn) hd)).1
  · intro hff hcov hd
    have hef := hunforced hff
    have hcov' : Covered c e := fun hmode => by
      obtain ⟨d, hd, s, hs⟩ := hcov (hev.revisionMode.trans hmode)
      obtain ⟨s0, hs0, -⟩ := hev.of_computed hs
      exact ⟨d, hd, s0, hs0⟩
    cases hmode : c.revisionMode with
    | false => exact (h.observed hef hcov' hd).evolves hmode he hd hev hf hff
    | true =>
      -- in the revision engine an effect that is not forced is not scheduled, so it reads
      -- grounded cells only
      have hno : c.scheduledEffects i = false := by
        by_contra hs
        rw [h.revision hmode (by simpa using hs)] at hef
        cases hef
      intro v hv
      refine (h.observed hef hcov' hd v hv).imp_left fun hval => ?_
      rw [(hev.grounded d (h.settled hno hd)).2, hval]
  · intro hmode hs
    have hmode' : c.revisionMode = true := hev.revisionMode ▸ hmode
    rw [hev.quiet hmode'] at hs
    exact hmono (h.revision hmode' hs)
  · exact fun hff => h.ran (hunforced hff)

theorem Watched.evolves (hev : Evolves off c c') : Watched D out c' := by
  intro i e' d hi he'
  obtain ⟨e, he, -⟩ := hev.of_effect he'
  exact (h i e d hi he).evolves he hev he'

/-! ## Invalidation -/

omit h in
theorem WatchedAt.invalidates {c2 : Context τ V} (h : WatchedAt (fun j => D j ∨ E j) c i e d)
    (hmode : c.revisionMode = false) (hc : Coherent (fun j => D j ∨ E j) c)
    (he : c.nodes i = some (.effect e)) (hinv : Invalidates c c2 effects roots)
    (hE : ∀ d, E d → ∀ y ∈ c.dependentsOf d, y ∈ roots) (hsched : Schedules c2 c' effects) :
    WatchedAt D c' i { e with forceRun := e.forceRun || decide ((i, true) ∈ effects) } d := by
  have hc2 : Coherent D c2 := hc.invalidates hinv hE
  have he2 : c2.nodes i = some (.effect e) := (he ▸ hinv.weaker i).of_effect
  have hsch2 : c2.scheduledEffects = c.scheduledEffects := by rw [hinv.frame]
  obtain ⟨new, hq, -⟩ := hsched.queue
  have hread : ∀ d ∈ e.dependencies, i ∈ c.dependentsOf d := fun d hd => by
    rw [← hc.edge, dependenciesOf_effect he]
    exact hd
  constructor
  · intro hf
    rcases Bool.or_eq_true_iff.1 hf with hf | hf
    · exact hq.mono (hsch2 ▸ h.forced hf)
    · exact hsched.scheduled _ (of_decide_eq_true hf) ⟨e, he2⟩
  · -- a dependency that is no longer grounded has warned the effect
    intro hn hd
    have hn2 : c.scheduledEffects i = false := by
      by_contra hs'
      rw [hq.mono (by rw [hsch2]; simpa using hs')] at hn
      cases hn
    refine hsched.sameCells.grounded ?_
    obtain ⟨t, ht⟩ | ⟨t, ht, hut, -⟩ := (h.settled hn2 hd).cases'
    · exact .source (ht ▸ hinv.weaker d).source
    · obtain ⟨t', ht', -⟩ := (ht ▸ hinv.weaker d).computed
      refine hc2.grounded d t' ht' ?_
      by_contra hnt
      have hw := hinv.stale d t t' ht ht' hut (by simpa using hnt) i
        (dependentsOf_computed ht ▸ hread d hd)
      obtain ⟨f, hf⟩ := hw.effect e he2
      rw [hsched.scheduled _ hf ⟨e, he2⟩] at hn
      cases hn
  · intro hf hcov hd v hv
    obtain ⟨hef, hnot⟩ := Bool.or_eq_false_iff.1 hf
    rw [decide_eq_false_iff_not] at hnot
    rw [hsched.sameCells.valueAt]
    rcases h.observed hef (fun hm => by rw [hmode] at hm; cases hm) hd v hv with hval | hD | hE'
    · rcases (hinv.weaker d).value with hw | hw
      · exact .inl (hw.trans hval)
      · exact absurd ((hinv.taken _ _ hval hw i (hread _ hd)).effect e he2) hnot
    · exact .inr hD
    · exact absurd ((hinv.root i (hE _ hE' i (hread _ hd))).effect e he2) hnot
  · intro hm
    rw [hsched.frame, hinv.frame] at hm
    exact absurd hmode (by simpa using hm)
  · exact fun hf => h.ran (Bool.or_eq_false_iff.1 hf).1

omit h in
theorem Watched.invalidates {c2 : Context τ V} (h : Watched (fun j => D j ∨ E j) out c)
    (hmode : c.revisionMode = false) (hc : Coherent (fun j => D j ∨ E j) c)
    (hinv : Invalidates c c2 effects roots) (hE : ∀ d, E d → ∀ y ∈ c.dependentsOf d, y ∈ roots)
    (hsched : Schedules c2 c' effects) : Watched D out c' := by
  intro i e' d hi he'
  obtain ⟨e2, he2⟩ := (hsched.effect_iff i).1 ⟨e', he'⟩
  have he : c.nodes i = some (.effect e2) := (he2 ▸ hinv.weaker i).effect
  rw [hsched.effect i e2 he2] at he'
  cases he'
  exact (h i e2 d hi he).invalidates hmode hc he hinv hE hsched

/-! ## Rewiring -/

omit h in
theorem WatchedAt.rewires (h : WatchedAt D c i e d) (hrew : Rewires x c c')
    (hx : ∃ e, c.nodes x = some (.effect e)) : WatchedAt D c' i e d := by
  obtain ⟨ex, hex⟩ := hx
  have hsched : c'.scheduledEffects = c.scheduledEffects := by rw [hrew.frame]
  have hmode : c'.revisionMode = c.revisionMode := by rw [hrew.frame]
  refine ⟨hsched ▸ h.forced,
    fun hn hd => hrew.grounded (.inl (not_grounded_effect hex)) (h.settled (hsched ▸ hn) hd),
    fun hf hcov hd v hv => ?_, hmode ▸ hsched ▸ h.revision, h.ran⟩
  have hcov' : Covered c e := fun hm => by
    obtain ⟨d, hd, s, hs⟩ := hcov (hmode.trans hm)
    obtain ⟨s0, hs0, -⟩ := hrew.of_computed hs
    exact ⟨d, hd, s0, hs0⟩
  rw [hrew.valueAt]
  exact h.observed hf hcov' hd v hv

theorem Watched.rewires (hout : ∀ d, out x d) (hrew : Rewires x c c')
    (hx : ∃ e, c.nodes x = some (.effect e)) : Watched D out c' := by
  intro i e' d hi he'
  have hix : i ≠ x := fun hix => hi (hix ▸ hout d)
  obtain ⟨e, he, hsame, hd⟩ := hrew.of_effect he'
  rw [hd hix] at hsame
  exact hsame ▸ (h i e d hi he).rewires hrew hx

theorem Watched.setEffect (hout : ∀ d, out x d)
    (hs : SameCells c (c.setNode x (some (.effect e')))) :
    Watched D out (c.setNode x (some (.effect e'))) := by
  intro i ei d hi hei
  have hix : i ≠ x := fun hix => hi (hix ▸ hout d)
  rw [setNode_ne _ hix] at hei
  exact (h i ei d hi hei).sameCells hs rfl

end Watched

end Context

end Lazily
