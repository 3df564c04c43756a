import Lazily.Context.Proof.Evolve
import Lazily.Lib.Unwind

/-!
# Correctness of `refresh_slot`

`refresh_spec`: a refresh that returns keeps the cache invariant, leaves the rest of the graph
alone up to `Evolves`, and grounds the slot. If it reports a change, every slot that reads it has
been told (push engine). The proof follows the code: the stored result and its notification
(`store_spec`), the run of the closure (`runCompute_spec`), the dependencies (`refreshAll_spec`),
and the recursion on the fuel.
-/

namespace Lazily

open Lib Context Unwind List Option

variable {τ V : Type}

namespace Context

variable {D : SlotId → Prop} {c c₁ c' : Context τ V} {x : SlotId} {s s' : ComputedNode τ V}
variable {y i : SlotId} {v result : V} {k : Cell τ} {b : Bool}

theorem Coherent.readable (hc : Coherent D c) {d : SlotId} (h : d ∈ c.dependenciesOf y) :
    Readable c d :=
  readable_of_mem ((hc.edge d y).1 h)

/-- The slots that read `x` have been told that it changed. -/
def ReadersTold (c : Context τ V) (x : SlotId) : Prop := ∀ y ∈ c.dependentsOf x, c.Untrusted y

/-- A call that refreshes `x`, in charge of the slot `off`, has returned `b`: did `x` change? -/
structure Refreshed (D : SlotId → Prop) (off : Option SlotId) (x : SlotId) (b : Bool)
    (c c' : Context τ V) : Prop where
  coherent : Coherent D c'
  evolves : Evolves off c c'
  grounded : Readable c x → Grounded c' x
  told : b = true → c.revisionMode = false → ReadersTold c' x

theorem Refreshed.after {off : Option SlotId} (he : Evolves off c c₁)
    (h : Refreshed D off x b c₁ c') : Refreshed D off x b c c' :=
  ⟨h.coherent, he.trans h.evolves, fun hread => h.grounded (he.readable hread),
    fun hb hmode => h.told hb (he.revisionMode.trans hmode)⟩

/-! ## Storing a result -/

/-- What the reruns of a slot establish before the result is stored. -/
structure Rerun (D : SlotId → Prop) (c : Context τ V) (x : SlotId) (s s' : ComputedNode τ V) :
    Prop where
  node : c.nodes x = some (.computed s)
  same : SameSlot s s'
  dependencies : s'.dependencies = s.dependencies
  dependents : s'.dependents = s.dependents
  stale : ¬ Grounded c x
  upToDate : c.upToDate s' = true
  verified : s'.verifiedAt ≤ c.revision
  grounded : ∀ d ∈ s.dependencies, Grounded c d
  reads : ∀ v, s'.value = some v → ReadsHold c D s' v

section Rerun

section

variable (h : Rerun D c x s s')
include h

theorem Rerun.not_mem : x ∉ s.dependencies :=
  fun hx => h.stale (h.grounded x hx)

theorem Rerun.not_upToDate : c.upToDate s ≠ true :=
  fun hu => h.stale (.computed h.node hu h.grounded)

theorem Rerun.grounded_self : Grounded (c.setNode x (some (.computed s'))) x :=
  .computed (setNode_same ..) h.upToDate fun d hd =>
    grounded_setSlot h.node h.dependencies (fun hu => absurd hu h.not_upToDate)
      (h.grounded d (h.dependencies ▸ hd))

omit h in
/-- Cells that no trusted slot has read need not be told about. -/
theorem Coherent.discharge {E : SlotId → Prop} (hc : Coherent (fun i => D i ∨ E i) c)
    (hE : ∀ d, E d → ReadersTold c d) : Coherent D c where
  toShaped := hc.toShaped
  reads y t v ht htr hv := by
    obtain ⟨l, hpath, hl⟩ := hc.reads y t v ht htr hv
    refine ⟨l, hpath, fun p hp => ⟨(hl p hp).1, ?_⟩⟩
    rcases (hl p hp).2 with hr | hD | hE'
    · exact .inl hr
    · exact .inr hD
    · have hmem : y ∈ c.dependentsOf p.1.id := by
        rw [← hc.edge, dependenciesOf_computed ht]
        exact (hl p hp).1
      rw [hE _ hE' y hmem t ht] at htr
      cases htr

/-- The nodes a notification cannot reach: grounded cells, the slot itself, and effects that only
read grounded cells. -/
def Settled (c : Context τ V) (x : SlotId) (i : SlotId) : Prop :=
  Grounded c i ∨ i = x ∨ ∃ e, c.nodes i = some (.effect e) ∧ ∀ d ∈ e.dependencies, Grounded c d

theorem Rerun.dependenciesOf :
    (c.setNode x (some (.computed s'))).dependenciesOf = c.dependenciesOf :=
  dependenciesOf_setNode h.node h.dependencies

theorem Rerun.dependentsOf : (c.setNode x (some (.computed s'))).dependentsOf = c.dependentsOf :=
  dependentsOf_setNode h.node h.dependents

/-- The stages of a notification: the result is stored, the walk invalidates the readers, the
effects it reached are scheduled. -/
structure Notified (c : Context τ V) (x : SlotId) (s' : ComputedNode τ V) (c₁ c₂ c₃ : Context τ V)
    (effects : List (SlotId × Bool)) : Prop where
  stored : c₁ = c.setNode x (some (.computed s'))
  walked : Invalidates c₁ c₂ effects (c₁.dependentsOf x)
  values : c₂.valueAt = c₁.valueAt
  scheduled : Schedules c₂ c₃ effects
  calm : ∀ p ∈ effects, ¬ Settled c x p.1
  forced : ∀ i, (i, true) ∈ effects → i ∈ c₁.dependentsOf x
  apart : ∀ i, Settled c x i → c₂.nodes i = c₁.nodes i

variable (hc : Coherent D c)
include hc

theorem Rerun.coherent {D' : SlotId → Prop}
    (hD : ∀ i, D i → D' i) (hval : ∀ v, s.value = some v → s'.value = some v ∨ D' x) :
    Coherent D' (c.setNode x (some (.computed s'))) := by
  refine hc.setSlot h.node h.dependencies h.dependents h.same.equals h.verified
    (fun hu => absurd hu h.not_upToDate) (fun _ => h.grounded) hD hval (fun v _ hv => ?_)
  obtain ⟨l, hpath, hl⟩ := h.reads v hv
  refine ⟨l, hpath, fun p hp => ⟨(hl p hp).1, ?_⟩⟩
  have hne : p.1.id ≠ x := fun he => h.not_mem (he ▸ h.dependencies ▸ (hl p hp).1)
  rw [valueAt_setNode_ne hne]
  exact (hl p hp).2.imp_right (hD _)

/-- A rerun that keeps the value. -/
theorem Rerun.refreshed (hval : ∀ v, s.value = some v → s'.value = some v) :
    Refreshed D (some x) x false c (c.setNode x (some (.computed s'))) :=
  ⟨h.coherent hc (fun _ h => h) fun v hv => .inl (hval v hv),
    evolves_setSlot h.node h.same h.stale h.grounded_self fun _ => hval, fun _ => h.grounded_self,
    fun hb => by cases hb⟩

/-- Nobody relies on the old value in the revision engine: whoever reads a stale slot is stale. -/
theorem Rerun.revision_untrusted
    (hmode : c.revisionMode = true) : ReadersTold c x := fun y hy t ht => by
  by_contra hn
  have hup : c.upToDate t = true := by
    simpa [trusted, Context.upToDate, hmode] using hn
  exact h.stale ((hc.grounded y t ht hup).dependencies ((hc.edge x y).2 hy))

theorem Rerun.settled_closed {z : SlotId}
    (hy : z ∈ c.dependentsOf y) (hz : Settled c x z) : Grounded c y := by
  have hdep := (hc.edge y z).2 hy
  rcases hz with hg | rfl | ⟨e, he, hd⟩
  · exact hg.dependencies hdep
  · exact h.grounded y (dependenciesOf_computed h.node ▸ hdep)
  · exact hd y (dependenciesOf_effect he ▸ hdep)

theorem Rerun.notified (hmode : c.revisionMode = false) :
    ∃ c₂ effects, Notified c x s' (c.setNode x (some (.computed s'))) c₂
      ((c.setNode x (some (.computed s'))).invalidateDependentsNow x).2 effects := by
  have hdeps := h.dependentsOf
  have hclosed : Frontier.ClosedSet (c.setNode x (some (.computed s'))) (Settled c x) :=
    fun y z hz hS => .inl (h.settled_closed hc (hdeps ▸ hz) hS)
  have hroots : ∀ r ∈ (c.setNode x (some (.computed s'))).dependentsOf x, ¬ Settled c x r :=
    fun r hr hS => h.stale (h.settled_closed hc (hdeps ▸ hr) hS)
  have hcoh : Coherent (fun i => D i ∨ i = x) (c.setNode x (some (.computed s'))) :=
    h.coherent hc (fun _ => .inl) fun _ _ => .inr (.inr rfl)
  obtain ⟨c₂, effects, hinv, hval, hsched, -, hforced⟩ :=
    invalidateDependentsNow_spec (c := c.setNode x (some (.computed s'))) hcoh.live
      hmode hclosed (.inr (.inl rfl)) hroots
  obtain ⟨hnot, hsame⟩ := hinv.apart _ hclosed hroots
  exact ⟨c₂, effects, rfl, hinv, hval, hsched, hnot, hforced, hsame⟩

end

section Notified

variable {c₁ c₂ c₃ : Context τ V} {effects : List (SlotId × Bool)}

variable (n : Notified c x s' c₁ c₂ c₃ effects)
include n

theorem Notified.node (hi : i ≠ x) : c₁.nodes i = c.nodes i := by
  rw [n.stored, setNode_ne _ hi]

theorem Notified.self : c₃.nodes x = some (.computed s') := by
  rw [n.scheduled.sameCells.computed, n.apart x (.inr (.inl rfl)), n.stored, setNode_same]

theorem Notified.upToDate : c₃.upToDate = c.upToDate := by
  rw [n.scheduled.sameCells.upToDate, n.walked.upToDate, n.stored]
  rfl

theorem Notified.valueAt (hi : i ≠ x) : c₃.valueAt i = c.valueAt i := by
  rw [n.scheduled.sameCells.valueAt, n.values, Context.valueAt, n.node hi, ← Context.valueAt]

variable (h : Rerun D c x s s')
include h

theorem Notified.effect
    {e : EffectNode τ V} (he : c.nodes i = some (.effect e)) : c₂.nodes i = some (.effect e) := by
  have hi : i ≠ x := fun hix => by rw [hix, h.node] at he; cases he
  exact ((n.node hi).trans he ▸ n.walked.weaker i).of_effect

theorem Notified.coherent (hc : Coherent D c) : Coherent D c₃ := by
  have hc1 : Coherent (fun i => D i ∨ i = x) c₁ :=
    n.stored ▸ h.coherent hc (fun _ => .inl) fun _ _ => .inr (.inr rfl)
  exact (hc1.invalidates n.walked fun d hd y hy => hd ▸ hy).sameCells n.scheduled.sameCells

theorem Notified.grounded (hg : Grounded c i) : Grounded c₃ i := by
  have hsame : ∀ j, Grounded c j → c₂.nodes j = c.nodes j := fun j hg =>
    (n.apart j (.inl hg)).trans (n.node fun he => h.stale (he ▸ hg))
  refine hg.imp (fun j t ht => ⟨t, ?_⟩) (fun j t hg ht => ⟨t, ?_, ?_, rfl⟩)
  · rw [n.scheduled.sameCells.source, hsame j (.source ht), ht]
  · rw [n.scheduled.sameCells.computed, hsame j hg, ht]
  · rw [n.upToDate]
    exact hg.upToDate ht

theorem Notified.grounded_self : Grounded c₃ x :=
  .computed n.self (by rw [n.upToDate]; exact h.upToDate) fun d hd =>
    n.grounded h (h.grounded d (h.dependencies ▸ hd))

omit h in
/-- Every slot that reads `x` recomputes before it is used again. -/
theorem Notified.told : ReadersTold c₃ x := fun y hy t ht => by
  rw [n.scheduled.sameCells.dependentsOf, n.walked.dependentsOf] at hy
  rw [n.scheduled.sameCells.trusted]
  exact (n.walked.root y hy).slot t (n.scheduled.sameCells.computed.1 ht)

theorem Notified.evolved (i : SlotId) : Evolved (some x ≠ some i) (c.nodes i) (c₃.nodes i) := by
  by_cases hix : i = x
  · rw [hix, h.node, n.self]
    exact .computed h.same fun hoff => absurd rfl hoff
  · rw [← n.node hix]
    exact (Evolved.of_weaker (n.walked.weaker i) (congrFun n.values i)).trans
      (n.scheduled.evolved i)

theorem Notified.evolves
    (hc : Coherent D c) (hmode : c.revisionMode = false) {old : V} (hold : s.value = some old)
    (hv : s'.value = some v) (hchg : s.unchanged v = false) : Evolves (some x) c c₃ := by
  have hpend : c₂.pendingEffects = c.pendingEffects := by rw [n.walked.frame, n.stored]; rfl
  have hschd : c₂.scheduledEffects = c.scheduledEffects := by rw [n.walked.frame, n.stored]; rfl
  obtain ⟨new, hq, hnew⟩ := n.scheduled.queue
  have hq' : Queues c c₃ new := by simpa using (Queues.refl hpend hschd).trans hq
  -- the effects that read `x` are the ones among its dependents
  have hmem : ∀ {i e}, c.nodes i = some (.effect e) →
      (i ∈ c₁.dependentsOf x ↔ x ∈ e.dependencies) := fun he => by
    rw [n.stored, h.dependentsOf, ← hc.edge, dependenciesOf_effect he]
  constructor
  · rw [n.scheduled.frame, n.walked.frame, n.stored]
    rfl
  · exact n.evolved h
  · exact fun i hg => ⟨n.grounded h hg, n.valueAt fun he => h.stale (he ▸ hg)⟩
  · refine ⟨new, hq', fun i hi => ?_⟩
    obtain ⟨f, hf⟩ := hnew i hi
    obtain ⟨e, he⟩ := n.walked.collected _ hf
    have hix : i ≠ x := fun hix => by
      rw [hix, n.stored, setNode_same] at he
      cases he
    exact ⟨e, n.node hix ▸ he⟩
  · exact fun h => absurd hmode (by simp [h])
  · intro i e he hd
    rw [hq'.scheduled]
    have : i ∉ new := fun hi => by
      obtain ⟨f, hf⟩ := hnew i hi
      exact n.calm _ hf (.inr (.inr ⟨e, he, hd⟩))
    simp [this]
  · intro _ i e f he hf hforce d hd v hv
    by_cases hdx : d = x
    · have he2 := n.effect h he
      have htold := (n.walked.root i ((hmem he).2 (hdx ▸ hd))).effect e he2
      rw [n.scheduled.effect i e he2] at hf
      cases hf
      simp [htold] at hforce
    · rw [n.valueAt hdx, hv]
  · intro i t t' ht ht' hng
    have hval := n.valueAt fun hix : i = x => hng (hix ▸ n.grounded_self h)
    have hdeps : c₃.dependenciesOf i = c.dependenciesOf i := by
      rw [n.scheduled.sameCells.dependenciesOf, n.walked.dependenciesOf, n.stored, h.dependenciesOf]
    rw [valueAt_computed ht, valueAt_computed ht'] at hval
    rw [dependenciesOf_computed ht, dependenciesOf_computed ht'] at hdeps
    exact ⟨hval, fun _ => hdeps⟩
  · intro i e e' he he' hf
    have he2 := n.effect h he
    rw [n.scheduled.effect i e he2] at he'
    cases he'
    rcases Bool.or_eq_true_iff.1 hf with hf | hf
    · exact .inl hf
    · have hin := of_decide_eq_true hf
      exact .inr ⟨n.scheduled.scheduled _ hin ⟨e, he2⟩, x, (hmem he).1 (n.forced i hin), h.stale,
        n.grounded_self h, s, old, v, h.node, hold, (valueAt_computed n.self).trans hv, hchg⟩

end Notified

end Rerun

/-! ## `recompute_slot_now` from the result on -/

/-- The context after the result of a rerun has been stored and, if it is new, announced. -/
def storeAndNotify (c : Context τ V) (x : SlotId) (s : ComputedNode τ V) (result : V) :
    Context τ V :=
  if (c.storeResult x s result).1 then (c.storeResult x s result).2.notifySlotValueChanged x
  else (c.storeResult x s result).2

/-- The run of the closure that produced a result. -/
def RanTo (c : Context τ V) (s : ComputedNode τ V) (result : V) : Prop :=
  ∃ l, ReadTree.Path s.compute l result ∧
    ∀ p ∈ l, p.1.id ∈ s.dependencies ∧ c.valueAt p.1.id = some p.2

variable (hs : c.nodes x = some (.computed s))
include hs

theorem rerun_storeResult (hc : Coherent D c)
    (hstale : ¬ Grounded c x) (hdeps : ∀ d ∈ s.dependencies, Grounded c d)
    (hran : RanTo c s result) :
    ∃ s', (c.storeResult x s result).2 = c.setNode x (some (.computed s')) ∧ Rerun D c x s s' ∧
      ((c.storeResult x s result).1 = false → ∀ v, s.value = some v → s'.value = some v) ∧
      ((c.storeResult x s result).1 = true → s.unchanged result = false ∧
        (∃ old, s.value = some old) ∧ s'.value = some result) := by
  -- the guard identifies equal values only, so in both cases the slot holds the result
  have hold : s.unchanged result = true → s.value = some result := by
    intro h
    unfold ComputedNode.unchanged at h
    split at h
    · rename_i old equals hv heq
      rw [hv, hc.guard x s equals hs heq old result h]
    · cases h
  have hval : (if s.unchanged result then s.value else some result) = some result := by
    split
    · exact hold ‹_›
    · rfl
  refine ⟨{ s with
    dirty := false
    forceRecompute := false
    verifiedAt := if c.revisionMode then c.revision else s.verifiedAt
    value := if s.unchanged result then s.value else some result }, rfl, ?_, ?_, fun h => ?_⟩
  · refine ⟨hs, ⟨rfl, rfl, rfl, rfl, rfl⟩, rfl, rfl, hstale, ?_, ?_, hdeps, fun v hv => ?_⟩
    · simp only [upToDate, hval]
      cases c.revisionMode <;> simp
    · cases c.revisionMode
      · exact hc.verified x s hs
      · exact Nat.le_refl _
    · obtain ⟨l, hpath, hl⟩ := hran
      have hv' : result = v := by simpa [hval] using hv
      exact ⟨l, hv' ▸ hpath, fun p hp => ⟨(hl p hp).1, .inl (hl p hp).2⟩⟩
  · intro h v hv
    simp only [storeResult, hv, isSome_some, Bool.and_true, Bool.not_eq_false'] at h
    simp [h, hv]
  · simp only [storeResult, Bool.and_eq_true, Bool.not_eq_true'] at h
    exact ⟨h.1, isSome_iff_exists.1 h.2, hval⟩

theorem storeAndNotify_spec (hc : Coherent D c)
    (hstale : ¬ Grounded c x) (hdeps : ∀ d ∈ s.dependencies, Grounded c d)
    (hran : RanTo c s result) :
    Refreshed D (some x) x (c.storeResult x s result).1 c (storeAndNotify c x s result) := by
  obtain ⟨s', hset, hrerun, hkeep, hnew⟩ := rerun_storeResult hs hc hstale hdeps hran
  cases hchg : (c.storeResult x s result).1 with
  | false =>
    simp only [storeAndNotify, hchg, Bool.false_eq_true, hset]
    exact hrerun.refreshed hc (hkeep hchg)
  | true =>
    cases hmode : c.revisionMode with
    | false =>
      have hnot : (c.setNode x (some (.computed s'))).notifySlotValueChanged x =
          ((c.setNode x (some (.computed s'))).invalidateDependentsNow x).2 := by
        rw [notifySlotValueChanged, if_neg]
        simpa [setNode] using hmode
      simp only [storeAndNotify, hchg, hset, hnot]
      obtain ⟨c₂, effects, n⟩ := hrerun.notified hc hmode
      obtain ⟨hne, ⟨old, hold⟩, hres⟩ := hnew hchg
      exact ⟨n.coherent hrerun hc, n.evolves hrerun hc hmode hold hres hne,
        fun _ => n.grounded_self hrerun, fun _ _ => n.told⟩
    | true =>
      have hnot : (c.setNode x (some (.computed s'))).notifySlotValueChanged x =
          c.setNode x (some (.computed s')) := by
        rw [notifySlotValueChanged, if_pos]
        simpa [setNode] using hmode
      simp only [storeAndNotify, hchg, hset, hnot]
      refine ⟨?_, evolves_setSlot hs hrerun.same hstale hrerun.grounded_self
        fun h => absurd hmode (by simp [h]),
        fun _ => hrerun.grounded_self, fun _ h => by simp [hmode] at h⟩
      have hcoh : Coherent (fun i => D i ∨ i = x) (c.setNode x (some (.computed s'))) :=
        hrerun.coherent hc (fun _ => .inl) fun _ _ => .inr (.inr rfl)
      refine hcoh.discharge fun d hd y hy t ht => ?_
      subst hd
      rw [hrerun.dependentsOf] at hy
      have hyd : y ≠ d := fun h => hrerun.not_mem <| by
        rw [← dependenciesOf_computed hs, hc.edge]
        exact h ▸ hy
      rw [setNode_ne _ hyd] at ht
      exact hrerun.revision_untrusted hc hmode y hy t ht

theorem not_grounded_of_untrusted (ht : c.trusted s = false) : ¬ Grounded c x := fun hg => by
  rw [trusted_of_upToDate (hg.upToDate hs)] at ht
  cases ht

end Context

/-! ## The recursion -/

/-- What a refresh function guarantees when it returns. -/
structure RefreshSpec (r : SlotId → M τ V Bool) : Prop where
  skip : ∀ {c id b c'}, (∀ s, c.nodes id ≠ some (.computed s)) → r id c = .ok b c' →
    b = false ∧ c' = c
  spec : ∀ {D c id b c'}, Coherent D c → r id c = .ok b c' → Refreshed D none id b c c'

section Spec

variable {c c' : Context τ V} {x : SlotId} {s : ComputedNode τ V} {k : Cell τ} {v : V} {b : Bool}

theorem readersTold_setProgress (hs : c.nodes x = some (.computed s)) (p : Bool)
    (h : ReadersTold c x) :
    ReadersTold (c.setNode x (some (.computed { s with inProgress := p }))) x := by
  intro y hy t ht
  have hdeps : (c.setNode x (some (.computed { s with inProgress := p }))).dependentsOf x =
      c.dependentsOf x := by
    rw [dependentsOf_computed hs, dependentsOf_computed (setNode_same ..)]
  rw [hdeps] at hy
  by_cases hyx : y = x
  · subst hyx
    rw [setNode_same] at ht
    cases ht
    exact h y hy s hs
  · rw [setNode_ne _ hyx] at ht
    exact h y hy t ht

variable [DecidableEq τ] {r : SlotId → M τ V Bool} {D : SlotId → Prop}

section

variable (hr : RefreshSpec r)
include hr

/-- An untracked read returns the value of a cell that is grounded afterwards. -/
theorem readUntracked_spec (hc : Coherent D c) (h : readUntracked r k c = .ok v c') :
    Coherent D c' ∧ Evolves none c c' ∧ Grounded c' k.id ∧ c'.valueAt k.id = some v := by
  cases k with
  | source k =>
    simp only [readUntracked, readSourceUntracked] at h
    split at h
    · rename_i s hs
      split at h
      · cases h
        exact ⟨hc, .refl none c, .source hs, valueAt_source hs⟩
      · cases h
    · cases h
  | computed k =>
    obtain ⟨b, c₁, hb, h⟩ := bind_eq_ok.1 h
    split at h
    · rename_i s hs
      split at h
      · rename_i w hv
        split at h
        · cases h
          obtain ⟨hc', he, hg, -⟩ := hr.spec hc hb
          obtain ⟨s0, hs0, -⟩ := he.of_computed hs
          exact ⟨hc', he, hg (.inr ⟨s0, hs0⟩), (valueAt_computed hs).trans hv⟩
        · cases h
      · cases h
    · cases h

theorem readUntracked_readable (h : readUntracked r k c = .ok v c') : Readable c k.id := by
  cases k with
  | source k =>
    simp only [readUntracked, readSourceUntracked] at h
    split at h
    · exact .inl ⟨_, ‹_›⟩
    · cases h
  | computed k =>
    obtain ⟨b, c₁, hb, h'⟩ := bind_eq_ok.1 h
    by_cases hs : ∃ s, c.nodes k.id = some (.computed s)
    · exact .inr hs
    · rw [not_exists] at hs
      obtain ⟨-, rfl⟩ := hr.skip hs hb
      split at h'
      · exact absurd ‹_› (hs _)
      · cases h'

/-- A tracked read of a node that is running: the edge is recorded first, then the cell is read. -/
theorem readTracked_spec (hc : Coherent D c) (hx : Reader c x)
    (ht : c.Untrusted x) (h : readTracked r x k c = .ok v c') :
    Coherent D (c.registerDependency k.id x) ∧ Coherent D c' ∧
      Evolves none (c.registerDependency k.id x) c' ∧ Readable c k.id ∧ Grounded c' k.id ∧
      c'.valueAt k.id = some v := by
  obtain ⟨⟨⟩, c₁, hmod, h'⟩ := bind_eq_ok.1 h
  rw [modify_eq_ok] at hmod
  subst hmod
  have hread := readUntracked_readable hr h'
  rw [readable_iff_kindOf, (registerDependency_rewires c k.id x).kindOf,
    ← readable_iff_kindOf] at hread
  have hc1 := hc.registerDependency hread hx ht
  obtain ⟨hc', he, hg, hv⟩ := readUntracked_spec hr hc1 h'
  exact ⟨hc1, hc', he, hread, hg, hv⟩

/-- A slot whose closure is running: in progress, relying on nothing, and every cell it has read so
far is grounded. -/
structure Running (c : Context τ V) (x : SlotId) (s : ComputedNode τ V) : Prop where
  node : c.nodes x = some (.computed s)
  inProgress : s.inProgress = true
  untrusted : c.trusted s = false
  grounded : ∀ d ∈ s.dependencies, Grounded c d

omit [DecidableEq τ] in
omit hr in
theorem Running.stale (h : Running c x s) : ¬ Grounded c x :=
  not_grounded_of_untrusted h.node h.untrusted

theorem Running.readTracked (hc : Coherent D c) (hrun : Running c x s)
    (h : readTracked r x k c = .ok v c') :
    Coherent D c' ∧ Evolves (some x) c c' ∧ ∃ s', Running c' x s' ∧ SameSlot s s' ∧
      s.dependencies ⊆ s'.dependencies ∧ k.id ∈ s'.dependencies ∧ c'.valueAt k.id = some v := by
  have hreader : Reader c x := .inl ⟨s, hrun.node⟩
  obtain ⟨-, hc', he, hread, hg, hv⟩ :=
    readTracked_spec hr hc hreader (untrusted_computed hrun.node hrun.untrusted) h
  have hrew := registerDependency_rewires c k.id x
  obtain ⟨l, m, hm, -⟩ := hrew.computed x s hrun.node
  obtain ⟨s', hs', hsame, hu⟩ := he.computed x _ hm
  have hun := hu (by simp) hrun.inProgress
  have huntr : c'.trusted s' = false := by
    rw [he.trusted, hrew.trusted]
    by_contra hn
    have := hun.trusted c (by simpa using hn)
    rw [show c.trusted { s with dependents := l, dependencies := m } = c.trusted s from rfl,
      hrun.untrusted] at this
    cases this
  have hstale' := not_grounded_of_untrusted hs' huntr
  have hkx : k.id ≠ x := fun hk => hstale' (hk ▸ hg)
  have hdeps : s'.dependencies = edgeInsert s.dependencies k.id := by
    rw [hun.dependencies, ← dependenciesOf_computed hrun.node]
    have := dependenciesOf_registerDependency hkx hreader x
    rw [dependenciesOf_computed hm] at this
    simpa using this
  have hev := (hrew.evolves ⟨s, hrun.node⟩ hrun.stale).trans (he.weaken (some x))
  refine ⟨hc', hev, s', ⟨hs', hsame.inProgress.trans hrun.inProgress, huntr, fun d hd => ?_⟩,
    ⟨hsame.typeId, hsame.compute, hsame.equals, hsame.inProgress, hsame.eager⟩, fun d hd => ?_, ?_,
    hv⟩
  · rw [hdeps, mem_edgeInsert] at hd
    rcases hd with hd | rfl
    · exact (hev.grounded d (hrun.grounded d hd)).1
    · exact hg
  · rw [hdeps, mem_edgeInsert]
    exact .inl hd
  · rw [hdeps, mem_edgeInsert]
    exact .inr rfl

theorem runCompute_spec : ∀ t {c c' : Context τ V} {s : ComputedNode τ V} {v : V}, Coherent D c →
      Running c x s → runCompute r x t c = .ok v c' →
      Coherent D c' ∧ Evolves (some x) c c' ∧ ∃ s' l, Running c' x s' ∧ SameSlot s s' ∧
        s.dependencies ⊆ s'.dependencies ∧ ReadTree.Path t l v ∧
        ∀ p ∈ l, p.1.id ∈ s'.dependencies ∧ c'.valueAt p.1.id = some p.2
  | .ret w, c, c', s, v, hc, hrun, h => by
    rw [runCompute, pure_eq_ok] at h
    obtain ⟨rfl, rfl⟩ := h
    exact ⟨hc, .refl _ c, s, [], hrun, .refl s, fun _ h => h, .ret w, by simp⟩
  | .read k next, c, c', s, v, hc, hrun, h => by
    obtain ⟨w, c₁, hread, hnext⟩ := bind_eq_ok.1 h
    obtain ⟨hc1, he1, s1, hrun1, hsame1, hsub1, hk, hw⟩ := hrun.readTracked hr hc hread
    obtain ⟨hc', he', s', l, hrun', hsame', hsub', hpath, hl⟩ :=
      runCompute_spec (next w) hc1 hrun1 hnext
    refine ⟨hc', he1.trans he', s', (k, w) :: l, hrun', hsame1.trans hsame',
      fun _ hd => hsub' (hsub1 hd), .read hpath, fun p hp => ?_⟩
    rcases mem_cons.1 hp with rfl | hp
    · refine ⟨hsub' hk, ?_⟩
      rw [(he'.grounded k.id (hrun1.grounded _ hk)).2]
      exact hw
    · exact hl p hp

omit [DecidableEq τ] in
omit hr in
theorem running_detach (hs : c.nodes x = some (.computed s)) (hp : s.inProgress = true)
    (ht : c.trusted s = false) :
    ∃ l, Running (c.detach x) x { s with dependents := l, dependencies := [] } := by
  have hrew := detach_rewires c x
  obtain ⟨l, m, hm, -⟩ := hrew.computed x s hs
  have hnil : m = [] := by
    have := dependenciesOf_detach (c := c) x x
    rw [dependenciesOf_computed hm] at this
    simpa using this
  subst hnil
  exact ⟨l, hm, hp, by rw [hrew.trusted]; exact ht, by simp⟩

/-- `recompute_slot_now` on a slot that is in progress and relies on nothing. -/
theorem recomputeSlotNow_spec (hc : Coherent D c)
    (hs : c.nodes x = some (.computed s)) (hp : s.inProgress = true) (ht : c.trusted s = false)
    (h : recomputeSlotNow r x c = .ok b c') : Refreshed D (some x) x b c c' := by
  obtain ⟨c0, c0', hget, h⟩ := bind_eq_ok.1 h
  obtain ⟨rfl, rfl⟩ := get_eq_ok.1 hget
  simp only [hs] at h
  obtain ⟨⟨⟩, c₁, hmod, h⟩ := bind_eq_ok.1 h
  rw [modify_eq_ok] at hmod
  subst hmod
  obtain ⟨result, c₂, hrunc, h⟩ := bind_eq_ok.1 h
  obtain ⟨l, hrun⟩ := running_detach hs hp ht
  have he1 := (detach_rewires c x).evolves ⟨s, hs⟩ (not_grounded_of_untrusted hs ht)
  obtain ⟨hc2, he2, s2, path, hrun2, hsame2, -, hpath, hl⟩ :=
    runCompute_spec hr s.compute (hc.detach (untrusted_computed hs ht)) hrun hrunc
  have hran : RanTo c₂ s2 result := ⟨path, by rw [hsame2.compute]; exact hpath, hl⟩
  simp only [hrun2.node] at h
  have h3 := storeAndNotify_spec hrun2.node hc2 hrun2.stale hrun2.grounded hran
  obtain ⟨rfl, rfl⟩ : (c₂.storeResult x s2 result).1 = b ∧ storeAndNotify c₂ x s2 result = c' := by
    simpa [storeAndNotify] using h
  exact .after (he1.trans he2) h3

omit [DecidableEq τ] in
/-- The dependencies are refreshed in order. If one of them changed, a slot in progress that reads
them all has been told. -/
theorem refreshAll_spec : ∀ ds {c c' : Context τ V} {b : Bool}, Coherent D c →
      refreshAll r ds c = .ok b c' →
      Coherent D c' ∧ Evolves none c c' ∧ (∀ d ∈ ds, Readable c d → Grounded c' d) ∧
        (b = true → c.revisionMode = false → ∀ x s s', c.nodes x = some (.computed s) →
          s.inProgress = true → ds ⊆ s.dependencies → c'.nodes x = some (.computed s') →
          c'.trusted s' = false)
  | [], c, c', b, hc, h => by
    rw [refreshAll, pure_eq_ok] at h
    obtain ⟨rfl, rfl⟩ := h
    exact ⟨hc, .refl _ c, by simp, fun h => by cases h⟩
  | d :: ds, c, c', b, hc, h => by
    obtain ⟨b1, c₁, h1, h⟩ := bind_eq_ok.1 h
    obtain ⟨b2, c₂, h2, h⟩ := bind_eq_ok.1 h
    obtain ⟨rfl, rfl⟩ := pure_eq_ok.1 h
    obtain ⟨hc1, he1, hg1, htold1⟩ := hr.spec hc h1
    obtain ⟨hc2, he2, hg2, htold2⟩ := refreshAll_spec ds hc1 h2
    refine ⟨hc2, he1.trans he2, fun d' hd' hread => ?_, fun hb hmode x s s' hs hp hsub hs' => ?_⟩
    · rcases mem_cons.1 hd' with rfl | hd'
      · exact (he2.grounded _ (hg1 hread)).1
      · exact hg2 d' hd' (he1.readable hread)
    · obtain ⟨s1, hs1, hsame1, hu1⟩ := he1.computed x s hs
      have hun1 := hu1 (by simp) hp
      have hp1 := hsame1.inProgress.trans hp
      rcases Bool.or_eq_true_iff.1 hb with rfl | hb2
      · -- `d` changed: the slot reads it, so it has been told, and nothing makes it rely on its
        -- reads again while it is in progress
        have hmem : x ∈ c₁.dependentsOf d := by
          rw [← hc1.edge, dependenciesOf_computed hs1, hun1.dependencies]
          exact hsub mem_cons_self
        have huntr := htold1 rfl hmode x hmem s1 hs1
        obtain ⟨s2, hs2, -, hu2⟩ := he2.computed x s1 hs1
        rw [hs2] at hs'
        cases hs'
        rw [he2.trusted]
        by_contra hn
        have := (hu2 (by simp) hp1).trusted c₁ (by simpa using hn)
        rw [huntr] at this
        cases this
      · refine htold2 hb2 (he1.revisionMode.trans hmode) x s1 s' hs1 hp1 (fun d' hd' => ?_) hs'
        rw [hun1.dependencies]
        exact hsub (mem_cons_of_mem _ hd')

end

section

variable (hstale : c.upToDate s = false)
include hstale

omit [DecidableEq τ] in
/-- `clear_slot_dirty_flags` on a slot whose dependencies turned out unchanged. -/
theorem clearSlotDirtyFlags_spec (hc : Coherent D c) (hs : c.nodes x = some (.computed s))
    (hmode : c.revisionMode = false) (hv : s.value.isSome = true) (hf : s.forceRecompute = false)
    (hg : ∀ d ∈ s.dependencies, Grounded c d) :
    Refreshed D (some x) x false c (c.clearSlotDirtyFlags x) := by
  obtain ⟨s', hs'⟩ : ∃ s' : ComputedNode τ V,
      s' = { s with dirty := false, forceRecompute := false } := ⟨_, rfl⟩
  have hclear : c.clearSlotDirtyFlags x = c.setNode x (some (.computed s')) := by
    simp [clearSlotDirtyFlags, modifyComputed, hs, hs']
  have hx : ¬ Grounded c x := fun hx => by
    rw [hx.upToDate hs] at hstale
    cases hstale
  have hup : c.upToDate s' = true := by simp [upToDate, hmode, hv, hs']
  have hrerun : Rerun D c x s s' := by
    subst hs'
    refine ⟨hs, ⟨rfl, rfl, rfl, rfl, rfl⟩, rfl, rfl, hx, hup, hc.verified x s hs, hg,
      fun v hv' => ?_⟩
    exact hc.reads x s v hs (by simp [trusted, hmode, hv, hf]) hv'
  rw [hclear]
  exact hrerun.refreshed hc fun v h => by rw [hs']; exact h

omit [DecidableEq τ] in
/-- A slot that has to be recomputed relies on nothing. -/
theorem untrusted_of_needsRecompute {changed : Bool} (hneeds : c.needsRecompute s changed = true)
    (htold : changed = true → c.revisionMode = false → c.trusted s = false) :
    c.trusted s = false := by
  cases hmode : c.revisionMode with
  | true => simpa [trusted, upToDate, hmode] using hstale
  | false =>
    simp only [needsRecompute, hmode, Bool.false_or, Bool.or_eq_true] at hneeds
    rcases hneeds with (hnone | hforce) | hchanged
    · simp [trusted, isNone_iff_eq_none.1 hnone]
    · simp [trusted, hmode, hforce]
    · exact htold hchanged hmode

/-- `refresh_slot` under the guard. -/
theorem refreshStale_spec (hr : RefreshSpec r) (hc : Coherent D c)
    (hs : c.nodes x = some (.computed s)) (hp : s.inProgress = true)
    (h : refreshStale r x s.dependencies c = .ok b c') : Refreshed D (some x) x b c c' := by
  obtain ⟨changed, c₁, hall, h⟩ := bind_eq_ok.1 h
  obtain ⟨c1', c1'', hget, h⟩ := bind_eq_ok.1 h
  obtain ⟨rfl, rfl⟩ := get_eq_ok.1 hget
  obtain ⟨hc1, he1, hg1, htold1⟩ := refreshAll_spec hr s.dependencies hc hall
  obtain ⟨s1, hs1, hsame1, hu1⟩ := he1.computed x s hs
  have hun1 := hu1 (by simp) hp
  have hp1 := hsame1.inProgress.trans hp
  have hstale1 : c₁.upToDate s1 = false := by
    rw [he1.upToDate]
    by_contra hn
    rw [hun1.upToDate c (by simpa using hn)] at hstale
    cases hstale
  refine .after (he1.weaken (some x)) ?_
  simp only [hs1] at h
  split at h
  · rename_i hneeds
    have huntr := untrusted_of_needsRecompute hstale1 hneeds fun hchanged hmode =>
      htold1 hchanged (he1.revisionMode ▸ hmode) x s s1 hs hp (fun _ h => h) hs1
    exact recomputeSlotNow_spec hr hc1 hs1 hp1 huntr h
  · rename_i hneeds
    obtain ⟨⟨⟩, c₂, hmod, h⟩ := bind_eq_ok.1 h
    rw [modify_eq_ok] at hmod
    subst hmod
    obtain ⟨rfl, rfl⟩ := pure_eq_ok.1 h
    simp only [needsRecompute, Bool.or_eq_true, not_or, Bool.not_eq_true] at hneeds
    obtain ⟨hmode, ⟨hvalue, hforce⟩, -⟩ := hneeds
    have hdeps : ∀ d ∈ s1.dependencies, Grounded c₁ d := fun d hd => by
      rw [hun1.dependencies] at hd
      exact hg1 d hd (hc.readable (dependenciesOf_computed hs ▸ hd))
    exact clearSlotDirtyFlags_spec hstale1 hc1 hs1
      hmode (by cases hv : s1.value <;> simp [hv] at hvalue ⊢) hforce hdeps

end

/-- The three ways `refresh_slot` returns. -/
theorem refreshSlot_cases {fuel : Nat} {id : SlotId} (h : refreshSlot (fuel + 1) id c = .ok b c') :
    ((∀ s, c.nodes id ≠ some (.computed s)) ∧ b = false ∧ c' = c) ∨
    (∃ s, c.nodes id = some (.computed s) ∧ c.upToDate s = true ∧ b = false ∧ c' = c) ∨
    ∃ s c₂, c.nodes id = some (.computed s) ∧ c.upToDate s = false ∧ s.inProgress = false ∧
      refreshStale (refreshSlot fuel) id s.dependencies (c.enterRefresh id) = .ok b c₂ ∧
      c' = c₂.leaveRefresh id := by
  unfold refreshSlot at h
  split at h
  · rename_i s hs
    split at h
    · cases h
      exact .inr (.inl ⟨s, hs, ‹_›, rfl, rfl⟩)
    · rename_i hup
      split at h
      · cases h
      · rename_i hp
        unfold withRefreshGuard at h
        split at h
        · rename_i a c₂ hc2
          cases h
          exact .inr (.inr ⟨s, c₂, hs, by simpa using hup, by simpa using hp, hc2, rfl⟩)
        · cases h
  · rename_i hs
    cases h
    exact .inl ⟨fun s h => hs s h, rfl, rfl⟩

theorem refreshSlot_step {fuel : Nat} (hr : RefreshSpec (refreshSlot fuel : SlotId → M τ V Bool))
    (hc : Coherent D c) {id : SlotId} (h : refreshSlot (fuel + 1) id c = .ok b c') :
    Refreshed D none id b c c' := by
  obtain ⟨hn, rfl, rfl⟩ | ⟨s, hs, hup, rfl, rfl⟩ | ⟨s, c₂, hs, hup, hp, hstale, rfl⟩ :=
    refreshSlot_cases h
  · refine ⟨hc, .refl _ _, fun hread => ?_, fun h => by cases h⟩
    obtain ⟨t, ht⟩ | ⟨t, ht⟩ := hread
    · exact .source ht
    · exact absurd ht (hn t)
  · exact ⟨hc, .refl _ _, fun _ => hc.grounded id s hs hup, fun h => by cases h⟩
  · have henter := enterRefresh_eq hs
    have hc0 : Coherent D (c.enterRefresh id) := henter ▸ hc.setProgress hs true
    have hs0 : (c.enterRefresh id).nodes id = some (.computed { s with inProgress := true }) := by
      rw [henter, setNode_same]
    have hup0 : (c.enterRefresh id).upToDate { s with inProgress := true } = false := by
      rw [henter]
      exact hup
    obtain ⟨hc2, he2, hg2, htold2⟩ := refreshStale_spec hup0 hr hc0 hs0 rfl hstale
    obtain ⟨s2, hs2, -⟩ := he2.computed id _ hs0
    have hmode0 : (c.enterRefresh id).revisionMode = c.revisionMode := by
      rw [henter]
      rfl
    have hg2 := hg2 (.inr ⟨_, hs0⟩)
    have he := Evolves.guard hs hp he2 hg2
    rw [leaveRefresh_eq hs2] at he ⊢
    exact ⟨hc2.setProgress hs2 false, he, fun _ => grounded_setProgress hs2 false hg2,
      fun hb hmode => readersTold_setProgress hs2 false (htold2 hb (hmode0.trans hmode))⟩

/-- `refresh_slot`, by induction on the fuel. -/
theorem refreshSlot_spec : ∀ fuel : Nat, RefreshSpec (refreshSlot fuel : SlotId → M τ V Bool)
  | 0 => by
    have hno : ∀ {id : SlotId} {c c' : Context τ V} {b : Bool},
        (refreshSlot 0 id : M τ V Bool) c ≠ .ok b c' := fun h => by cases h
    exact ⟨fun _ h => absurd h hno, fun _ h => absurd h hno⟩
  | fuel + 1 => by
    have hr : RefreshSpec (refreshSlot fuel : SlotId → M τ V Bool) := refreshSlot_spec fuel
    refine ⟨fun hn h => ?_, fun hc => refreshSlot_step hr hc⟩
    obtain ⟨-, hb, hc'⟩ | ⟨s, hs, -⟩ | ⟨s, c₂, hs, -⟩ := refreshSlot_cases h
    · exact ⟨hb, hc'⟩
    · exact absurd hs (hn s)
    · exact absurd hs (hn s)

theorem refresh_spec : RefreshSpec (refresh : SlotId → M τ V Bool) where
  skip {c _ _ _} := (refreshSlot_spec (c.nextId + 1)).skip
  spec {_ c _ _ _} := (refreshSlot_spec (c.nextId + 1)).spec

end Spec

end Lazily
