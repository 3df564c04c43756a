import Lazily.Context.Proof.Rewire

/-!
# What a refresh may do to the rest of the graph

`Evolves off c c'` bounds the effect of pulling: no source changes, a slot that is grounded stays as
it is, a slot that is being refreshed further up the call stack at most becomes stale (`off` is the
one slot exempt from this, the slot whose recomputation is being followed), and effects are at most
scheduled. An effect whose dependencies are grounded is left alone (`calm`), and in the push engine
an effect that is not forced still finds the values it read (`kept`). An effect is forced only if a
stale cell it reads was recomputed with a result that its guard told apart from the cached value
(`blamed`, `Replaced`). The bound composes (`Evolves.trans`), and holds of a slot that is stored
anew (`evolves_setSlot`) or rewired (`Rewires.evolves`).
-/

namespace Lazily

open Lib

variable {τ V : Type}

/-- The parts of a slot that are fixed when it is created, and its cycle guard. -/
structure SameSlot (s s' : ComputedNode τ V) : Prop where
  typeId : s'.typeId = s.typeId
  compute : s'.compute = s.compute
  equals : s'.equals = s.equals
  inProgress : s'.inProgress = s.inProgress
  eager : s'.eager = s.eager

/-- A slot that has at most become stale. -/
structure Untouched (s s' : ComputedNode τ V) : Prop where
  value : s'.value = s.value
  dependencies : s'.dependencies = s.dependencies
  verifiedAt : s'.verifiedAt = s.verifiedAt
  upToDate : ∀ c : Context τ V, c.upToDate s' = true → c.upToDate s = true
  trusted : ∀ c : Context τ V, c.trusted s' = true → c.trusted s = true

theorem SameSlot.refl (s : ComputedNode τ V) : SameSlot s s := ⟨rfl, rfl, rfl, rfl, rfl⟩

theorem SameSlot.trans {a b d : ComputedNode τ V} (h : SameSlot a b) (h' : SameSlot b d) :
    SameSlot a d :=
  ⟨h'.typeId.trans h.typeId, h'.compute.trans h.compute, h'.equals.trans h.equals,
    h'.inProgress.trans h.inProgress, h'.eager.trans h.eager⟩

theorem Untouched.refl (s : ComputedNode τ V) : Untouched s s :=
  ⟨rfl, rfl, rfl, fun _ h => h, fun _ h => h⟩

theorem Untouched.trans {a b d : ComputedNode τ V} (h : Untouched a b) (h' : Untouched b d) :
    Untouched a d :=
  ⟨h'.value.trans h.value, h'.dependencies.trans h.dependencies, h'.verifiedAt.trans h.verifiedAt,
    fun c hu => h.upToDate c (h'.upToDate c hu), fun c ht => h.trusted c (h'.trusted c ht)⟩

theorem ComputedNode.unchanged_congr {s s' : ComputedNode τ V} (hv : s'.value = s.value)
    (he : s'.equals = s.equals) (v : V) : s'.unchanged v = s.unchanged v := by
  unfold ComputedNode.unchanged
  rw [hv, he]

/-- What a refresh may make of a node. A slot in progress, if it is `guarded`, at most becomes
stale. -/
inductive Evolved (guarded : Prop) : Option (Node τ V) → Option (Node τ V) → Prop
  | none : Evolved guarded none none
  | source (s : SourceNode τ V) (l : List SlotId) :
      Evolved guarded (some (.source s)) (some (.source { s with dependents := l }))
  | computed {s s' : ComputedNode τ V} (same : SameSlot s s')
      (untouched : guarded → s.inProgress = true → Untouched s s') :
      Evolved guarded (some (.computed s)) (some (.computed s'))
  | effect (e : EffectNode τ V) (f : Bool) (forced : e.forceRun = true → f = true) :
      Evolved guarded (some (.effect e)) (some (.effect { e with forceRun := f }))

namespace Evolved

variable {guarded guarded' : Prop} {n n1 n2 : Option (Node τ V)}

theorem refl : ∀ n : Option (Node τ V), Evolved guarded n n
  | .none => .none
  | some (.source s) => .source s s.dependents
  | some (.computed s) => .computed (.refl s) fun _ _ => .refl s
  | some (.effect e) => .effect e e.forceRun id

theorem trans (h : Evolved guarded n n1) (h' : Evolved guarded n1 n2) : Evolved guarded n n2 := by
  cases h <;> cases h'
  · exact .none
  · exact .source _ _
  · rename_i hs hu _ hs' hu'
    exact .computed (hs.trans hs') fun hg hp => (hu hg hp).trans (hu' hg (hs.inProgress.trans hp))
  · rename_i hf _ hf'
    exact .effect _ _ fun h => hf' (hf h)

theorem mono (h : Evolved guarded n n1) (hg : guarded' → guarded) : Evolved guarded' n n1 := by
  cases h with
  | none => exact .none
  | source s l => exact .source s l
  | computed hs hu => exact .computed hs fun h => hu (hg h)
  | effect e f hf => exact .effect e f hf

/-- A walk that keeps the value of a slot makes it stale at most. -/
theorem of_weaker (h : Context.Weaker n n1) (hv : n1.bind Node.value? = n.bind Node.value?) :
    Evolved guarded n n1 := by
  have hw := h
  cases h with
  | same => exact .refl _
  | slot s value dirty force =>
    refine .computed ⟨rfl, rfl, rfl, rfl, rfl⟩ fun _ _ => ?_
    exact ⟨hv, rfl, rfl, fun _ => hw.upToDate, fun _ ht => (hw.trusted ht).1⟩

end Evolved

namespace Context

theorem Schedules.evolved {guarded : Prop} {c c' : Context τ V} {effects : List (SlotId × Bool)}
    (h : Schedules c c' effects) (i : SlotId) : Evolved guarded (c.nodes i) (c'.nodes i) := by
  rw [h.node]
  rcases c.nodes i with _ | (s | s | e)
  · exact .refl _
  · exact .refl _
  · exact .refl _
  · exact .effect e _ fun hf => by simp [hf]

/-- A stale slot was recomputed, and its guard told the result apart from the cached value. -/
def Replaced (c c' : Context τ V) (d : SlotId) : Prop :=
  ¬ Grounded c d ∧ Grounded c' d ∧ ∃ s old new, c.nodes d = some (.computed s) ∧
    s.value = some old ∧ c'.valueAt d = some new ∧ s.unchanged new = false

structure Evolves (off : Option SlotId) (c c' : Context τ V) : Prop where
  frame : c' = { c with
    nodes := c'.nodes
    pendingEffects := c'.pendingEffects
    scheduledEffects := c'.scheduledEffects }
  node : ∀ i, Evolved (off ≠ some i) (c.nodes i) (c'.nodes i)
  grounded : ∀ i, Grounded c i → Grounded c' i ∧ c'.valueAt i = c.valueAt i
  queue : ∃ new, Queues c c' new ∧ ∀ i ∈ new, ∃ e, c.nodes i = some (.effect e)
  quiet : c.revisionMode = true → c'.scheduledEffects = c.scheduledEffects
  calm : ∀ i e, c.nodes i = some (.effect e) → (∀ d ∈ e.dependencies, Grounded c d) →
    c'.scheduledEffects i = c.scheduledEffects i
  kept : c.revisionMode = false → ∀ i e f, c.nodes i = some (.effect e) →
    c'.nodes i = some (.effect f) → f.forceRun = false →
    ∀ d ∈ e.dependencies, ∀ v, c.valueAt d = some v → c'.valueAt d = some v
  stale : ∀ i s s', c.nodes i = some (.computed s) → c'.nodes i = some (.computed s') →
    ¬ Grounded c' i → s'.value = s.value ∧ (off ≠ some i → s'.dependencies = s.dependencies)
  blamed : ∀ i e e', c.nodes i = some (.effect e) → c'.nodes i = some (.effect e') →
    e'.forceRun = true → e.forceRun = true ∨
      c'.scheduledEffects i = true ∧ ∃ d ∈ e.dependencies, Replaced c c' d

section Evolves

variable {off : Option SlotId} {c c1 c2 c' : Context τ V} {i : SlotId}

theorem Evolves.refl (off : Option SlotId) (c : Context τ V) : Evolves off c c where
  frame := rfl
  node _ := .refl _
  grounded _ h := ⟨h, rfl⟩
  queue := ⟨[], .refl rfl rfl, by simp⟩
  quiet _ := rfl
  calm _ _ _ _ := rfl
  kept _ _ _ _ _ _ _ _ _ _ h := h
  stale _ _ _ h h' _ := by rw [h] at h'; cases h'; exact ⟨rfl, fun _ => rfl⟩
  blamed _ _ _ h h' hf := by rw [h] at h'; cases h'; exact .inl hf

section

variable (h : Evolves off c c')
include h

theorem Evolves.none (i : SlotId) (hn : c.nodes i = none) : c'.nodes i = none := by
  have hi := hn ▸ h.node i
  generalize c'.nodes i = n at hi
  cases hi
  rfl

theorem Evolves.source (i : SlotId) (s : SourceNode τ V) (hs : c.nodes i = some (.source s)) :
    ∃ l, c'.nodes i = some (.source { s with dependents := l }) := by
  have hi := hs ▸ h.node i
  generalize c'.nodes i = n at hi
  cases hi
  exact ⟨_, rfl⟩

theorem Evolves.computed (i : SlotId) (s : ComputedNode τ V)
    (hs : c.nodes i = some (.computed s)) : ∃ s', c'.nodes i = some (.computed s') ∧ SameSlot s s' ∧
      (off ≠ some i → s.inProgress = true → Untouched s s') := by
  have hi := hs ▸ h.node i
  generalize c'.nodes i = n at hi
  cases hi with
  | computed hsame hu => exact ⟨_, rfl, hsame, hu⟩

theorem Evolves.effect (i : SlotId) (e : EffectNode τ V) (he : c.nodes i = some (.effect e)) :
    ∃ f, c'.nodes i = some (.effect { e with forceRun := f }) ∧ (e.forceRun = true → f = true) ∧
      (f = true → e.forceRun = true ∨ c'.scheduledEffects i = true) := by
  have hi := he ▸ h.node i
  generalize hn : c'.nodes i = n at hi
  cases hi with
  | effect _ f hf =>
    exact ⟨f, rfl, hf, fun h' => (h.blamed i e _ he hn h').imp_right And.left⟩

theorem Evolves.of_computed {s' : ComputedNode τ V}
    (hs : c'.nodes i = some (.computed s')) : ∃ s, c.nodes i = some (.computed s) ∧ SameSlot s s' ∧
      (off ≠ some i → s.inProgress = true → Untouched s s') := by
  have hi := hs ▸ h.node i
  generalize c.nodes i = n at hi
  cases hi with
  | computed hsame hu => exact ⟨_, rfl, hsame, hu⟩

theorem Evolves.of_effect {e' : EffectNode τ V}
    (he : c'.nodes i = some (.effect e')) : ∃ e, c.nodes i = some (.effect e) ∧
      e' = { e with forceRun := e'.forceRun } := by
  have hi := he ▸ h.node i
  generalize c.nodes i = n at hi
  cases hi
  exact ⟨_, rfl, rfl⟩

theorem Evolves.readable (hi : Readable c i) : Readable c' i := by
  rcases hi with ⟨s, hs⟩ | ⟨s, hs⟩
  · obtain ⟨l, hl⟩ := h.source i s hs
    exact .inl ⟨_, hl⟩
  · obtain ⟨s', hs', -⟩ := h.computed i s hs
    exact .inr ⟨s', hs'⟩

theorem Evolves.revisionMode : c'.revisionMode = c.revisionMode := by
  rw [h.frame]

theorem Evolves.upToDate : c'.upToDate = c.upToDate := by
  funext s
  rw [h.frame]
  rfl

theorem Evolves.trusted : c'.trusted = c.trusted := by
  funext s
  rw [h.frame]
  rfl

end

theorem Replaced.later {d : SlotId} (h : Replaced c c1 d) (h2 : Evolves off c1 c2) :
    Replaced c c2 d := by
  obtain ⟨hng, hg, s, old, new, hs, hv, hnew, hchg⟩ := h
  exact ⟨hng, (h2.grounded d hg).1, s, old, new, hs, hv, (h2.grounded d hg).2.trans hnew, hchg⟩

theorem Replaced.earlier {d : SlotId} (h : Replaced c1 c2 d) (h1 : Evolves off c c1) :
    Replaced c c2 d := by
  obtain ⟨hng, hg, s1, old, new, hs1, hv, hnew, hchg⟩ := h
  obtain ⟨s, hs, hsame, -⟩ := h1.of_computed hs1
  have hval := (h1.stale d s s1 hs hs1 hng).1
  refine ⟨fun hg' => hng (h1.grounded d hg').1, hg, s, old, new, hs, hval ▸ hv, hnew, ?_⟩
  rw [← ComputedNode.unchanged_congr hval hsame.equals]
  exact hchg

theorem Evolves.trans (h1 : Evolves off c c1) (h2 : Evolves off c1 c2) : Evolves off c c2 := by
  obtain ⟨new1, hq1, hn1⟩ := h1.queue
  obtain ⟨new2, hq2, hn2⟩ := h2.queue
  constructor
  · rw [h2.frame, h1.frame]
  · exact fun i => (h1.node i).trans (h2.node i)
  · intro i hg
    obtain ⟨hg1, hv1⟩ := h1.grounded i hg
    obtain ⟨hg2, hv2⟩ := h2.grounded i hg1
    exact ⟨hg2, hv2.trans hv1⟩
  · refine ⟨_, hq1.trans hq2, fun i hi => ?_⟩
    rcases List.mem_append.1 hi with hi | hi
    · exact hn1 i hi
    · obtain ⟨e, he⟩ := hn2 i hi
      exact (h1.of_effect he).imp fun _ h => h.1
  · exact fun hmode => (h2.quiet (h1.revisionMode.trans hmode)).trans (h1.quiet hmode)
  · intro i e he hd
    obtain ⟨f1, he1, -⟩ := h1.effect i e he
    rw [h2.calm i _ he1 fun d hd' => (h1.grounded d (hd d hd')).1, h1.calm i e he hd]
  · intro hmode i e f he hf hfalse d hd v hv
    obtain ⟨f1, he1, -, -⟩ := h1.effect i e he
    obtain ⟨f2, he2, hmono, -⟩ := h2.effect i _ he1
    have hf1 : f1 = false := by
      rw [he2] at hf
      cases hf
      cases f1 with
      | false => rfl
      | true => rw [hmono rfl] at hfalse; exact hfalse
    have hmode1 : c1.revisionMode = false := by rw [h1.frame]; exact hmode
    exact h2.kept hmode1 i _ f he1 hf hfalse d hd v (h1.kept hmode i e _ he he1 hf1 d hd v hv)
  · intro i s s2 hs hs2 hng
    obtain ⟨s1, hs1, -⟩ := h1.computed i s hs
    obtain ⟨hv2, hd2⟩ := h2.stale i s1 s2 hs1 hs2 hng
    obtain ⟨hv1, hd1⟩ := h1.stale i s s1 hs hs1 fun hg => hng (h2.grounded i hg).1
    exact ⟨hv2.trans hv1, fun ho => (hd2 ho).trans (hd1 ho)⟩
  · intro i e e2 he he2 hf
    obtain ⟨f1, he1, -⟩ := h1.effect i e he
    rcases h2.blamed i _ e2 he1 he2 hf with hf1 | ⟨hs, d, hd, hrep⟩
    · rcases h1.blamed i e _ he he1 hf1 with hf0 | ⟨hs, d, hd, hrep⟩
      · exact .inl hf0
      · exact .inr ⟨hq2.mono hs, d, hd, hrep.later h2⟩
    · exact .inr ⟨hs, d, hd, hrep.earlier h1⟩

theorem Evolves.weaken (h : Evolves .none c c') (off : Option SlotId) : Evolves off c c' := { h with
    node := fun i => (h.node i).mono fun _ => by simp
    stale := fun i s s' hs hs' hng =>
      (h.stale i s s' hs hs' hng).imp_right fun hd _ => hd (by simp) }

end Evolves

/-! ## Replacing one slot -/

section SetSlot

variable {c : Context τ V} {x i : SlotId} {s s' : ComputedNode τ V}

variable (hs : c.nodes x = some (.computed s))
include hs

theorem grounded_setSlot
    (hdep : s'.dependencies = s.dependencies) (hkeep : c.upToDate s = true → c.upToDate s' = true)
    (hg : Grounded c i) : Grounded (c.setNode x (some (.computed s'))) i := by
  refine hg.imp (fun i t ht => ⟨t, (setNode_nodes_iff hs (by simp) (by simp)).2 ht⟩)
    (fun i t hg ht => ?_)
  by_cases hi : i = x
  · subst hi
    have hu := hkeep (hg.upToDate hs)
    rw [hs] at ht
    cases ht
    exact ⟨s', setNode_same .., hu, hdep⟩
  · exact ⟨t, by rw [setNode_ne _ hi, ht], hg.upToDate ht, rfl⟩

omit hs in
/-- A slot of the new arena is an old one, or the one that was put in. -/
theorem slot_setSlot {t : ComputedNode τ V}
    (ht : (c.setNode x (some (.computed s'))).nodes i = some (.computed t)) :
    i = x ∧ s' = t ∨ i ≠ x ∧ c.nodes i = some (.computed t) := by
  by_cases hi : i = x
  · rw [hi, setNode_same] at ht
    cases ht
    exact .inl ⟨hi, rfl⟩
  · rw [setNode_ne _ hi] at ht
    exact .inr ⟨hi, ht⟩

omit hs in
/-- A slot may be replaced if it is up to date over grounded cells only, if its reads hold, and if
a value that is lost is one the readers will be told about. -/
theorem Coherent.setSlot {D D' : SlotId → Prop} (hc : Coherent D c)
    (hs : c.nodes x = some (.computed s)) (hdep : s'.dependencies = s.dependencies)
    (hdependents : s'.dependents = s.dependents) (hequals : s'.equals = s.equals)
    (hverified : s'.verifiedAt ≤ c.revision) (hkeep : c.upToDate s = true → c.upToDate s' = true)
    (hground : c.upToDate s' = true → ∀ d ∈ s.dependencies, Grounded c d)
    (hD : ∀ i, D i → D' i) (hval : ∀ v, s.value = some v → s'.value = some v ∨ D' x)
    (hreads : ∀ v, c.trusted s' = true → s'.value = some v →
      ReadsHold (c.setNode x (some (.computed s'))) D' s' v) :
    Coherent D' (c.setNode x (some (.computed s'))) where
  toLinked := hc.toLinked.congr (congrFun (dependenciesOf_setNode hs hdep))
    (congrFun (dependentsOf_setNode hs hdependents))
  live i hi := (setNode_nodes_iff hs (by simp) (by simp)).2 (hc.live i hi)
  verified i t ht := by
    obtain ⟨-, rfl⟩ | ⟨-, ht⟩ := slot_setSlot ht
    · exact hverified
    · exact hc.verified i t ht
  guard i t equals ht heq := by
    obtain ⟨-, rfl⟩ | ⟨-, ht⟩ := slot_setSlot ht
    · exact hc.guard x s equals hs (hequals ▸ heq)
    · exact hc.guard i t equals ht heq
  grounded i t ht hu := by
    obtain ⟨rfl, rfl⟩ | ⟨-, ht'⟩ := slot_setSlot ht
    · exact .computed ht hu fun d hd =>
        grounded_setSlot hs hdep hkeep (hground hu d (hdep ▸ hd))
    · exact grounded_setSlot hs hdep hkeep (hc.grounded i t ht' hu)
  reads i t v ht htr hv := by
    obtain ⟨-, rfl⟩ | ⟨-, ht⟩ := slot_setSlot ht
    · exact hreads v htr hv
    · obtain ⟨l, hpath, hl⟩ := hc.reads i t v ht htr hv
      refine ⟨l, hpath, fun p hp => ⟨(hl p hp).1, ?_⟩⟩
      rcases (hl p hp).2 with hr | hr
      · by_cases hpx : p.1.id = x
        · rw [hpx, valueAt_computed hs] at hr
          rw [hpx, valueAt_computed (setNode_same ..)]
          exact hval p.2 hr
        · exact .inl (by rw [valueAt_setNode_ne hpx, hr])
      · exact .inr (hD _ hr)

theorem effect_setSlot {e : EffectNode τ V} :
    (c.setNode x (some (.computed s'))).nodes i = some (.effect e) ↔ c.nodes i = some (.effect e) :=
  setNode_nodes_iff hs (by simp) (by simp)

/-- Replacing a slot that is not grounded by one that is, in the push engine without losing a
value. -/
theorem evolves_setSlot (hsame : SameSlot s s')
    (hx : ¬ Grounded c x) (hx' : Grounded (c.setNode x (some (.computed s'))) x)
    (hval : c.revisionMode = false → ∀ v, s.value = some v → s'.value = some v) :
    Evolves (some x) c (c.setNode x (some (.computed s'))) where
  frame := rfl
  node i := by
    by_cases hi : i = x
    · rw [hi, hs, setNode_same]
      exact .computed hsame fun h => absurd rfl h
    · rw [setNode_ne _ hi]
      exact .refl _
  grounded i hg := by
    have hne : ∀ {j}, Grounded c j → j ≠ x := fun hg h => hx (h ▸ hg)
    refine ⟨?_, valueAt_setNode_ne (hne hg)⟩
    refine hg.imp (fun j t ht => ⟨t, (setNode_nodes_iff hs (by simp) (by simp)).2 ht⟩)
      fun j t hg ht => ⟨t, by rw [setNode_ne _ (hne hg), ht], hg.upToDate ht, rfl⟩
  queue := ⟨[], .refl rfl rfl, by simp⟩
  quiet _ := rfl
  calm _ _ _ _ := rfl
  kept hmode i e f he hf hforce d hd v hv := by
    by_cases hdx : d = x
    · subst hdx
      rw [valueAt_computed hs] at hv
      rw [valueAt_computed (setNode_same ..)]
      exact hval hmode v hv
    · rw [valueAt_setNode_ne hdx, hv]
  stale i t t' ht ht' hng := by
    have hi : i ≠ x := fun h => hng (h ▸ hx')
    rw [setNode_ne _ hi, ht] at ht'
    cases ht'
    exact ⟨rfl, fun _ => rfl⟩
  blamed i e e' he he' hf := by
    rw [effect_setSlot hs, he] at he'
    cases he'
    exact .inl hf

end SetSlot

/-! ## Rewiring -/

theorem Rewires.evolves {x : SlotId} {c c' : Context τ V} (h : Rewires x c c')
    (hslot : ∃ s, c.nodes x = some (.computed s)) (hx : ¬ Grounded c x) :
    Evolves (some x) c c' := by
  have heffect : ∀ i e, c.nodes i = some (.effect e) → c'.nodes i = some (.effect e) := by
    intro i e he
    obtain ⟨m, hm, hd⟩ := h.effect i e he
    obtain ⟨s, hs⟩ := hslot
    rw [hm, hd fun h => by rw [← h, he] at hs; cases hs]
  constructor
  · rw [h.frame]
  · intro i
    rcases hn : c.nodes i with _ | s | s | e
    · rw [h.none i hn]
      exact .none
    · obtain ⟨l, m, hm, hd⟩ := h.computed i s hn
      rw [hm]
      refine .computed ⟨rfl, rfl, rfl, rfl, rfl⟩ fun hi _ => ?_
      exact ⟨rfl, hd fun h => hi (congrArg some h.symm), rfl, fun _ h => h, fun _ h => h⟩
    · obtain ⟨l, hl⟩ := h.source i s hn
      rw [hl]
      exact .source s l
    · rw [heffect i e hn]
      exact .refl _
  · exact fun i hg => ⟨h.grounded (.inl hx) hg, h.valueAt i⟩
  · exact ⟨[], .refl (by rw [h.frame]) (by rw [h.frame]), by simp⟩
  · intro _
    rw [h.frame]
  · intro _ _ _ _
    rw [h.frame]
  · intro _ _ _ _ _ _ _ d _ v hv
    rw [h.valueAt, hv]
  · intro i s s' hs hs' _
    obtain ⟨l, m, hm, hd⟩ := h.computed i s hs
    rw [hm] at hs'
    cases hs'
    exact ⟨rfl, fun ho => hd fun h => ho (congrArg some h.symm)⟩
  · intro i e e' he he' hf
    rw [heffect i e he] at he'
    cases he'
    exact .inl hf

/-! ## The cycle guard -/

section Guard

variable {c c2 : Context τ V} {x i : SlotId} {s : ComputedNode τ V}

variable (hs : c.nodes x = some (.computed s))
include hs

theorem enterRefresh_eq :
    c.enterRefresh x = c.setNode x (some (.computed { s with inProgress := true })) := by
  simp [enterRefresh, modifyComputed, hs]

theorem leaveRefresh_eq :
    c.leaveRefresh x = c.setNode x (some (.computed { s with inProgress := false })) := by
  simp [leaveRefresh, modifyComputed, hs]

theorem valueAt_setProgress (b : Bool) :
    (c.setNode x (some (.computed { s with inProgress := b }))).valueAt = c.valueAt :=
  valueAt_setNode hs rfl

theorem grounded_setProgress (b : Bool) (h : Grounded c i) :
    Grounded (c.setNode x (some (.computed { s with inProgress := b }))) i := by
  refine grounded_setSlot hs ?_ ?_ h
  · rfl
  · exact fun hu => hu

omit hs in
theorem Coherent.setProgress {D : SlotId → Prop} (hc : Coherent D c)
    (hs : c.nodes x = some (.computed s)) (b : Bool) :
    Coherent D (c.setNode x (some (.computed { s with inProgress := b }))) := by
  refine hc.setSlot hs rfl rfl rfl (hc.verified x s hs) (fun h => h) (fun hu d hd => ?_)
    (fun _ h => h) (fun _ h => .inl h) (fun v ht hv => ?_)
  · exact (hc.grounded x s hs hu).dependencies (dependenciesOf_computed hs ▸ hd)
  · obtain ⟨l, hpath, hl⟩ := hc.reads x s v hs ht hv
    refine ⟨l, hpath, fun p hp => ⟨(hl p hp).1, ?_⟩⟩
    rw [valueAt_setProgress hs b]
    exact (hl p hp).2

/-- A refresh seen from outside: the slot under the guard was not in progress. -/
theorem Evolves.guard (hp : s.inProgress = false)
    (h : Evolves (some x) (c.enterRefresh x) c2) (hg : Grounded c2 x) :
    Evolves .none c (c2.leaveRefresh x) := by
  rw [enterRefresh_eq hs] at h
  obtain ⟨s2, hs2, hsame, -⟩ := h.computed x _ (setNode_same ..)
  rw [leaveRefresh_eq hs2]
  have hne : ∀ {i}, i ≠ x → some x ≠ some i := fun hi he => hi (Option.some.inj he).symm
  have hv := valueAt_setProgress hs true
  have hv2 := valueAt_setProgress hs2 false
  constructor
  · rw [setNode, h.frame]
    rfl
  · intro i
    by_cases hix : i = x
    · rw [hix, hs, setNode_same]
      refine .computed ⟨hsame.typeId, hsame.compute, hsame.equals, hp.symm, hsame.eager⟩
        fun _ hp' => ?_
      rw [hp] at hp'
      cases hp'
    · have hi := h.node i
      rw [setNode_ne _ hix] at hi ⊢
      exact hi.mono fun _ => hne hix
  · intro i hi
    obtain ⟨hg2, hval⟩ := h.grounded i (grounded_setProgress hs true hi)
    refine ⟨grounded_setProgress hs2 false hg2, ?_⟩
    rw [hv2, hval, hv]
  · obtain ⟨new, hq, hnew⟩ := h.queue
    refine ⟨new, ⟨hq.pending, hq.scheduled, hq.fresh, hq.nodup⟩, fun i hi => ?_⟩
    exact (hnew i hi).imp fun _ he => (effect_setSlot hs).1 he
  · exact fun hmode => h.quiet hmode
  · exact fun i e he hd => h.calm i e ((effect_setSlot hs).2 he) fun d hd' =>
      grounded_setProgress hs true (hd d hd')
  · intro hmode i e f he hf hforce d hd v hval
    rw [hv2]
    exact h.kept hmode i e f ((effect_setSlot hs).2 he) ((effect_setSlot hs2).1 hf) hforce d hd v
      (by rw [hv, hval])
  · intro i t t' ht ht' hng
    have hng2 : ¬ Grounded c2 i := fun hg => hng (grounded_setProgress hs2 false hg)
    have hix : i ≠ x := fun hix => hng2 (hix ▸ hg)
    rw [setNode_ne _ hix] at ht'
    exact (h.stale i t t' (by rw [setNode_ne _ hix, ht]) ht' hng2).imp_right
      fun hd _ => hd (hne hix)
  · intro i e e' he he' hf
    rcases h.blamed i e e' ((effect_setSlot hs).2 he) ((effect_setSlot hs2).1 he') hf with
      hf0 | ⟨hsched, d, hd, hng, hg, t, old, new, ht, hold, hnew, hchg⟩
    · exact .inl hf0
    · have hng' : ¬ Grounded c d := fun hg => hng (grounded_setProgress hs true hg)
      refine .inr ⟨hsched, d, hd, hng', grounded_setProgress hs2 false hg, ?_⟩
      rw [hv2]
      obtain ⟨rfl, rfl⟩ | ⟨-, ht⟩ := slot_setSlot ht
      · exact ⟨s, old, new, hs, hold, hnew, hchg⟩
      · exact ⟨t, old, new, ht, hold, hnew, hchg⟩

end Guard

end Context

/-!
## What the graph is made of

The recipe of a node is what its creator and the writes to it decided: the value of a source, the
closure of a slot or an effect. Reads, walks and scheduling leave all recipes alone, and evaluation
from scratch looks at nothing else (`fromScratch_congr`).
-/

inductive Recipe (τ V : Type) where
  | source (value : V) (typeId : τ)
  | computed (compute : ComputeFn τ V) (equals : Option (V → V → Bool)) (typeId : τ)
  | effect (run : EffectFn τ V)

def Node.recipe : Node τ V → Recipe τ V
  | .source s => .source s.value s.typeId
  | .computed s => .computed s.compute s.equals s.typeId
  | .effect e => .effect e.run

namespace Context

def recipe (c : Context τ V) (id : SlotId) : Option (Recipe τ V) := (c.nodes id).map Node.recipe

section Recipe

variable {c c' : Context τ V} {i x : SlotId}

theorem recipe_source {s : SourceNode τ V} (h : c.nodes i = some (.source s)) :
    c.recipe i = some (.source s.value s.typeId) := by
  rw [recipe, h]
  rfl

theorem recipe_computed {s : ComputedNode τ V} (h : c.nodes i = some (.computed s)) :
    c.recipe i = some (.computed s.compute s.equals s.typeId) := by
  rw [recipe, h]
  rfl

theorem recipe_effect {e : EffectNode τ V} (h : c.nodes i = some (.effect e)) :
    c.recipe i = some (.effect e.run) := by
  rw [recipe, h]
  rfl

theorem recipe_none (h : c.nodes i = none) : c.recipe i = none := by
  rw [recipe, h]
  rfl

/-! ## Evaluation from scratch -/

theorem evalScratch_eq (c : Context τ V) (fuel : Nat) (i : SlotId) : evalScratch c (fuel + 1) i =
      match c.recipe i with
      | some (.source v _) => some v
      | some (.computed compute _ _) => compute.eval? fun k => evalScratch c fuel k.id
      | _ => none := by
  rw [evalScratch]
  cases hn : c.nodes i with
  | none => rw [recipe_none hn]
  | some n =>
    cases n with
    | source s => rw [recipe_source hn]
    | computed s => rw [recipe_computed hn]
    | effect e => rw [recipe_effect hn]

theorem evalScratch_congr (h : ∀ i, c'.recipe i = c.recipe i) :
    ∀ (fuel : Nat) (i : SlotId), evalScratch c' fuel i = evalScratch c fuel i
  | 0, _ => rfl
  | fuel + 1, i => by
    have ih : (fun k : Cell τ => evalScratch c' fuel k.id) = fun k => evalScratch c fuel k.id :=
      funext fun k => evalScratch_congr h fuel k.id
    rw [evalScratch_eq, evalScratch_eq, h i, ih]

theorem fromScratch_congr (h : ∀ i, c'.recipe i = c.recipe i) {v : V} :
    FromScratch c' i v ↔ FromScratch c i v :=
  exists_congr fun fuel => by rw [evalScratch_congr h]

/-! ## What leaves the recipes alone -/

theorem Evolves.recipe {off : Option SlotId} (h : Evolves off c c') (i : SlotId) :
    c'.recipe i = c.recipe i := by
  have hi := h.node i
  unfold Context.recipe
  generalize c'.nodes i = n' at hi
  generalize c.nodes i = n at hi
  cases hi with
  | computed hsame => simp [Node.recipe, hsame.compute, hsame.equals, hsame.typeId]
  | _ => rfl

theorem Rewires.recipe (h : Rewires x c c') (i : SlotId) : c'.recipe i = c.recipe i := by
  have hi := h.relisted i
  unfold Context.recipe
  generalize c'.nodes i = n' at hi
  generalize c.nodes i = n at hi
  cases hi <;> rfl

end Recipe

end Context

end Lazily
