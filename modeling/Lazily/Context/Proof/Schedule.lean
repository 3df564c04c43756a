import Lazily.Context.Proof.Invalidate

/-!
# Scheduling the effects of a walk

`Schedules c c' effects`: the effects of a walk have been entered into the queue. Only effect nodes
and the queue change; an effect that was not scheduled is appended once.
`invalidateDependentsNow_spec` puts the walk and the scheduling together.
-/

namespace Lazily

open Lib List Node

variable {τ V : Type}

/-- What scheduling does to a node: an effect may be forced. -/
def Node.force (forced : Bool) : Node τ V → Node τ V
  | .effect e => .effect { e with forceRun := e.forceRun || forced }
  | n => n

theorem Node.force_force (a b : Bool) (n : Node τ V) : (n.force a).force b = n.force (a || b) := by
  cases n <;> simp [force, Bool.or_assoc]

namespace Context

/-- `new` are the effects appended to the queue. -/
structure Queues (c c' : Context τ V) (new : List SlotId) : Prop where
  pending : c'.pendingEffects = c.pendingEffects ++ new
  scheduled : ∀ i, c'.scheduledEffects i = (c.scheduledEffects i || decide (i ∈ new))
  fresh : ∀ i ∈ new, c.scheduledEffects i = false
  nodup : new.Nodup

structure Schedules (c c' : Context τ V) (effects : List (SlotId × Bool)) : Prop where
  frame : c' = { c with
    nodes := c'.nodes
    pendingEffects := c'.pendingEffects
    scheduledEffects := c'.scheduledEffects }
  node : ∀ i, c'.nodes i = (c.nodes i).map (Node.force (decide ((i, true) ∈ effects)))
  queue : ∃ new, Queues c c' new ∧ ∀ i ∈ new, ∃ f, (i, f) ∈ effects
  scheduled : ∀ p ∈ effects, (∃ e, c.nodes p.1 = some (.effect e)) → c'.scheduledEffects p.1 = true

section Queues

variable {c c1 c2 : Context τ V} {new1 new2 : List SlotId}

theorem Queues.refl (h : c1.pendingEffects = c.pendingEffects)
    (h' : c1.scheduledEffects = c.scheduledEffects) : Queues c c1 [] :=
  ⟨by simp [h], by simp [h'], by simp, nodup_nil⟩

theorem Queues.trans (h1 : Queues c c1 new1) (h2 : Queues c1 c2 new2) :
    Queues c c2 (new1 ++ new2) := by
  have hnew : ∀ i ∈ new2, c.scheduledEffects i = false ∧ i ∉ new1 := fun i hi => by
    have := h2.fresh i hi
    rw [h1.scheduled, Bool.or_eq_false_iff, decide_eq_false_iff_not] at this
    exact this
  constructor
  · rw [h2.pending, h1.pending, append_assoc]
  · intro i
    rw [h2.scheduled, h1.scheduled]
    simp [Bool.or_assoc]
  · intro i hi
    rcases mem_append.1 hi with hi | hi
    · exact h1.fresh i hi
    · exact (hnew i hi).1
  · exact List.Nodup.append h1.nodup h2.nodup fun i hi1 hi2 => (hnew i hi2).2 hi1

variable {i : SlotId}

theorem Queues.mono (h : Queues c c1 new1) (hi : c.scheduledEffects i = true) :
    c1.scheduledEffects i = true := by
  rw [h.scheduled, hi, Bool.true_or]

end Queues

section Schedules

variable {c c1 c2 c' : Context τ V} {effects1 effects2 : List (SlotId × Bool)} {i : SlotId}

theorem Schedules.refl (c : Context τ V) : Schedules c c [] where
  frame := rfl
  node i := by rcases c.nodes i with _ | (s | s | e) <;> simp [force]
  queue := ⟨[], .refl rfl rfl, by simp⟩
  scheduled := by simp

section

variable (h : Schedules c c' effects1)
include h

theorem Schedules.effect (i : SlotId) (e : EffectNode τ V)
    (he : c.nodes i = some (.effect e)) : c'.nodes i =
      some (.effect { e with forceRun := e.forceRun || decide ((i, true) ∈ effects1) }) := by
  rw [h.node, he]
  rfl

theorem Schedules.effect_iff (i : SlotId) :
    (∃ e, c'.nodes i = some (.effect e)) ↔ ∃ e, c.nodes i = some (.effect e) := by
  rw [h.node]
  rcases c.nodes i with _ | (s | s | e) <;> simp [force]

theorem Schedules.of_effect {e' : EffectNode τ V}
    (he' : c'.nodes i = some (.effect e')) : ∃ e, c.nodes i = some (.effect e) ∧
      e' = { e with forceRun := e.forceRun || decide ((i, true) ∈ effects1) } := by
  obtain ⟨e, he⟩ := (h.effect_iff i).1 ⟨e', he'⟩
  rw [h.effect i e he] at he'
  cases he'
  exact ⟨e, he, rfl⟩

end

theorem Schedules.trans (h1 : Schedules c c1 effects1) (h2 : Schedules c1 c2 effects2) :
    Schedules c c2 (effects1 ++ effects2) := by
  obtain ⟨new1, hq1, hn1⟩ := h1.queue
  obtain ⟨new2, hq2, hn2⟩ := h2.queue
  constructor
  · rw [h2.frame, h1.frame]
  · intro i
    rw [h2.node, h1.node, Option.map_map]
    congr 1
    funext n
    simp [force_force]
  · refine ⟨_, hq1.trans hq2, fun i hi => ?_⟩
    rcases mem_append.1 hi with hi | hi
    · exact (hn1 i hi).imp fun _ hf => mem_append_left _ hf
    · exact (hn2 i hi).imp fun _ hf => mem_append_right _ hf
  · intro p hp he
    rcases mem_append.1 hp with hp | hp
    · exact hq2.mono (h1.scheduled p hp he)
    · exact h2.scheduled p hp ((h1.effect_iff p.1).2 he)

theorem scheduleEffect_schedules (c : Context τ V) (p : SlotId × Bool) :
    Schedules c (c.scheduleEffect p.1 p.2) [p] := by
  obtain ⟨id, force⟩ := p
  by_cases heff : ∃ e, c.nodes id = some (.effect e)
  · obtain ⟨e, he⟩ := heff
    -- what happens to the node does not depend on whether the effect is queued already
    have hnode : ∀ i, (c.scheduleEffect id force).nodes i =
        if i = id then some (.effect { e with forceRun := e.forceRun || force })
        else c.nodes i := by
      simp only [scheduleEffect, he]
      split <;> simp [setNode]
    refine ⟨?_, fun i => ?_, ?_, fun q hq _ => ?_⟩
    · simp only [scheduleEffect, he]
      split <;> simp [setNode]
    · rw [hnode]
      by_cases hi : i = id
      · subst hi
        cases force <;> simp [he, Node.force]
      · rcases c.nodes i with _ | (s | s | e) <;> simp [hi, Node.force]
    · by_cases hs : c.scheduledEffects id = true
      · refine ⟨[], ?_, by simp⟩
        refine .refl ?_ ?_ <;> simp [scheduleEffect, he, setNode, hs]
      · refine ⟨[id], ⟨?_, fun i => ?_, ?_, nodup_singleton _⟩, ?_⟩
        · simp [scheduleEffect, he, setNode, hs]
        · by_cases hi : i = id <;> simp [scheduleEffect, he, setNode, hs, hi]
        · simpa using hs
        · simp
    · rw [mem_singleton.1 hq]
      by_cases hs : c.scheduledEffects id = true <;> simp [scheduleEffect, he, setNode, hs]
  · have hsame : c.scheduleEffect id force = c := by
      unfold scheduleEffect
      split
      · exact absurd ⟨_, ‹_›⟩ heff
      · rfl
    simp only [hsame]
    refine ⟨rfl, fun i => ?_, ⟨[], .refl rfl rfl, by simp⟩, fun q hq he => ?_⟩
    · rcases hn : c.nodes i with _ | (s | s | e)
      · rfl
      · rfl
      · rfl
      · have : i ≠ id := fun h => heff ⟨e, h ▸ hn⟩
        simp [this, Node.force]
    · rw [mem_singleton.1 hq] at he
      exact absurd he heff

theorem scheduleEffects_schedules : ∀ (effects : List (SlotId × Bool)) (c : Context τ V),
      Schedules c (c.scheduleEffects effects) effects
  | [], c => .refl c
  | p :: effects, c =>
    (scheduleEffect_schedules c p).trans (scheduleEffects_schedules effects _)

end Schedules

/-! ## Contexts with the same cells -/

/-- Two contexts with the same sources and slots, and the same edges. The cache invariant does not
look further. -/
structure SameCells (c c' : Context τ V) : Prop where
  nextId : c'.nextId = c.nextId
  revision : c'.revision = c.revision
  revisionMode : c'.revisionMode = c.revisionMode
  node : ∀ i, c'.nodes i = c.nodes i ∨ ∃ e e', c.nodes i = some (.effect e) ∧
    c'.nodes i = some (.effect e') ∧ e'.dependencies = e.dependencies

section SameCells

variable {c c' : Context τ V} {i : SlotId}

section

variable (h : SameCells c c')
include h

theorem SameCells.computed {s : ComputedNode τ V} :
    c'.nodes i = some (.computed s) ↔ c.nodes i = some (.computed s) := by
  obtain hn | ⟨e, e', he, he', -⟩ := h.node i
  · rw [hn]
  · simp [he, he']

theorem SameCells.source {s : SourceNode τ V} :
    c'.nodes i = some (.source s) ↔ c.nodes i = some (.source s) := by
  obtain hn | ⟨e, e', he, he', -⟩ := h.node i
  · rw [hn]
  · simp [he, he']

theorem SameCells.upToDate : c'.upToDate = c.upToDate := by
  funext s
  simp [Context.upToDate, h.revision, h.revisionMode]

theorem SameCells.trusted : c'.trusted = c.trusted := by
  funext s
  simp [Context.trusted, h.revision, h.revisionMode]

theorem SameCells.valueAt : c'.valueAt = c.valueAt := by
  funext i
  obtain hn | ⟨e, e', he, he', -⟩ := h.node i
  · simp [Context.valueAt, hn]
  · simp [Context.valueAt, he, he', value?]

theorem SameCells.dependenciesOf : c'.dependenciesOf = c.dependenciesOf := by
  funext i
  obtain hn | ⟨e, e', he, he', hd⟩ := h.node i
  · simp [Context.dependenciesOf, hn]
  · simp [Context.dependenciesOf, he, he', dependencies, hd]

theorem SameCells.dependentsOf : c'.dependentsOf = c.dependentsOf := by
  funext i
  obtain hn | ⟨e, e', he, he', -⟩ := h.node i
  · simp [Context.dependentsOf, hn]
  · simp [Context.dependentsOf, he, he', dependents]

theorem SameCells.grounded (hg : Grounded c i) : Grounded c' i :=
  hg.imp (fun i s hs => ⟨s, h.source.2 hs⟩) fun i s hg hs =>
    ⟨s, h.computed.2 hs, by rw [h.upToDate]; exact hg.upToDate hs, rfl⟩

end

theorem Coherent.sameCells {D : SlotId → Prop} (hc : Coherent D c) (h : SameCells c c') :
    Coherent D c' where
  toShaped := by
    refine hc.carry (hc.toLinked.congr (congrFun h.dependenciesOf) (congrFun h.dependentsOf))
      (fun i hi => ?_) h.revision (fun x s hs => ⟨s, h.computed.1 hs, rfl, rfl⟩)
      fun x s hs hu => h.grounded (hc.grounded x s (h.computed.1 hs) (h.upToDate ▸ hu))
    have hn := hc.live i (h.nextId ▸ hi)
    obtain hn' | ⟨e, e', he, -⟩ := h.node i
    · rw [hn', hn]
    · rw [hn] at he
      cases he
  reads x s v hs ht hv := by
    obtain ⟨l, hpath, hl⟩ := hc.reads x s v (h.computed.1 hs) (h.trusted ▸ ht) hv
    exact ⟨l, hpath, by rw [h.valueAt]; exact hl⟩

theorem Schedules.sameCells {effects : List (SlotId × Bool)} (h : Schedules c c' effects) :
    SameCells c c' where
  nextId := by rw [h.frame]
  revision := by rw [h.frame]
  revisionMode := by rw [h.frame]
  node i := by
    rw [h.node]
    rcases c.nodes i with _ | (s | s | e)
    · exact .inl rfl
    · exact .inl rfl
    · exact .inl rfl
    · exact .inr ⟨e, _, rfl, rfl, rfl⟩

end SameCells

/-! ## `invalidate_dependents_now` -/

variable {S : SlotId → Prop} {c : Context τ V} {id : SlotId}

variable (hlive : ∀ j, c.nextId ≤ j → c.nodes j = none)
include hlive

/-- The walk runs with the dependent list off its node; afterwards the node is as it was. -/
theorem invalidateDependentsNow_walk (hS : Frontier.ClosedSet c S) (hid : S id)
    (hroots : ∀ r ∈ c.dependentsOf id, ¬ S r) :
    ∃ w : Context τ V × List (SlotId × Bool), Frontier.mark.Inv c (c.dependentsOf id) w [] ∧
      c.invalidateDependentsNow id = (!w.2.isEmpty, w.1.scheduleEffects w.2) := by
  by_cases hnil : c.dependentsOf id = []
  · refine ⟨c.markFrontier [], hnil ▸ markFrontier_walk hlive [], ?_⟩
    simp [invalidateDependentsNow, hnil, markFrontier, rootStack, scheduleEffects]
  · obtain ⟨hw, hrun⟩ := Frontier.mark.walk_unlisted hlive hS hid hroots
      (Nat.add_le_add_left (potential_mark_le (c.unlisted id)) _)
    refine ⟨_, hw, ?_⟩
    generalize Worklist.run Frontier.mark.visit _ (c, []) _ = w at hw hrun
    rw [Frontier.mark_visit] at hrun
    have hdeps : c.dependentsOf id = w.1.dependentsOf id := by
      rw [dependentsOf, dependentsOf, ((hw.apart S hS hroots).2.2 id hid)]
    have hwalked : (c.modifyNode id (·.mapDependents fun _ => [])).markFrontier
        (c.dependentsOf id) = (w.1.unlisted id, w.2) := hrun
    simp only [invalidateDependentsNow, if_neg hnil, hwalked]
    rw [hdeps, unlisted_restore]

/-- The walk below a cell whose value changed, when the cell itself is out of its reach: `S` is
closed under dependencies, holds the cell and none of its dependents. -/
theorem invalidateDependentsNow_spec (hmode : c.revisionMode = false)
    (hS : Frontier.ClosedSet c S) (hid : S id) (hroots : ∀ r ∈ c.dependentsOf id, ¬ S r) :
    ∃ c1 effects, Invalidates c c1 effects (c.dependentsOf id) ∧ c1.valueAt = c.valueAt ∧
      Schedules c1 (c.invalidateDependentsNow id).2 effects ∧
      (c.invalidateDependentsNow id).1 = !effects.isEmpty ∧
      ∀ i, (i, true) ∈ effects → i ∈ c.dependentsOf id := by
  obtain ⟨w, hw, heq⟩ := invalidateDependentsNow_walk hlive hS hid hroots
  rw [heq]
  exact ⟨w.1, w.2, invalidates_of_mark hmode hw, funext (hw.keeps rfl),
    scheduleEffects_schedules w.2 w.1, rfl, fun i hi => hw.forced rfl i (.inr hi)⟩

end Context

end Lazily
