import Lazily.Context.Proof.Write

/-!
# New nodes, and clears

A constructor takes the slot of `alloc_id`: the one retired last, or a new one at the end. Either is
empty and has no edges (`Tidy.newId`). The invariants then hold of the larger arena
(`SoundUpTo.addNode`), with a new effect left out until it is scheduled (`SoundUpTo.scheduled`).
-/

namespace Lazily

open Lib Context List Option Nat

variable {τ V : Type}

namespace Context

def newId (c : Context τ V) : SlotId := c.allocId.1

/-- Fill the slot `alloc_id` hands out; `all` is the new list of effects. -/
def addNode (c : Context τ V) (n : Node τ V) (all : List SlotId) : Context τ V :=
  { c.setNode c.newId (some n) with
    nextId := c.allocId.2.nextId
    freeIds := c.allocId.2.freeIds
    allEffectIds := all }

/-- What a constructor stores: no edges, no cached value, a guard that is sound. -/
structure Blank (c : Context τ V) (n : Node τ V) : Prop where
  dependencies : n.dependencies = []
  dependents : n.dependents = []
  slot : ∀ s, n = .computed s → s.value = none ∧ s.verifiedAt = 0 ∧ s.inProgress = false ∧
    ∀ equals, s.equals = some equals → ∀ old new, equals old new = true → old = new

section Alloc

variable {c : Context τ V} {D : SlotId → Prop}

theorem allocId_eq (c : Context τ V) : c.allocId =
    (c.newId, { c with nextId := c.allocId.2.nextId, freeIds := c.allocId.2.freeIds }) := by
  unfold newId allocId
  split <;> rfl

theorem nextId_allocId (c : Context τ V) : c.nextId ≤ c.allocId.2.nextId := by
  unfold allocId
  split
  · exact le_refl _
  · exact le_succ _

theorem Tidy.newId (h : Tidy c) (hc : Coherent D c) : c.nodes c.newId = none := by
  unfold Context.newId allocId
  split
  · rename_i id rest hfree
    exact (h.vacant id (by rw [hfree]; exact mem_cons_self)).2
  · exact hc.live _ (le_refl _)

theorem Tidy.newId_lt (h : Tidy c) : c.newId < c.allocId.2.nextId := by
  unfold Context.newId allocId
  split
  · rename_i id rest hfree
    exact (h.vacant id (by rw [hfree]; exact mem_cons_self)).1
  · exact lt_succ_self _

/-- The slots that are still waiting were waiting before, and the new one is not among them. -/
theorem Tidy.freeIds_allocId (h : Tidy c) : c.allocId.2.freeIds.Nodup ∧
    ∀ i ∈ c.allocId.2.freeIds, i ∈ c.freeIds ∧ i ≠ c.newId := by
  have hnodup := h.nodup
  unfold Context.newId allocId
  split
  · rename_i id rest hfree
    rw [hfree] at hnodup ⊢
    obtain ⟨hid, hrest⟩ := nodup_cons.1 hnodup
    refine ⟨hrest, fun i hi => ⟨mem_cons_of_mem _ hi, fun he => hid ?_⟩⟩
    rw [← show i = id from he]
    exact hi
  · rename_i hfree
    simp [hfree]

end Alloc

section AddNode

variable {R : EffectFn τ V → Prop} {D : SlotId → Prop} {out : SlotId → SlotId → Prop}
  {c c' : Context τ V} {n : Node τ V}
  {all : List SlotId} {i : SlotId}

theorem addNode_ne (hi : i ≠ c.newId) : (c.addNode n all).nodes i = c.nodes i := setNode_ne c hi _

theorem addNode_same : (c.addNode n all).nodes c.newId = some n := setNode_same c _ _

section

variable (hnew : c.nodes c.newId = none)
include hnew

variable {m : Node τ V}

theorem ne_newId (hm : c.nodes i = some m) : i ≠ c.newId := fun h => by
  rw [h, hnew] at hm
  cases hm

theorem addNode_nodes (hm : c.nodes i = some m) : (c.addNode n all).nodes i = some m := by
  rw [addNode_ne (ne_newId hnew hm), hm]

omit hnew in
theorem addNode_old (hm : (c.addNode n all).nodes i = some m) (hne : n ≠ m) :
    c.nodes i = some m := by
  by_cases hi : i = c.newId
  · rw [hi, addNode_same] at hm
    exact absurd (some.inj hm) hne
  · rwa [addNode_ne hi] at hm

omit hnew in
theorem Blank.dependenciesOf (hb : Blank c n) (hnew : c.nodes c.newId = none) :
    (c.addNode n all).dependenciesOf = c.dependenciesOf := by
  funext i
  by_cases hi : i = c.newId
  · simp [Context.dependenciesOf, hi, addNode_same, hb.dependencies, hnew]
  · simp [Context.dependenciesOf, addNode_ne hi]

omit hnew in
theorem Blank.dependentsOf (hb : Blank c n) (hnew : c.nodes c.newId = none) :
    (c.addNode n all).dependentsOf = c.dependentsOf := by
  funext i
  by_cases hi : i = c.newId
  · simp [Context.dependentsOf, hi, addNode_same, hb.dependents, hnew]
  · simp [Context.dependentsOf, addNode_ne hi]

theorem valueAt_addNode {v : V} (hv : c.valueAt i = some v) :
    (c.addNode n all).valueAt i = some v := by
  have hi : i ≠ c.newId := fun h => by
    rw [h] at hv
    simp [valueAt, hnew] at hv
  rw [← hv]
  simp [valueAt, addNode_ne hi]

theorem grounded_addNode (hg : Grounded c i) : Grounded (c.addNode n all) i :=
  hg.imp (fun _ s hs => ⟨s, addNode_nodes hnew hs⟩) fun _ s hg hs =>
    ⟨s, addNode_nodes hnew hs, hg.upToDate hs, rfl⟩

theorem pendingWrites_addNode (h : pendingWrites c i) : pendingWrites (c.addNode n all) i := by
  obtain ⟨hdepth, hmem, s, hs⟩ := h
  exact ⟨hdepth, hmem, s, addNode_nodes hnew hs⟩

end

/-- A slot of the larger arena is old, or the new one. -/
theorem addNode_slot {s : ComputedNode τ V} (hs : (c.addNode n all).nodes i = some (.computed s)) :
    c.nodes i = some (.computed s) ∨ n = .computed s := by
  by_cases hn : n = .computed s
  · exact .inr hn
  · exact .inl (addNode_old hs hn)

theorem Coherent.addNode (hc : Coherent D c) (ht : Tidy c) (hb : Blank c n) :
    Coherent D (c.addNode n all) := by
  have hnew := ht.newId hc
  refine ⟨⟨?_, ?_, ?_, ?_, ?_⟩, ?_⟩
  · exact hc.toLinked.congr (congrFun (hb.dependenciesOf hnew)) (congrFun (hb.dependentsOf hnew))
  · intro y hy
    have hy' : c.allocId.2.nextId ≤ y := hy
    have hne : y ≠ c.newId := ne_of_gt (lt_of_lt_of_le ht.newId_lt hy')
    rw [addNode_ne hne]
    exact hc.live y (le_trans (nextId_allocId c) hy')
  · intro y s hs
    rcases addNode_slot hs with hs | hs
    · exact hc.verified y s hs
    · rw [(hb.slot s hs).2.1]
      exact zero_le _
  · intro y s equals hs
    rcases addNode_slot hs with hs | hs
    · exact hc.guard y s equals hs
    · exact (hb.slot s hs).2.2.2 equals
  · intro y s hs hu
    rcases addNode_slot hs with hs | hs
    · exact grounded_addNode hnew (hc.grounded y s hs hu)
    · have := upToDate_value hu
      rw [(hb.slot s hs).1] at this
      cases this
  · intro y s v hs ht hv
    rcases addNode_slot hs with hs | hs
    · obtain ⟨l, hpath, hl⟩ := hc.reads y s v hs ht hv
      exact ⟨l, hpath, fun p hp => ⟨(hl p hp).1, (hl p hp).2.imp_left (valueAt_addNode hnew)⟩⟩
    · rw [(hb.slot s hs).1] at hv
      cases hv

theorem Tidy.addNode (h : Tidy c) (hb : Blank c n) : Tidy (c.addNode n all) where
  nodup := h.freeIds_allocId.1
  vacant i hi := by
    obtain ⟨hfree, hne⟩ := h.freeIds_allocId.2 i hi
    obtain ⟨hlt, hn⟩ := h.vacant i hfree
    exact ⟨lt_of_lt_of_le hlt (nextId_allocId c), (addNode_ne hne).trans hn⟩
  released i s hs := by
    rcases addNode_slot hs with hs | hs
    · exact h.released i s hs
    · exact (hb.slot s hs).2.2.1

theorem WatchedAt.addNode {e : EffectNode τ V} {d : SlotId} (h : WatchedAt D c i e d)
    (hc : Coherent D c) (hnew : c.nodes c.newId = none) (he : c.nodes i = some (.effect e)) :
    WatchedAt D (c.addNode n all) i e d := by
  refine ⟨h.forced, fun hn hd => grounded_addNode hnew (h.settled hn hd),
    fun hf hcov hd v hv => ?_, h.revision, h.ran⟩
  have hcov' : Covered c e := fun hm => by
    obtain ⟨d, hd, s, hs⟩ := hcov hm
    refine ⟨d, hd, s, ?_⟩
    by_cases hdn : d = c.newId
    · rw [← dependenciesOf_effect he, hc.edge, hdn, dependentsOf, hnew] at hd
      cases hd
    · rwa [addNode_ne hdn] at hs
  exact (h.observed hf hcov' hd v hv).imp_left (valueAt_addNode hnew)

theorem SoundUpTo.newId (h : SoundUpTo R D out c) : c.nodes c.newId = none :=
  h.tidy.newId h.coherent

/-- The new node, if it is an effect, is left out. -/
theorem SoundUpTo.addNode (h : SoundUpTo R D out c) (hb : Blank c n) (hall : c.allEffectIds ⊆ all)
    (hmem : ∀ e, n = .effect e → c.newId ∈ all) (hR : ∀ e, n = .effect e → R e.run) :
    SoundUpTo R D (fun i d => out i d ∨ i = c.newId) (c.addNode n all) := by
  have heff : ∀ i e, (c.addNode n all).nodes i = some (.effect e) →
      c.nodes i = some (.effect e) ∨ i = c.newId ∧ n = .effect e := fun i e he => by
    by_cases hi : i = c.newId
    · rw [hi, addNode_same] at he
      exact .inr ⟨hi, some.inj he⟩
    · exact .inl (by rwa [addNode_ne hi] at he)
  refine ⟨⟨h.tidy.addNode hb, fun i e he => ?_, fun i hi => ?_, h.noWrites, fun i e he => ?_⟩,
    h.coherent.addNode h.tidy hb, fun hn i e d hi he => ?_⟩
  · rcases heff i e he with he | ⟨rfl, hn⟩
    · exact hall (h.listed i e he)
    · exact hmem e hn
  · obtain ⟨hp, e, he⟩ := h.queued i hi
    exact ⟨hp, e, addNode_nodes h.newId he⟩
  · rcases heff i e he with he | ⟨rfl, hn⟩
    · exact h.allowed i e he
    · exact hR e hn
  · rw [addNode_ne fun hin => hi (.inr hin)] at he
    exact (h.watched hn i e d (fun ho => hi (.inl ho)) he).addNode h.coherent h.newId he

theorem frame_addNode (hnew : c.nodes c.newId = none)
    (hn : ∀ e, n = .effect e → e.observed = [] ∧ e.dependencies = []) :
    Frame c (c.addNode n all) := by
  refine ⟨rfl, rfl, rfl, rfl, fun h => h, fun _ h => h,
    fun _ e _ he => ⟨e, addNode_nodes hnew he, .refl e⟩, fun i e _ he => ?_⟩
  by_cases hi : i = c.newId
  · rw [hi, addNode_same] at he
    obtain ⟨hobs, hdeps⟩ := hn e (some.inj he)
    refine .inr ⟨fun p hp => ?_, fun d hd => ?_⟩
    · rw [hobs] at hp
      cases hp
    · rw [hdeps] at hd
      cases hd
  · exact .inl ⟨e, (addNode_ne hi).symm.trans he⟩

end AddNode

/-! ## Constructors -/

section Constructors

variable {R : EffectFn τ V → Prop} {D : SlotId → Prop} {out : SlotId → SlotId → Prop}
  {flush : M τ V Unit} {c c' : Context τ V} {x : SlotId} {e : EffectNode τ V} {f : Bool}

theorem stirs_scheduleEffect {skip : SlotId → Prop}
    (he : c.nodes x = some (.effect e)) : Stirs skip c (c.scheduleEffect x f) :=
  (scheduleEffect_schedules c (x, f)).stirs fun p hp => by
    cases mem_singleton.1 hp
    exact ⟨e, he⟩

/-- Scheduling an effect that is forced fills the gap it left. -/
theorem SoundUpTo.scheduled (h : SoundUpTo R D (fun i d => out i d ∨ i = x) c)
    (he : c.nodes x = some (.effect e)) (hforce : e.forceRun = true) :
    SoundUpTo R D out (c.scheduleEffect x f) := by
  have hsched := scheduleEffect_schedules c (x, f)
  obtain ⟨c', hc'⟩ : ∃ c', c' = c.scheduleEffect x f := ⟨_, rfl⟩
  rw [← hc'] at hsched ⊢
  obtain ⟨new, hq, hnew⟩ := hsched.queue
  have hstirs : Stirs (fun _ => False) c c' := hc' ▸ stirs_scheduleEffect he
  refine ⟨h.toRegular.stirs hstirs, h.coherent.sameCells hsched.sameCells,
    fun hn i e' d hi he' => ?_⟩
  · rw [hsched.frame] at hn
    obtain ⟨e0, he0, rfl⟩ := hsched.of_effect he'
    by_cases hix : i = x
    · subst hix
      rw [he] at he0
      cases he0
      have hs : c'.scheduledEffects i = true :=
        hsched.scheduled _ (mem_singleton_self (i, f)) ⟨e, he⟩
      exact ⟨fun _ => hs, fun hns => by (rw [hs] at hns; cases hns),
        fun hff => by (rw [hforce, Bool.true_or] at hff; cases hff),
        fun _ _ => by rw [hforce, Bool.true_or],
        fun hff => by (rw [hforce, Bool.true_or] at hff; cases hff)⟩
    · have hno : (i, true) ∉ [(x, f)] := fun hm => hix (Prod.mk.inj (mem_singleton.1 hm)).1
      have hsame : c'.scheduledEffects i = c.scheduledEffects i := by
        have : i ∉ new := fun hi => by
          obtain ⟨f', hf'⟩ := hnew i hi
          exact hix (Prod.mk.inj (mem_singleton.1 hf')).1
        rw [hq.scheduled, decide_eq_false this, Bool.or_false]
      have hw := h.watched hn i e0 d (fun ho => ho.elim hi hix) he0
      rw [decide_eq_false hno, Bool.or_false]
      exact hw.sameCells hsched.sameCells hsame

section

variable (h : Sound R out c)
include h

theorem Sound.addCell {n : Node τ V} (hb : Blank c n)
    (hn : ∀ e, n ≠ .effect e) : Sound R out (c.addNode n c.allEffectIds) := by
  have hadd : SoundUpTo R (pendingWrites c) out (c.addNode n c.allEffectIds) := by
    refine (h.addNode hb (fun _ hi => hi) (fun e he => absurd he (hn e)) fun e he =>
      absurd he (hn e)).back fun _ e _ _ he => ?_
    rw [addNode_same] at he
    exact absurd (some.inj he) (hn e)
  exact hadd.mono fun _ => pendingWrites_addNode h.newId

theorem newSource_spec {v : V} {tag : τ} {k : Source τ} (hrun : newSource v tag c = .ok k c') :
    c' = c.addNode (.source { value := v, typeId := tag, dependents := [] }) c.allEffectIds ∧
      Sound R out c' ∧ Frame c c' := by
  have hc' : c' =
      c.addNode (.source { value := v, typeId := tag, dependents := [] }) c.allEffectIds := by
    rw [newSource, allocId_eq c] at hrun
    cases hrun
    rfl
  subst hc'
  exact ⟨rfl, h.addCell ⟨rfl, rfl, fun s hs => by cases hs⟩ (by simp),
    frame_addNode h.newId (by simp)⟩

theorem slotWithEquals_spec {compute : ComputeFn τ V}
    {equals : Option (V → V → Bool)} {tag : τ} {k : Computed τ}
    (hlaw : ∀ f, equals = some f → ∀ old new, f old new = true → old = new)
    (hrun : slotWithEquals compute equals tag c = .ok k c') :
    (∃ s, c' = c.addNode (.computed s) c.allEffectIds) ∧ Sound R out c' ∧ Frame c c' := by
  obtain ⟨s, hs⟩ : ∃ s : ComputedNode τ V, s =
    { value := none, typeId := tag, compute := compute, equals := equals, dependencies := [],
      dependents := [], dirty := false, forceRecompute := false, inProgress := false,
      eager := false, verifiedAt := 0 } := ⟨_, rfl⟩
  have hc' : c' = c.addNode (.computed s) c.allEffectIds := by
    rw [slotWithEquals, allocId_eq c] at hrun
    cases hrun
    rw [hs]
    rfl
  have hb : Blank c (.computed s) := by
    rw [hs]
    exact ⟨rfl, rfl, fun t ht => by cases ht; exact ⟨rfl, rfl, rfl, hlaw⟩⟩
  subst hc'
  exact ⟨⟨s, rfl⟩, h.addCell hb (by simp), frame_addNode h.newId (by simp)⟩

/-- A new effect, up to the drain. -/
theorem newEffect_spec {run : EffectFn τ V} {k : Effect}
    (hR : R run) (hrun : newEffect flush run c = .ok k c') : ∃ e c1, c1 =
        (c.addNode (.effect e) (c.allEffectIds ++ [c.newId])).scheduleEffect c.newId false ∧
      Frame c (c.addNode (.effect e) (c.allEffectIds ++ [c.newId])) ∧ Sound R out c1 ∧
      Frame c c1 ∧ flush c1 = .ok () c' := by
  obtain ⟨e, he⟩ : ∃ e : EffectNode τ V, e =
      { run := run, dependencies := [], cleanup := none, forceRun := true, observed := [],
        runs := 0 } := ⟨_, rfl⟩
  obtain ⟨c1, hc1⟩ : ∃ c1, c1 =
    (c.addNode (.effect e) (c.allEffectIds ++ [c.newId])).scheduleEffect c.newId false := ⟨_, rfl⟩
  have hadd : SoundUpTo R (pendingWrites c) (fun i d => out i d ∨ i = c.newId)
      (c.addNode (.effect e) (c.allEffectIds ++ [c.newId])) := by
    refine h.addNode ⟨by simp [Node.dependencies, he], rfl, fun s hs => nomatch hs⟩
      (subset_append_left ..) (fun _ _ => by simp) fun e' he' => ?_
    cases he'
    rw [he]
    exact hR
  have hsound := hadd.scheduled (f := false) addNode_same (by rw [he])
  have hstirs : Stirs (fun _ => False) (c.addNode (.effect e) (c.allEffectIds ++ [c.newId])) c1 :=
    hc1 ▸ stirs_scheduleEffect addNode_same
  rw [← hc1] at hsound
  have hframe : Frame c (c.addNode (.effect e) (c.allEffectIds ++ [c.newId])) :=
    frame_addNode h.newId fun e' he' => by
      cases he'
      rw [he]
      exact ⟨rfl, rfl⟩
  refine ⟨e, c1, hc1, hframe, ?_, hframe.trans hstirs.toFrame, ?_⟩
  · refine hsound.mono fun i hi => ?_
    rw [hstirs.pendingWrites]
    exact pendingWrites_addNode h.newId hi
  · rw [newEffect, allocId_eq c] at hrun
    rw [hc1, he]
    dsimp only at hrun
    split at hrun
    · rename_i c2 hflush
      cases hrun
      exact hflush
    · cases hrun

end

theorem newEffect_keeps (hf : FlushSpec R flush) (h : Sound R out c) {run : EffectFn τ V}
    {k : Effect} (hR : R run) (hrun : newEffect flush run c = .ok k c') :
    Keeps R out flush c c' := by
  obtain ⟨e, c1, -, -, hs, hframe, hflush⟩ := newEffect_spec h hR hrun
  exact .flushed hf hs hframe hflush

end Constructors

end Context

end Lazily
